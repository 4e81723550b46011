import Sequentia.Stake.PotRecords

/-!
# Records enter the UTXO set

`AddCoin` drops outputs whose script is unspendable, so an output that the registry
counts at connect time but the UTXO set never holds would make a rescan disagree. This
file shows that no such record exists: every script that a record parser accepts is short
and starts with a push.
-/

namespace Sequentia

open ScriptReader Option

variable {opcode : UInt8} {data : Bytes} {params : Params} {out : CTxOut}

theorem length_of_acceptLockNumber {maxSize : ℕ} {v : ℤ}
    (haccept : acceptLockNumber maxSize opcode data = some v)
    (hdata : PushesNothing opcode → data = []) : data.length ≤ maxSize := by
  revert haccept
  fun_cases acceptLockNumber maxSize opcode data <;> rintro ⟨⟩
  · next hsmall => simp [hdata (pushesNothing_of_op1_le hsmall.1)]
  · next hlength _ => exact hlength.2

theorem length_of_readScriptNumToken {maxSize : ℕ} {v : ℤ}
    (hread : readScriptNumToken opcode data maxSize = some v)
    (hdata : PushesNothing opcode → data = []) : data.length ≤ maxSize := by
  revert hread
  fun_cases readScriptNumToken opcode data maxSize <;> rintro ⟨⟩
  · next heq => simp [hdata (Or.inl heq)]
  · next hsmall => simp [hdata (pushesNothing_of_op1_le hsmall.1)]
  · next hlength _ => exact Nat.not_lt.mp (not_or.mp hlength).2

/-- The lock of a stake is a short push or none. -/
theorem length_of_acceptCsv {csv : ℕ} (haccept : acceptCsv opcode data = some csv)
    (hdata : PushesNothing opcode → data = []) : data.length ≤ 4 := by
  unfold acceptCsv at haccept
  split at haccept
  · cases haccept
  · next hnumber => exact length_of_acceptLockNumber hnumber hdata

theorem consumes_acceptCsv : Consumes (5 + 4) (token acceptCsv) :=
  consumes_token fun _ _ _ haccept hdata => length_of_acceptCsv haccept hdata

theorem length_of_acceptLocktime {locktime : ℕ}
    (haccept : acceptLocktime opcode data = some locktime)
    (hdata : PushesNothing opcode → data = []) : data.length ≤ 5 := by
  unfold acceptLocktime at haccept
  split at haccept
  · cases haccept
  · next hnumber => exact length_of_acceptLockNumber hnumber hdata

/-- The end of a staking script bounds the token read before it. -/
theorem length_of_stakeTail {pc pc' : CScript} {r : ℕ × CPubKey}
    (hdata : PushesNothing opcode → data = []) (htail : stakeTail opcode data pc = some (r, pc')) :
    data.length ≤ 65 ∧ pc.length ≤ 200 + pc'.length := by
  revert htail
  fun_cases stakeTail opcode data pc <;> intro htail <;> try cases htail
  · next data₁ pc₁ locktime hlocktime hop =>
    have hrest : Consumes (5 + (70 + (5 + 0))) (do
        expectOp opDrop
        let pubkey ← getKey
        expectOp opCheckSig
        pure (locktime, pubkey) : ScriptReader (ℕ × CPubKey)) :=
      Consumes.op <| consumes_getKey.bind fun _ =>
        Consumes.op <| consumes_pure _
    have hlength := length_of_acceptLocktime hlocktime hdata
    have hconsumed := hrest _ _ _ htail
    have hop' := length_getScriptOp hop
    have hnothing : data₁ = [] := (head_getScriptOp hop).2 (Or.inr (by decide))
    simp only [hnothing, List.length_nil] at hop'
    omega
  · next pubkey hkey =>
    have hrest : Consumes (5 + 0) (do
        expectOp opCheckSig
        pure (0, pubkey) : ScriptReader (ℕ × CPubKey)) :=
      Consumes.op <| consumes_pure _
    have hlength := length_of_acceptKey hkey
    have hconsumed := hrest _ _ _ htail
    omega

theorem consumes_getPush (size : ℕ) : Consumes (5 + size) (getPush size) := by
  refine consumes_token fun opcode data a haccept _ => ?_
  split at haccept
  · next hsize => exact Nat.le_of_eq hsize
  · cases haccept

theorem consumes_getOp_stakeTail {α : Type} (f : ℕ → CPubKey → α) :
    Consumes (5 + 65 + 200) (do
      let (opcode, data) ← getOp
      let (locktime, pubkey) ← stakeTail opcode data
      pure (f locktime pubkey) : ScriptReader α) := by
  refine consumes_getOp_bind fun opcode data pc b pc' hdata hnext => ?_
  obtain ⟨⟨r, pc₁⟩, htail, hpure⟩ := bind_eq_some_iff.mp hnext
  obtain ⟨-, rfl⟩ := Prod.mk.inj (Option.some.inj hpure)
  exact length_of_stakeTail hdata htail

theorem consumes_stakeBody (csv : ℕ) : Consumes 1000 (stakeBody csv) := by
  refine (consumes_getOp_bind (n := 65) (m := 500)
    fun opcode data pc b pc' hdata hnext => ?_).mono (by decide)
  dsimp only at hnext
  split at hnext
  · next hsize =>
    have hregistration : Consumes (5 + (5 + 96 + (5 + (5 + 65 + 200)))) (do
        expectOp opDrop
        let pop ← getPush 96
        expectOp opDrop
        let (opcode, data') ← getOp
        let (locktime, pubkey) ← stakeTail opcode data'
        pure ⟨pubkey, csv, data, pop, locktime⟩ : ScriptReader ParsedStake) :=
      Consumes.op <| (consumes_getPush 96).bind fun pop =>
        Consumes.op <|
          consumes_getOp_stakeTail fun locktime pubkey =>
            (⟨pubkey, csv, data, pop, locktime⟩ : ParsedStake)
    have := hregistration _ _ _ hnext
    omega
  · obtain ⟨⟨r, pc₁⟩, htail, hpure⟩ := bind_eq_some_iff.mp hnext
    obtain ⟨-, rfl⟩ := Prod.mk.inj (Option.some.inj hpure)
    have := length_of_stakeTail hdata htail
    omega

theorem isUnspendable_of_parseStakeScriptFull {script : CScript} {full : ParsedStake}
    (hparse : parseStakeScriptFull script = some full) : isUnspendable script = false :=
  isUnspendable_of_parse
    (consumes_acceptCsv.bind fun csv => Consumes.op <|
      Consumes.op <| consumes_stakeBody csv)
    (by decide) (by decide) hparse

theorem isUnspendable_of_stakeFromTxOut {stake : CPubKey × ℕ}
    (hstake : stakeFromTxOut params out = some stake) : isUnspendable out.scriptPubKey = false := by
  revert hstake
  fun_cases stakeFromTxOut params out <;> rintro ⟨⟩
  next hparse _ _ _ => exact isUnspendable_of_parseStakeScriptFull hparse

theorem isUnspendable_of_delegationFromTxOut {deleg : CPubKey × CPubKey}
    (hdeleg : delegationFromTxOut out = some deleg) : isUnspendable out.scriptPubKey = false :=
  isUnspendable_of_parse
    ((consumes_expectData delegationMarker).bind fun _ =>
      Consumes.op <| consumes_getKey.bind fun _ =>
        Consumes.op <| consumes_getKey.bind fun _ =>
          Consumes.op <| consumes_pure _)
    (by decide) (by decide) hdeleg

theorem consumes_acceptActivation : Consumes (5 + 5) (token acceptActivation) := by
  refine consumes_token fun opcode data a haccept hdata => ?_
  unfold acceptActivation at haccept
  split at haccept
  · cases haccept
  · next hread => exact length_of_readScriptNumToken hread hdata

theorem consumes_acceptMode : Consumes (5 + 1) (token acceptMode) := by
  refine consumes_token fun opcode data a haccept hdata => ?_
  unfold acceptMode at haccept
  split at haccept
  · cases haccept
  · next hread => exact length_of_readScriptNumToken hread hdata

theorem consumes_acceptPayoutParam (mode : PosPayoutMode) :
    Consumes (5 + 110) (token (acceptPayoutParam mode)) := by
  refine consumes_token fun opcode data a haccept hdata => ?_
  revert haccept
  fun_cases acceptPayoutParam mode opcode data <;> rintro ⟨⟩
  · next hsize => exact Nat.not_lt.mp (not_or.mp hsize).2
  · next hread _ =>
    have := length_of_readScriptNumToken hread hdata
    omega

theorem isUnspendable_of_payoutFromTxOut {payout : CPubKey × PosPayoutPolicy}
    (hpayout : payoutFromTxOut out = some payout) : isUnspendable out.scriptPubKey = false :=
  isUnspendable_of_parse
    ((consumes_expectData payoutMarker).bind fun _ =>
      Consumes.op <| consumes_acceptActivation.bind fun _ =>
        Consumes.op <| consumes_acceptMode.bind fun mode =>
          Consumes.op <|
            (consumes_acceptPayoutParam mode).bind fun _ =>
              Consumes.op <| consumes_getKey.bind fun _ =>
                Consumes.op <| consumes_pure _)
    (by decide) (by decide) hpayout

theorem parsePotScript_of_potFromTxOut {pot : PotOut} (hpot : potFromTxOut out = some pot) :
    ∃ signer, parsePotScript out.scriptPubKey = some signer := by
  revert hpot
  fun_cases potFromTxOut out <;> intro hpot <;> try cases hpot
  obtain ⟨signer, hparse, -⟩ := map_eq_some_iff.mp hpot
  exact ⟨signer, hparse⟩

theorem isUnspendable_of_potFromTxOut {pot : PotOut} (hpot : potFromTxOut out = some pot) :
    isUnspendable out.scriptPubKey = false := by
  obtain ⟨signer, hparse⟩ := parsePotScript_of_potFromTxOut hpot
  exact isUnspendable_of_parse
    ((consumes_expectData potMarker).bind fun _ =>
      Consumes.op <| consumes_getKey.bind fun _ =>
        Consumes.op <|
          Consumes.op <| consumes_pure _)
    (by decide) (by decide) hparse

/-- The round data is bounded by the largest bitmap. -/
theorem length_of_acceptRound {rd : Bytes} {round : PosRound}
    (haccept : acceptRound params rd = some round) : rd.length ≤ 318 := by
  revert haccept
  fun_cases acceptRound params rd <;> intro haccept <;> try cases haccept
  next hbuckets _ _ hlength _ =>
  simp only [not_or, Nat.not_lt, posRoundMaxBuckets] at hbuckets
  simp only [ne_eq, Decidable.not_not, roundDataFixed] at hlength
  omega

theorem isUnspendable_of_roundFromTxOut {round : RoundOut}
    (hround : roundFromTxOut params out = some round) : isUnspendable out.scriptPubKey = false := by
  revert hround
  fun_cases roundFromTxOut params out <;> intro hround <;> try cases hround
  obtain ⟨⟨signer, r⟩, hparse, -⟩ := map_eq_some_iff.mp hround
  have hkey : Consumes (5 + 33) (token fun _ data =>
      if data.length = 33 then acceptKey data else none) := by
    refine consumes_token fun opcode data a haccept _ => ?_
    split at haccept
    · next hsize => exact Nat.le_of_eq hsize
    · cases haccept
  have hdata : Consumes (5 + 318) (token fun _ rd => acceptRound params rd) :=
    consumes_token fun _ _ _ haccept _ => length_of_acceptRound haccept
  exact isUnspendable_of_parse
    ((consumes_expectData roundMarker).bind fun _ =>
      Consumes.op <| hkey.bind fun _ =>
        Consumes.op <| hdata.bind fun _ =>
          Consumes.op <|
            Consumes.op <| consumes_pure _)
    (by decide) (by decide) hparse

theorem roundFromTxOut_of_parsePotScript {signer : CPubKey}
    (hpot : parsePotScript out.scriptPubKey = some signer) : roundFromTxOut params out = none := by
  obtain ⟨opcode, pc, hop⟩ := getScriptOp_of_parse hpot
  fun_cases roundFromTxOut params out <;> try rfl
  rw [map_eq_none_iff, eq_none_iff_forall_ne_some]
  intro round hround
  obtain ⟨opcode', pc', hop'⟩ := getScriptOp_of_parse hround
  rw [hop] at hop'
  have hmarker : potMarker = roundMarker := (Prod.mk.inj (Prod.mk.inj (Option.some.inj hop')).2).1
  exact absurd hmarker (by decide)

theorem roundFromTxOut_of_pot {pot : PotOut} (hpot : potFromTxOut out = some pot) :
    roundFromTxOut params out = none := by
  obtain ⟨signer, hparse⟩ := parsePotScript_of_potFromTxOut hpot
  exact roundFromTxOut_of_parsePotScript hparse

end Sequentia
