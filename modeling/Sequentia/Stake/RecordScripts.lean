import Sequentia.ScriptWriter
import Sequentia.Stake.Sync

/-!
# The record scripts as a format

Six kinds of records live in bare scripts. Each is told by the first token of its script: a marker
of its own, or a short number for a stake, so that no script is a record of two kinds. What a
parser accepts is canonical, and a canonical record is read back from the script that is built for
it. The builders check nothing: they also build scripts that no parser accepts.
-/

namespace Sequentia

open ScriptReader List Option

def buildStakeScript (pubkey : CPubKey) (csvBlocks : ℕ) (blsPubkey blsPop : Bytes)
    (liquidLocktime : ℤ) : CScript :=
  pushInt64 csvBlocks ++ [opCheckSequenceVerify] ++ [opDrop] ++
    (if !blsPubkey.isEmpty || !blsPop.isEmpty then
      pushBytes blsPubkey ++ [opDrop] ++ pushBytes blsPop ++ [opDrop] else []) ++
    (if liquidLocktime > 0 then
      pushInt64 liquidLocktime ++ [opCheckLockTimeVerify] ++ [opDrop] else []) ++
    pushBytes pubkey.vch ++ [opCheckSig]

def PosPayoutMode.toNat : PosPayoutMode → ℕ
  | leader => 0
  | direct => 1
  | lottery => 2
  | split => 3

def buildPayoutScript (signer : CPubKey) (policy : PosPayoutPolicy) : CScript :=
  pushBytes payoutMarker ++ [opDrop] ++ pushInt64 policy.activation ++ [opDrop] ++
    pushInt64 policy.mode.toNat ++ [opDrop] ++
    (if policy.mode = .direct then pushBytes policy.script else pushInt64 policy.commissionBp) ++
    [opDrop] ++ pushBytes signer.vch ++ [opCheckSig]

def buildUnbondScript (pubkey : CPubKey) : CScript :=
  pushBytes unbondMarker ++ [opDrop] ++ pushBytes pubkey.vch ++ [opCheckSig]

inductive RecordKind where
  | stake
  | delegation
  | payout
  | pot
  | round
  | unbonding
  deriving DecidableEq

/-- A record of any kind. -/
inductive PosRecord where
  | stake (stake : ParsedStake)
  | delegation (controller signer : CPubKey)
  | payout (signer : CPubKey) (policy : PosPayoutPolicy)
  | pot (signer : CPubKey)
  | round (signer : CPubKey) (round : PosRound)
  | unbonding (pubkey : CPubKey)
  deriving DecidableEq

namespace PosRecord

def kind : PosRecord → RecordKind
  | stake _ => .stake
  | delegation _ _ => .delegation
  | payout _ _ => .payout
  | pot _ => .pot
  | round _ _ => .round
  | unbonding _ => .unbonding

def build : PosRecord → CScript
  | stake s => buildStakeScript s.pubkey s.csv s.blsPubkey s.blsPop s.liquidLocktime
  | delegation controller signer => buildDelegationScript controller signer
  | payout signer policy => buildPayoutScript signer policy
  | pot signer => buildPotScript signer
  | round signer r => buildRoundScript signer r
  | unbonding pubkey => buildUnbondScript pubkey

end PosRecord

def RecordKind.parse (params : Params) : RecordKind → CScript → Option PosRecord
  | stake, script => (parseStakeScriptFull script).map .stake
  | delegation, script => (parseDelegationScript script).map fun d => .delegation d.1 d.2
  | payout, script => (parsePayoutScript script).map fun p => .payout p.1 p.2
  | pot, script => (parsePotScript script).map .pot
  | round, script => (parseRoundScript params script).map fun r => .round r.1 r.2
  | unbonding, script => (parseUnbondScript script).map .unbonding

/-- A stake with a canonical relative lock, no committee registration or a whole one, and no
vesting lock or one in the range of `nLockTime`. -/
structure ParsedStake.Canonical (s : ParsedStake) : Prop where
  pubkey : s.pubkey.isFullyValid = true
  csvBits : s.csv &&& (sequenceLocktimeTypeFlag ||| sequenceLocktimeMask) = s.csv
  csvValue : s.csv &&& sequenceLocktimeMask ≠ 0
  /-- The committee registration. -/
  bls : s.blsPubkey = [] ∧ s.blsPop = [] ∨ s.blsPubkey.length = 48 ∧ s.blsPop.length = 96
  locktime : s.liquidLocktime ≤ 0xffffffff

/-- A policy with a parameter that fits its mode. -/
structure PosPayoutPolicy.Canonical (policy : PosPayoutPolicy) : Prop where
  /-- A height. -/
  activation : 0 < policy.activation ∧ policy.activation ≤ 0xffffffff
  param : policy.mode = .direct ∧ policy.script ≠ [] ∧
      policy.script.length ≤ maxPayoutScriptSize ∧ policy.commissionBp = 0 ∨
    (policy.mode = .lottery ∨ policy.mode = .split) ∧ policy.script = [] ∧
      policy.commissionBp ≤ posCommissionDenom

/-- A round whose numbers are in their ranges and whose bitmap has a bit for each bucket and no
more. -/
structure PosRound.Canonical (params : Params) (round : PosRound) : Prop where
  epoch : round.epoch < 2 ^ 32
  /-- There is weight, in 64 bits, and the pool's own is part of it. -/
  weight : round.weight ≠ 0 ∧ round.weight < 2 ^ 64 ∧ round.signerWeight ≤ round.weight
  /-- There is something to distribute. -/
  distributable : 0 < round.distributable ∧ params.moneyRange round.distributable = true
  /-- The number of buckets is a power of two. -/
  buckets : round.buckets ≠ 0 ∧ round.buckets ≤ posRoundMaxBuckets ∧
    round.buckets &&& (round.buckets - 1) = 0
  /-- The bitmap has the bytes it needs. -/
  paid : round.paid.length = (round.buckets + 7) / 8
  /-- No bit is set beyond the last bucket. -/
  padding : round.buckets % 8 = 0 ∨
    (round.paid.getLastD 0).toNat >>> (round.buckets % 8) = 0

/-- The records that a script can hold. -/
def PosRecord.Canonical (params : Params) : PosRecord → Prop
  | .stake s => s.Canonical
  | .delegation controller signer =>
    controller.isFullyValid = true ∧ signer.isFullyValid = true
  | .payout signer policy => signer.isFullyValid = true ∧ policy.Canonical
  | .pot signer => signer.isFullyValid = true
  | .round signer r =>
    signer.isFullyValid = true ∧ signer.isCompressed = true ∧ r.Canonical params
  | .unbonding pubkey => pubkey.isFullyValid = true

variable {params : Params} {script : CScript}

def RecordKind.marker : RecordKind → Bytes
  | stake => []
  | delegation => delegationMarker
  | payout => payoutMarker
  | pot => potMarker
  | round => roundMarker
  | unbonding => unbondMarker

variable {opcode : UInt8} {data rd : Bytes} {kind : RecordKind} {r : PosRecord} {s : ParsedStake}
  {round : PosRound} {signer pubkey : CPubKey}

theorem RecordKind.first_token (hparse : kind.parse params script = some r) :
    ∃ opcode data pc, getScriptOp script = some (opcode, data, pc) ∧
      (kind = .stake ∧ data.length ≤ 4 ∨ kind ≠ .stake ∧ data = kind.marker) := by
  cases kind with
  | stake =>
    obtain ⟨s, hs, -⟩ := map_eq_some_iff.mp hparse
    obtain ⟨⟨csv, pc⟩, hfirst, -⟩ := bind_eq_some_iff.mp (read_of_parse hs)
    obtain ⟨opcode, data, hop, haccept⟩ := token_eq_some hfirst
    exact ⟨opcode, data, pc, hop,
      .inl ⟨rfl, length_of_acceptCsv haccept (head_getScriptOp hop).2⟩⟩
  | _ =>
    obtain ⟨_, hmarked, -⟩ := map_eq_some_iff.mp hparse
    obtain ⟨opcode, pc, hop⟩ := getScriptOp_of_parse hmarked
    exact ⟨opcode, _, pc, hop, .inr ⟨by decide, rfl⟩⟩

/-- The markers are longer than a lock, and no two are the same. -/
theorem RecordKind.marker_cases (kind kind' : RecordKind) :
    (kind ≠ .stake → 4 < kind.marker.length) ∧
      (kind ≠ .stake → kind' ≠ .stake → kind.marker = kind'.marker → kind = kind') := by
  cases kind <;> cases kind' <;> decide

theorem RecordKind.eq_of_parse {kind' : RecordKind} {r' : PosRecord}
    (hparse : kind.parse params script = some r) (hparse' : kind'.parse params script = some r') :
    kind = kind' := by
  obtain ⟨opcode, data, pc, hop, hkind⟩ := first_token hparse
  obtain ⟨opcode', data', pc', hop', hkind'⟩ := first_token hparse'
  obtain ⟨-, rfl, -⟩ : opcode = opcode' ∧ data = data' ∧ pc = pc' := by
    simpa using hop.symm.trans hop'
  obtain ⟨hlong, hsame⟩ := marker_cases kind kind'
  obtain ⟨hlong', -⟩ := marker_cases kind' kind
  rcases hkind with ⟨rfl, hshort⟩ | ⟨hne, hmarker⟩
  · rcases hkind' with ⟨rfl, -⟩ | ⟨hne', hmarker'⟩
    · rfl
    · have := hlong' hne'
      rw [← hmarker'] at this
      omega
  · rcases hkind' with ⟨rfl, hshort'⟩ | ⟨hne', hmarker'⟩
    · have := hlong hne
      rw [← hmarker] at this
      omega
    · exact hsame hne hne' (hmarker.symm.trans hmarker')

theorem acceptCsv_spec {csv : ℕ} (haccept : acceptCsv opcode data = some csv) :
    csv &&& (sequenceLocktimeTypeFlag ||| sequenceLocktimeMask) = csv ∧
      csv &&& sequenceLocktimeMask ≠ 0 := by
  unfold acceptCsv at haccept
  split at haccept
  · cases haccept
  simp only [ite_none_left_eq_some, ne_eq, not_not] at haccept
  obtain ⟨-, hbits, hvalue, ⟨⟩⟩ := haccept
  exact ⟨hbits, hvalue⟩

/-- A vesting lock in its range and a valid key. -/
def TailOk (r : ℕ × CPubKey) : Prop := r.1 ≤ 0xffffffff ∧ r.2.isFullyValid = true

theorem stakeTail_spec : Yields (stakeTail opcode data) TailOk := by
  intro pc r pc' hread
  revert hread
  fun_cases stakeTail opcode data pc
  case case1 | case3 | case5 => rintro ⟨⟩
  case case2 locktime hlocktime _ =>
    intro hread
    have hle : locktime ≤ 0xffffffff := by
      revert hlocktime
      fun_cases acceptLocktime <;> rintro ⟨⟩
      omega
    have hend : ∀ key, key.isFullyValid = true → Yields (pure (locktime, key)) TailOk :=
      fun _ hkey => yields_pure ⟨hle, hkey⟩
    exact Yields.skip (yields_getKey.bind fun key hkey => (hend key hkey).skip) _ _ _ hread
  case case4 pubkey hkey =>
    intro hread
    have hend : Yields (pure (0, pubkey)) TailOk :=
      yields_pure ⟨Nat.zero_le _, (acceptKey_spec hkey).1⟩
    exact hend.skip _ _ _ hread

theorem canonical_of_parseStakeScriptFull (hparse : parseStakeScriptFull script = some s) :
    s.Canonical := by
  refine Yields.parse ((yields_token fun _ _ _ => acceptCsv_spec).bind fun csv hcsv =>
    .skip <| .skip <| ?_) hparse
  have hany : Yields getOp fun _ => True := fun _ _ _ _ => trivial
  refine hany.bind fun (opcode, data) _ => ?_
  dsimp only
  split
  · next hlength =>
    have hpush : Yields (getPush 96) fun pop => pop.length = 96 := by
      refine yields_token fun _ data' pop haccept => ?_
      split at haccept
      · next hpop =>
        cases haccept
        exact hpop
      · cases haccept
    exact .skip <| hpush.bind fun pop hpop =>
      .skip <| hany.bind fun (opcode, data') _ =>
        stakeTail_spec.bind fun r hr =>
          yields_pure ⟨hr.2, hcsv.1, hcsv.2, .inr ⟨hlength, hpop⟩, hr.1⟩
  · exact stakeTail_spec.bind fun r hr =>
      yields_pure ⟨hr.2, hcsv.1, hcsv.2, .inl ⟨rfl, rfl⟩, hr.1⟩

theorem canonical_of_parsePayoutScript {p : CPubKey × PosPayoutPolicy}
    (hparse : parsePayoutScript script = some p) : p.1.isFullyValid = true ∧ p.2.Canonical := by
  have hactivation : Yields (token acceptActivation)
      fun activation => 0 < activation ∧ activation ≤ 0xffffffff := by
    refine yields_token fun _ _ activation haccept => ?_
    revert haccept
    fun_cases acceptActivation <;> rintro ⟨⟩
    omega
  have hmode : Yields (token acceptMode)
      fun mode => mode = .direct ∨ mode = .lottery ∨ mode = .split := by
    refine yields_token fun _ _ mode haccept => ?_
    revert haccept
    fun_cases acceptMode <;> rintro ⟨⟩ <;> simp
  have hparam : ∀ mode, Yields (token (acceptPayoutParam mode)) fun p =>
      mode = .direct ∧ p.1 ≠ [] ∧ p.1.length ≤ maxPayoutScriptSize ∧ p.2 = 0 ∨
        mode ≠ .direct ∧ p.1 = [] ∧ p.2 ≤ posCommissionDenom := by
    refine fun mode => yields_token fun _ data p haccept => ?_
    revert haccept
    fun_cases acceptPayoutParam <;> rintro ⟨⟩
    case case2 hdirect hsize =>
      rw [not_or, Nat.not_lt] at hsize
      exact .inl ⟨hdirect, hsize.1, hsize.2, rfl⟩
    case case5 hother _ _ hle => exact .inr ⟨hother, rfl, by omega⟩
  refine Yields.parse (P := fun p => p.1.isFullyValid = true ∧ p.2.Canonical) ?_ hparse
  refine .skip <| .skip <| ?_
  refine hactivation.bind fun activation hact => .skip <| ?_
  refine hmode.bind fun mode hm => .skip <| ?_
  refine (hparam mode).bind fun r hr => .skip <| ?_
  refine yields_getKey.bind fun signer hkey => .skip <| ?_
  refine yields_pure ⟨hkey, hact, ?_⟩
  rcases hr with ⟨hdirect, hscript⟩ | ⟨hother, hcommission⟩
  · exact .inl ⟨hdirect, hscript⟩
  · exact .inr ⟨hm.resolve_left hother, hcommission⟩

theorem canonical_of_acceptRound (haccept : acceptRound params rd = some round) :
    round.Canonical params := by
  have hbytes : ∀ start count : ℕ, leNat ((rd.drop start).take count) < 256 ^ count := by
    intro start count
    refine Nat.lt_of_lt_of_le (leNat_lt _) (Nat.pow_le_pow_right (by decide) ?_)
    exact length_take_le _ _
  simp only [acceptRound, ite_none_left_eq_some, Option.some.injEq, not_or, not_and, not_not,
    Nat.not_lt, Int.not_le, Bool.not_eq_true', Bool.not_eq_false] at haccept
  obtain ⟨-, hbuckets, hweight, hvalue, hlength, hpadding, rfl⟩ := haccept
  refine ⟨hbytes 0 4, ⟨hweight.1, hbytes 4 8, hweight.2⟩, hvalue, hbuckets, ?_, ?_⟩
  · simp only [decodeRound, length_drop, hlength, roundDataFixed]
    omega
  · by_cases hzero : (decodeRound rd).buckets % 8 = 0
    · exact .inl hzero
    · exact .inr (hpadding hzero)

theorem canonical_of_parseDelegationScript {d : CPubKey × CPubKey}
    (hparse : parseDelegationScript script = some d) :
    d.1.isFullyValid = true ∧ d.2.isFullyValid = true := by
  refine Yields.parse (P := fun d => d.1.isFullyValid = true ∧ d.2.isFullyValid = true) ?_ hparse
  refine .skip <| .skip <| ?_
  refine yields_getKey.bind fun signer hsigner => .skip <| ?_
  refine yields_getKey.bind fun controller hcontroller => .skip <| ?_
  exact yields_pure ⟨hcontroller, hsigner⟩

theorem canonical_of_parsePotScript (hparse : parsePotScript script = some signer) :
    signer.isFullyValid = true := by
  refine Yields.parse (P := fun key => key.isFullyValid = true) ?_ hparse
  refine .skip <| .skip <| ?_
  refine yields_getKey.bind fun signer hsigner => .skip <| ?_
  exact .skip <| yields_pure hsigner

theorem canonical_of_parseUnbondScript (hparse : parseUnbondScript script = some pubkey) :
    pubkey.isFullyValid = true := by
  refine Yields.parse (P := fun key => key.isFullyValid = true) ?_ hparse
  refine .skip <| .skip <| ?_
  refine yields_getKey.bind fun pubkey hkey => ?_
  exact .skip <| yields_pure hkey

theorem canonical_of_parseRoundScript {p : CPubKey × PosRound}
    (hparse : parseRoundScript params script = some p) :
    p.1.isFullyValid = true ∧ p.1.isCompressed = true ∧ p.2.Canonical params := by
  have hkey : Yields (token fun _ data => if data.length = 33 then acceptKey data else none)
      fun key => key.isFullyValid = true ∧ key.isCompressed = true := by
    refine yields_token fun _ data key haccept => ?_
    split at haccept
    · next hlength =>
      obtain ⟨hvalid, hvch⟩ := acceptKey_spec haccept
      refine ⟨hvalid, ?_⟩
      rw [CPubKey.isCompressed, hvch, hlength]
      rfl
    · cases haccept
  refine Yields.parse (P := fun p => p.1.isFullyValid = true ∧ p.1.isCompressed = true ∧
    p.2.Canonical params) ?_ hparse
  refine .skip <| .skip <| ?_
  refine hkey.bind fun signer hsigner => .skip <| ?_
  refine (yields_token fun _ _ _ haccept => canonical_of_acceptRound haccept).bind
    fun round hround => .skip <| ?_
  exact .skip <| yields_pure ⟨hsigner.1, hsigner.2, hround⟩

theorem RecordKind.canonical_of_parse (hparse : kind.parse params script = some r) :
    r.kind = kind ∧ r.Canonical params := by
  cases kind with
  | stake =>
    obtain ⟨s, hs, rfl⟩ := map_eq_some_iff.mp hparse
    exact ⟨rfl, canonical_of_parseStakeScriptFull hs⟩
  | delegation =>
    obtain ⟨d, hd, rfl⟩ := map_eq_some_iff.mp hparse
    exact ⟨rfl, canonical_of_parseDelegationScript hd⟩
  | payout =>
    obtain ⟨p, hp, rfl⟩ := map_eq_some_iff.mp hparse
    exact ⟨rfl, canonical_of_parsePayoutScript hp⟩
  | pot =>
    obtain ⟨p, hp, rfl⟩ := map_eq_some_iff.mp hparse
    exact ⟨rfl, canonical_of_parsePotScript hp⟩
  | round =>
    obtain ⟨p, hp, rfl⟩ := map_eq_some_iff.mp hparse
    exact ⟨rfl, canonical_of_parseRoundScript hp⟩
  | unbonding =>
    obtain ⟨p, hp, rfl⟩ := map_eq_some_iff.mp hparse
    exact ⟨rfl, canonical_of_parseUnbondScript hp⟩

theorem NumberToken.acceptLockNumber {size n : ℕ} (hpos : 0 < n)
    (htoken : NumberToken size n opcode data) :
    Sequentia.acceptLockNumber size opcode data = some (n : ℤ) := by
  cases htoken with
  | zero => cases hpos
  | small hop hn => rw [Sequentia.acceptLockNumber, if_pos hop, hn]
  | push hop hne hdata hlength hminimal hn =>
    have hrange : ¬ (op1 ≤ opcode ∧ opcode ≤ op16) := fun h =>
      absurd (UInt8.le_trans h.1 hop) (by decide)
    rw [Sequentia.acceptLockNumber, if_neg hrange, if_pos ⟨hdata, hlength⟩, if_pos hminimal, hn]

/-- The relative lock of a stake. -/
theorem reads_csv (hs : s.Canonical) : Reads (token acceptCsv) (pushInt64 s.csv) s.csv := by
  have hle : s.csv ≤ sequenceLocktimeTypeFlag ||| sequenceLocktimeMask := by
    rw [← hs.csvBits]
    exact Nat.and_le_right
  have hpos : 0 < s.csv := by
    refine Nat.pos_of_ne_zero fun hzero => hs.csvValue ?_
    rw [hzero, Nat.zero_and]
  refine reads_number 4 (Nat.lt_of_le_of_lt hle (by decide)) (by decide) (by decide)
    fun opcode data htoken => ?_
  rw [acceptCsv, htoken.acceptLockNumber hpos]
  simp only [Int.toNat_natCast, hs.csvBits, ne_eq, not_true_eq_false, if_false]
  rw [if_neg (by omega), if_neg hs.csvValue]

def stakeEnd (pubkey : CPubKey) (locktime : ℕ) : CScript :=
  (if (locktime : ℤ) > 0 then pushInt64 locktime ++ [opCheckLockTimeVerify] ++ [opDrop] else []) ++
    pushBytes pubkey.vch ++ [opCheckSig]

theorem stakeTail_stakeEnd {locktime : ℕ} (hkey : pubkey.isFullyValid = true)
    (hlocktime : locktime ≤ 0xffffffff) (rest : CScript) :
    ∃ opcode data pc, getScriptOp (stakeEnd pubkey locktime ++ rest) = some (opcode, data, pc) ∧
      data.length ≠ 48 ∧ stakeTail opcode data pc = some ((locktime, pubkey), rest) := by
  have hlength := CPubKey.length_of_isFullyValid hkey
  rcases Nat.eq_zero_or_pos locktime with rfl | hpos
  · obtain ⟨opcode, -, -, hop⟩ := getScriptOp_pushBytes
      (show pubkey.vch.length < 2 ^ 32 by omega) ([opCheckSig] ++ rest)
    have hcheck : getScriptOp ([opCheckSig] ++ rest) = some (opCheckSig, [], rest) :=
      getScriptOp_opcode (by decide) rest
    refine ⟨opcode, pubkey.vch, [opCheckSig] ++ rest, ?_, by omega, ?_⟩
    · rw [stakeEnd, if_neg (by decide), nil_append, append_assoc]
      exact hop
    · have hread : Reads (do
          expectOp opCheckSig
          pure (0, pubkey) : ScriptReader (ℕ × CPubKey)) [opCheckSig] (0, pubkey) :=
        Reads.lastOp
      simp only [stakeTail, hcheck, acceptKey_vch hkey]
      rw [if_neg (by decide)]
      exact hread rest
  · have hlt : locktime < 128 * 256 ^ (5 - 1) := by omega
    obtain ⟨opcode, data, hop, htoken⟩ := getScriptOp_pushInt64 hlt (by decide) (by decide)
      ([opCheckLockTimeVerify] ++ ([opDrop] ++ (pushBytes pubkey.vch ++ [opCheckSig])) ++ rest)
    have hcheck := getScriptOp_opcode (show ¬ opCheckLockTimeVerify ≤ opPushData4 by decide)
      ([opDrop] ++ (pushBytes pubkey.vch ++ [opCheckSig]) ++ rest)
    refine ⟨opcode, data, [opCheckLockTimeVerify] ++
      ([opDrop] ++ (pushBytes pubkey.vch ++ [opCheckSig])) ++ rest, ?_, ?_, ?_⟩
    · rw [stakeEnd, if_pos (by omega)]
      simpa only [append_assoc] using hop
    · cases htoken with
      | zero => cases hpos
      | small => decide
      | push hop hne hdata hlength => omega
    · have haccept : acceptLocktime opcode data = some locktime := by
        rw [acceptLocktime, htoken.acceptLockNumber hpos]
        simp only [Int.toNat_natCast]
        rw [if_neg (by omega)]
      have hread : Reads (do
          expectOp opDrop
          let pubkey ← getKey
          expectOp opCheckSig
          pure (locktime, pubkey) : ScriptReader (ℕ × CPubKey))
          ([opDrop] ++ (pushBytes pubkey.vch ++ [opCheckSig])) (locktime, pubkey) :=
        Reads.op <| (reads_getKey hkey).bind
          Reads.lastOp
      rw [append_assoc, singleton_append, stakeTail, hcheck]
      simp only [haccept, if_true]
      exact hread rest

theorem parseStakeScriptFull_build (hs : s.Canonical) :
    parseStakeScriptFull (PosRecord.stake s).build = some s := by
  have hend : ∀ f : ℕ → CPubKey → ParsedStake, Reads (do
      let op ← getOp
      let tail ← stakeTail op.1 op.2
      pure (f tail.1 tail.2)) (stakeEnd s.pubkey s.liquidLocktime)
      (f s.liquidLocktime s.pubkey) := by
    intro f rest
    obtain ⟨opcode, data, pc, hop, -, htail⟩ := stakeTail_stakeEnd hs.pubkey hs.locktime rest
    exact bind_eq_some_iff.mpr ⟨_, getOp_of_getScriptOp hop,
      bind_eq_some_iff.mpr ⟨_, htail, rfl⟩⟩
  have hbody : Reads (stakeBody s.csv)
      ((if !s.blsPubkey.isEmpty || !s.blsPop.isEmpty then
        pushBytes s.blsPubkey ++ [opDrop] ++ pushBytes s.blsPop ++ [opDrop] else []) ++
        stakeEnd s.pubkey s.liquidLocktime) s := by
    rcases hs.bls with ⟨hnokey, hnopop⟩ | ⟨hkey, hpop⟩
    · intro rest
      obtain ⟨opcode, data, pc, hop, hlength, htail⟩ :=
        stakeTail_stakeEnd hs.pubkey hs.locktime rest
      rw [hnokey, hnopop]
      refine bind_eq_some_iff.mpr ⟨_, getOp_of_getScriptOp hop, ?_⟩
      dsimp only
      rw [if_neg hlength]
      refine bind_eq_some_iff.mpr ⟨_, htail, ?_⟩
      obtain ⟨pubkey, csv, blsPubkey, blsPop, locktime⟩ := s
      cases hnokey
      cases hnopop
      rfl
    · have hpush : Reads (getPush 96) (pushBytes s.blsPop) s.blsPop :=
        reads_push (by omega) (if_pos hpop)
      have hrest : Reads (do
          expectOp opDrop
          let pop ← getPush 96
          expectOp opDrop
          let op ← getOp
          let tail ← stakeTail op.1 op.2
          pure ⟨tail.2, s.csv, s.blsPubkey, pop, tail.1⟩ : ScriptReader ParsedStake)
          ([opDrop] ++ (pushBytes s.blsPop ++ ([opDrop] ++ stakeEnd s.pubkey s.liquidLocktime)))
          s :=
        Reads.op <| hpush.bind <| Reads.op <|
          hend fun locktime pubkey => ⟨pubkey, s.csv, s.blsPubkey, s.blsPop, locktime⟩
      have hlength : s.blsPubkey.length < 2 ^ 32 := by omega
      have hpresent : (!s.blsPubkey.isEmpty || !s.blsPop.isEmpty) = true := by
        cases hcase : s.blsPubkey with
        | nil => rw [hcase] at hkey; cases hkey
        | cons b bs => rfl
      rw [if_pos hpresent]
      intro rest
      obtain ⟨opcode, -, -, hop⟩ := getScriptOp_pushBytes hlength
        ([opDrop] ++ (pushBytes s.blsPop ++ ([opDrop] ++ stakeEnd s.pubkey s.liquidLocktime)) ++
          rest)
      have hget := getOp_of_getScriptOp hop
      simp only [append_assoc] at hget ⊢
      refine bind_eq_some_iff.mpr ⟨_, hget, ?_⟩
      dsimp only
      rw [if_pos hkey]
      have hdone := hrest rest
      simpa only [append_assoc] using hdone
  refine ((reads_csv hs).bind <| Reads.op <| Reads.op hbody).parse ?_
  simp only [PosRecord.build, buildStakeScript, stakeEnd, append_assoc]

theorem parsePayoutScript_build {policy : PosPayoutPolicy} (hkey : signer.isFullyValid = true)
    (hpolicy : policy.Canonical) :
    parsePayoutScript (buildPayoutScript signer policy) = some (signer, policy) := by
  obtain ⟨mode, activation, payoutScript, commissionBp⟩ := policy
  obtain ⟨⟨hpos, hle⟩, hparam⟩ := hpolicy
  dsimp only at hpos hle hparam
  have hactivation : Reads (token acceptActivation) (pushInt64 activation) activation := by
    refine reads_number 5 (by omega) (by decide) (by decide) fun opcode data htoken => ?_
    rw [acceptActivation, htoken.readScriptNumToken]
    simp only [Int.toNat_natCast]
    rw [if_neg (by omega)]
  have hmode : Reads (token acceptMode) (pushInt64 mode.toNat) mode := by
    refine reads_number 1 (by cases mode <;> decide) (by decide) (by decide)
      fun opcode data htoken => ?_
    rw [acceptMode, htoken.readScriptNumToken]
    rcases hparam with ⟨rfl, -⟩ | ⟨rfl | rfl, -⟩ <;> rfl
  have hparam : Reads (token (acceptPayoutParam mode))
      (if mode = .direct then pushBytes payoutScript else pushInt64 commissionBp)
      (payoutScript, commissionBp) := by
    rcases hparam with ⟨hdirect, hne, hsize, rfl⟩ | ⟨hother, rfl, hbound⟩
    · rw [if_pos hdirect]
      have hlength : payoutScript.length < 2 ^ 32 := Nat.lt_of_le_of_lt hsize (by decide)
      refine reads_token fun rest => ?_
      obtain ⟨opcode, -, -, hop⟩ := getScriptOp_pushBytes hlength rest
      refine ⟨opcode, payoutScript, hop, ?_⟩
      rw [acceptPayoutParam, if_pos hdirect, if_neg]
      rw [not_or, Nat.not_lt]
      exact ⟨hne, hsize⟩
    · have hnot : mode ≠ .direct := by
        rcases hother with rfl | rfl <;> decide
      rw [if_neg hnot]
      have hlt : commissionBp < 128 * 256 ^ (3 - 1) := Nat.lt_of_le_of_lt hbound (by decide)
      refine reads_number 3 hlt (by decide) (by decide) fun opcode data htoken => ?_
      rw [acceptPayoutParam, if_neg hnot, htoken.readScriptNumToken]
      simp only [Int.toNat_natCast]
      rw [if_neg (by omega)]
  refine (Reads.marker <| Reads.op <| hactivation.bind <|
    Reads.op <| hmode.bind <| Reads.op <| hparam.bind <|
      Reads.op <| (reads_getKey hkey).bind Reads.lastOp).parse ?_
  simp only [buildPayoutScript, append_assoc]

theorem parseDelegationScript_build {controller : CPubKey}
    (hcontroller : controller.isFullyValid = true) (hsigner : signer.isFullyValid = true) :
    parseDelegationScript (buildDelegationScript controller signer) =
      some (controller, signer) := by
  refine (Reads.marker <| Reads.op <| (reads_getKey hsigner).bind <|
    Reads.op <| (reads_getKey hcontroller).bind Reads.lastOp).parse ?_
  simp only [buildDelegationScript, append_assoc]

theorem parsePotScript_build (hsigner : signer.isFullyValid = true) :
    parsePotScript (buildPotScript signer) = some signer := by
  refine (Reads.marker <| Reads.op <| (reads_getKey hsigner).bind <|
    Reads.op Reads.lastOp).parse ?_
  simp only [buildPotScript, append_assoc]

/-- An unbonding output is read back. -/
theorem parseUnbondScript_build (hkey : pubkey.isFullyValid = true) :
    parseUnbondScript (buildUnbondScript pubkey) = some pubkey := by
  refine (Reads.marker <| Reads.op <|
    (reads_getKey hkey).bind Reads.lastOp).parse ?_
  simp only [buildUnbondScript, append_assoc]

def roundData (round : PosRound) : Bytes :=
  leBytes 4 round.epoch ++ leBytes 8 round.weight ++ leBytes 8 round.signerWeight ++
    leBytes 8 (round.distributable % 2 ^ 64).toNat ++ leBytes 2 round.buckets ++
    beBytes 32 round.salt.val.toNat ++ round.paid

theorem round_fields {a b c d e f g : Bytes} (ha : a.length = 4) (hb : b.length = 8)
    (hc : c.length = 8) (hd : d.length = 8) (he : e.length = 2) (hf : f.length = 32)
    (hrd : rd = a ++ b ++ c ++ d ++ e ++ f ++ g) :
    rd.take 4 = a ∧ (rd.drop 4).take 8 = b ∧ (rd.drop 12).take 8 = c ∧ (rd.drop 20).take 8 = d ∧
      (rd.drop 28).take 2 = e ∧ (rd.drop 30).take 32 = f ∧ rd.drop 62 = g := by
  have hdrop : ∀ (x y : Bytes) (i : ℕ), x.length ≤ i → (x ++ y).drop i = y.drop (i - x.length) := by
    intro x y i hle
    rw [drop_append, drop_eq_nil_of_le hle, nil_append]
  subst hrd
  simp only [append_assoc]
  simp (disch := omega) only [hdrop, ha, hb, hc, hd, he, hf, Nat.reduceSub, drop_zero]
  exact ⟨take_left' ha, take_left' hb, take_left' hc, take_left' hd,
    take_left' he, take_left' hf, trivial⟩

theorem decodeRound_roundData (hround : round.Canonical params) :
    decodeRound (roundData round) = round := by
  obtain ⟨hepoch, ⟨-, hweight, hsigner⟩, ⟨hpos, hmoney⟩, ⟨-, hbuckets, -⟩, -, -⟩ := hround
  obtain ⟨epoch, weight, signerWeight, distributable, buckets, salt, paid⟩ := round
  dsimp only at hepoch hweight hsigner hpos hmoney hbuckets
  have hmax : distributable < 2 ^ 63 := by
    simp only [Params.moneyRange, Bool.and_eq_true, decide_eq_true_eq] at hmoney
    exact Int.lt_of_le_of_lt hmoney.2 params.maxMoney_lt
  have hbe : (beBytes 32 salt.val.toNat).length = 32 := by
    rw [beBytes, length_reverse, length_leBytes]
  obtain ⟨h1, h2, h3, h4, h5, h6, h7⟩ := round_fields (g := paid) (length_leBytes 4 epoch)
    (length_leBytes 8 weight) (length_leBytes 8 signerWeight)
    (length_leBytes 8 (distributable % 2 ^ 64).toNat) (length_leBytes 2 buckets) hbe rfl
  have hread : ∀ size v, v < 256 ^ size → leNat (leBytes size v) = v := fun size v hlt => by
    rw [leNat_leBytes, Nat.mod_eq_of_lt hlt]
  have hvalue : leNat (leBytes 8 (distributable % 2 ^ 64).toNat) = distributable.toNat := by
    rw [hread 8 _ (by omega), Int.emod_eq_of_lt (Int.le_of_lt hpos) (by omega)]
  have hlt : buckets < 256 ^ 2 := Nat.lt_of_le_of_lt hbuckets (by decide)
  simp only [decodeRound, roundData, h1, h2, h3, h4, h5, h6, h7, hvalue, PosRound.mk.injEq,
    and_true]
  refine ⟨hread 4 epoch (by omega), hread 8 weight (by omega), hread 8 signerWeight (by omega), ?_,
    hread 2 buckets hlt, Uint256.ofBytes_bytes salt⟩
  rw [if_pos (by omega)]
  omega

theorem parseRoundScript_build (hkey : signer.isFullyValid = true)
    (hcompressed : signer.isCompressed = true) (hround : round.Canonical params) :
    parseRoundScript params (buildRoundScript signer round) = some (signer, round) := by
  have hlength : (roundData round).length = roundDataFixed + (round.buckets + 7) / 8 := by
    simp only [roundData, length_append, length_leBytes, beBytes, length_reverse,
      hround.paid, roundDataFixed]
  have haccept : acceptRound params (roundData round) = some round := by
    have hweight := hround.weight
    have hvalue := hround.distributable
    have hbuckets := hround.buckets
    have hpad : ¬ (round.buckets % 8 ≠ 0 ∧
        (round.paid.getLastD 0).toNat >>> (round.buckets % 8) ≠ 0) := by
      rintro ⟨hodd, hset⟩
      exact hround.padding.elim hodd hset
    unfold acceptRound
    rw [decodeRound_roundData hround, hlength]
    dsimp only
    have hcount : ¬ (round.buckets = 0 ∨ posRoundMaxBuckets < round.buckets ∨
        round.buckets &&& (round.buckets - 1) ≠ 0) := by
      rw [not_or, not_or, Nat.not_lt, not_not]
      exact hbuckets
    have hmoney : ¬ (round.distributable ≤ 0 ∨
        (!params.moneyRange round.distributable) = true) := by
      rw [hvalue.2, not_or, Int.not_le]
      exact ⟨hvalue.1, by decide⟩
    rw [if_neg (by omega), if_neg hcount, if_neg (by omega), if_neg hmoney,
      if_neg (not_not.mpr rfl), if_neg hpad]
  have hkeyRead : Reads (token fun _ data => if data.length = 33 then acceptKey data else none)
      (pushBytes signer.vch) signer := by
    have h33 : signer.vch.length = 33 := by simpa [CPubKey.isCompressed] using hcompressed
    refine reads_push (by omega) ?_
    rw [if_pos h33, acceptKey_vch hkey]
  have hsmall : (roundData round).length < 2 ^ 32 := by
    have := hround.buckets.2.1
    rw [hlength]
    simp only [roundDataFixed, posRoundMaxBuckets] at this ⊢
    omega
  refine (Reads.marker <| Reads.op <| hkeyRead.bind <| Reads.op <|
    (reads_push hsmall haccept).bind <| Reads.op Reads.lastOp).parse ?_
  simp only [buildRoundScript, roundData, append_assoc]

theorem PosRecord.parse_build (hr : r.Canonical params) : r.kind.parse params r.build = some r := by
  cases r with
  | stake s => exact map_eq_some_iff.mpr ⟨_, parseStakeScriptFull_build hr, rfl⟩
  | delegation controller signer =>
    exact map_eq_some_iff.mpr ⟨_, parseDelegationScript_build hr.1 hr.2, rfl⟩
  | payout signer policy =>
    exact map_eq_some_iff.mpr ⟨_, parsePayoutScript_build hr.1 hr.2, rfl⟩
  | pot signer => exact map_eq_some_iff.mpr ⟨_, parsePotScript_build hr, rfl⟩
  | round signer round =>
    exact map_eq_some_iff.mpr ⟨_, parseRoundScript_build hr.1 hr.2.1 hr.2.2, rfl⟩
  | unbonding pubkey => exact map_eq_some_iff.mpr ⟨_, parseUnbondScript_build hr, rfl⟩

/-- At most one parser accepts a script, and the records that are read back from the script that is
built for them are exactly the canonical ones. -/
theorem record_scripts_exact (params : Params) :
    (∀ script kind kind', (RecordKind.parse params kind script).isSome = true →
      (RecordKind.parse params kind' script).isSome = true → kind = kind') ∧
    ∀ r : PosRecord, r.kind.parse params r.build = some r ↔ r.Canonical params := by
  refine ⟨fun script kind kind' hkind hkind' => ?_, fun r => ⟨fun hparse => ?_, fun hr => ?_⟩⟩
  · obtain ⟨r, hr⟩ := isSome_iff_exists.mp hkind
    obtain ⟨r', hr'⟩ := isSome_iff_exists.mp hkind'
    exact RecordKind.eq_of_parse hr hr'
  · exact (RecordKind.canonical_of_parse hparse).2
  · exact PosRecord.parse_build hr

/-- A delegation of a key to itself is read back. -/
theorem record_scripts_delegation :
    (PosRecord.delegation sampleController sampleController).kind.parse sampleParams
      (PosRecord.delegation sampleController sampleController).build =
        some (.delegation sampleController sampleController) := by
  have hvalid : sampleController.isFullyValid = true := by decide +kernel
  exact ((record_scripts_exact sampleParams).2 _).mpr ⟨hvalid, hvalid⟩

/-- The base point of the curve as an uncompressed key. -/
def uncompressedController : CPubKey :=
  ⟨4 :: (beBytes 32 0x79be667ef9dcbbac55a06295ce870b07029bfcdb2dce28d959f2815b16f81798 ++
    beBytes 32 0x483ada7726a3c4655da4fbfc0e1108a8fd17b448a68554199c47d08ffb10d4b8)⟩

def oneBucket : PosRound where
  epoch := 1
  weight := 1000
  signerWeight := 10
  distributable := 5000
  buckets := 1
  salt := 7
  paid := [0]

/-- The round of a compressed key is read back. -/
example : RecordKind.parse sampleParams .round (PosRecord.round sampleController oneBucket).build =
    some (.round sampleController oneBucket) := by
  decide +kernel

/-- The key is fully valid and the round is canonical, and the pot of the key is accepted; but the
round that is built for it is no record of any kind. -/
theorem round_of_uncompressed_key :
    uncompressedController.isFullyValid = true ∧ oneBucket.Canonical sampleParams ∧
      RecordKind.parse sampleParams .pot (PosRecord.pot uncompressedController).build =
        some (.pot uncompressedController) ∧
      ∀ kind, RecordKind.parse sampleParams kind
        (PosRecord.round uncompressedController oneBucket).build = none := by
  refine ⟨by decide +kernel, ⟨by decide, by decide, by decide, by decide, rfl, by decide⟩,
    by decide +kernel, fun kind => ?_⟩
  cases kind <;> decide +kernel

end Sequentia
