import Sequentia.Stake.RuleFacts
import Sequentia.Stake.Spendable
import Sequentia.Stake.TxRecords

/-!
# Transactions judged in turn make a block

What a list of transactions has done to the records, as the record checker keeps it, is what
the passes of `ConnectBlock` over the whole block find. So a block whose transactions were
accepted in turn passes the rules for records.
-/

namespace Sequentia

open Std KeyedMap Checks List

/-- The slot of the payout record in an output, recognised or not. -/
def payoutSlot (out : CTxOut) : Option (CPubKey × ℕ) :=
  (payoutFromTxOut out).map fun p => (p.1, p.2.activation)

/-- The output is a delegation or payout record. -/
def isRecord (out : CTxOut) : Prop :=
  (delegationFromTxOut out).isSome ∨ (payoutFromTxOut out).isSome

def isRuledRecord (params : Params) (height : ℕ) (out : CTxOut) : Prop :=
  (delegKey out).isSome ∨ (payoutKey params height out).isSome

variable {params : Params} {crypto : Crypto} {registry : StakeRegistry} {height : ℕ}

structure SpentCoins (params : Params) (registry : StakeRegistry) (height : ℕ)
    (st st' : PosRecordState) (coins : List Coin) : Prop where
  frame : st' = { st with
    spentDelegations := st'.spentDelegations
    spentPayouts := st'.spentPayouts
    spentRecordScripts := st'.spentRecordScripts }
  delegations : ∀ k, k ∈ st'.spentDelegations ↔
    k ∈ st.spentDelegations ∨ ∃ coin ∈ coins, delegKey coin.out = some k
  payouts : ∀ k, k ∈ st'.spentPayouts ↔
    k ∈ st.spentPayouts ∨ ∃ coin ∈ coins, payoutSlot coin.out = some k
  scripts : ∀ s, s ∈ st'.spentRecordScripts ↔
    s ∈ st.spentRecordScripts ∨ ∃ coin ∈ coins, isRecord coin.out ∧ coin.out.scriptPubKey = s
  hardening : params.posHardeningActiveAt height = true → ∀ coin ∈ coins,
    (isRecord coin.out → coin.out.scriptPubKey ∉ st.createdRecordScripts) ∧
      ∀ p, payoutFromTxOut coin.out = some p → posPayoutInForce registry p.1 p.2 height = false

/-- The scripts that a spent coin adds. -/
def recordScripts (out : CTxOut) : List CScript :=
  ((payoutSlot out).map fun _ => out.scriptPubKey).toList ++
    ((delegKey out).map fun _ => out.scriptPubKey).toList

variable {out : CTxOut} {st st' : PosRecordState} {spent : List Coin}
  {txs : List (CTransaction × List Coin)}

theorem mem_recordScripts {s : CScript} :
    s ∈ recordScripts out ↔ isRecord out ∧ out.scriptPubKey = s := by
  cases hdeleg : delegationFromTxOut out <;> cases hpayout : payoutFromTxOut out <;>
    simp [recordScripts, isRecord, delegKey, payoutSlot, hdeleg, hpayout, eq_comm]

theorem spendCoin_ok {coin : Coin} (hok : st.spendCoin params registry height coin = .ok st') :
    st' = { st with
        spentDelegations := (delegKey coin.out).toList ++ st.spentDelegations
        spentPayouts := (payoutSlot coin.out).toList ++ st.spentPayouts
        spentRecordScripts := recordScripts coin.out ++ st.spentRecordScripts } ∧
      (params.posHardeningActiveAt height = true →
        (isRecord coin.out → coin.out.scriptPubKey ∉ st.createdRecordScripts) ∧
          ∀ p, payoutFromTxOut coin.out = some p →
            posPayoutInForce registry p.1 p.2 height = false) := by
  unfold PosRecordState.spendCoin at hok
  obtain ⟨hfresh, hok⟩ := ite_error_eq_ok.mp hok
  have hnew : params.posHardeningActiveAt height = true → isRecord coin.out →
      coin.out.scriptPubKey ∉ st.createdRecordScripts := by
    intro hactive hrecord hmem
    refine hfresh ?_
    rw [hactive, Bool.true_and, contains_iff_mem.mpr hmem, Bool.and_true]
    simpa [isRecord] using hrecord
  cases hpayout : payoutFromTxOut coin.out with
  | none =>
    cases hdeleg : delegationFromTxOut coin.out <;>
      simp only [hdeleg, hpayout, Except.ok.injEq] at hok <;>
      refine ⟨?_, fun hactive => ⟨hnew hactive, by simp⟩⟩ <;>
      simp [← hok, delegKey, payoutSlot, recordScripts, hdeleg, hpayout]
  | some p =>
    cases hdeleg : delegationFromTxOut coin.out <;>
      simp only [hdeleg, hpayout, ite_error_eq_ok, Except.ok.injEq] at hok <;>
      refine ⟨?_, fun hactive => ⟨hnew hactive, fun q hq => ?_⟩⟩
    · simp [← hok.2, delegKey, payoutSlot, recordScripts, hdeleg, hpayout]
    · cases hq
      simpa [hactive] using hok.1
    · simp [← hok.2, delegKey, payoutSlot, recordScripts, hdeleg, hpayout]
    · cases hq
      simpa [hactive] using hok.1

theorem spentCoins_of_foldlM {coins : List Coin}
    (hrun : coins.foldlM (PosRecordState.spendCoin params registry height) st = .ok st') :
    SpentCoins params registry height st st' coins := by
  refine foldlM_induction (fun done s => SpentCoins params registry height st s done) ?_
    ⟨rfl, by simp, by simp, by simp, by simp⟩ hrun
  intro done s coin s' hdone hstep
  obtain ⟨rfl, hhardening⟩ := spendCoin_ok hstep
  have hcreated : s.createdRecordScripts = st.createdRecordScripts := by rw [hdone.frame]
  refine ⟨by rw [hdone.frame], fun k => ?_, fun k => ?_, fun script => ?_, fun hactive c hc => ?_⟩
  · simp only [mem_append, Option.mem_toList, hdone.delegations, mem_singleton,
      or_and_right, exists_or, exists_eq_left]
    exact or_comm.trans or_assoc
  · simp only [mem_append, Option.mem_toList, hdone.payouts, mem_singleton,
      or_and_right, exists_or, exists_eq_left]
    exact or_comm.trans or_assoc
  · simp only [mem_append, mem_recordScripts, hdone.scripts, mem_singleton,
      or_and_right, exists_or, exists_eq_left]
    exact or_comm.trans or_assoc
  · rcases mem_append.mp hc with hc | hc
    · exact hdone.hardening hactive c hc
    · rw [mem_singleton.mp hc, ← hcreated]
      exact hhardening hactive

theorem createDelegation_ok
    (hok : st.createDelegation params crypto registry height spent out = .ok st') :
    checkDelegOutput registry st.spentDelegations st.createdDelegations out =
        .ok st'.createdDelegations ∧
      st' = { st with
        createdDelegations := st'.createdDelegations
        createdRecordScripts := ((delegKey out).map fun _ => out.scriptPubKey).toList ++
          st.createdRecordScripts } ∧
      (params.posHardeningActiveAt height = true → ∀ controller signer,
        delegationFromTxOut out = some (controller, signer) →
          out.scriptPubKey ∉ st.spentRecordScripts ∧ controller ≠ signer ∧
            posTxSpendsKey crypto controller spent = true) := by
  unfold PosRecordState.createDelegation at hok
  unfold checkDelegOutput delegKey
  cases hdeleg : delegationFromTxOut out with
  | none =>
    simp only [hdeleg, Except.ok.injEq] at hok
    subst hok
    simp
  | some deleg =>
    obtain ⟨controller, signer⟩ := deleg
    simp only [hdeleg, ite_error_eq_ok, Except.ok.injEq] at hok
    obtain ⟨hscript, hself, hauthorized, hconflict, hexists, rfl⟩ := hok
    refine ⟨by simp only [if_neg hconflict, if_neg hexists], rfl, fun hactive c t heq => ?_⟩
    cases heq
    rw [hactive] at hscript hself hauthorized
    exact ⟨by simpa using hscript, by simpa using hself, by simpa using hauthorized⟩

theorem createPayout_ok {signer : CPubKey} {policy : PosPayoutPolicy}
    (hpayout : payoutFromTxOut out = some (signer, policy))
    (hruled : inertSplit params height policy = false)
    (hok : st.createPayout params crypto registry height spent out.scriptPubKey signer policy =
      .ok st') :
    checkPayoutOutput params registry st.spentPayouts height st.createdPayouts out =
        .ok st'.createdPayouts ∧
      st' = { st with
        createdPayouts := st'.createdPayouts
        createdRecordScripts := out.scriptPubKey :: st.createdRecordScripts } ∧
      (params.posHardeningActiveAt height = true →
        out.scriptPubKey ∉ st.spentRecordScripts ∧ posTxSpendsKey crypto signer spent = true) := by
  unfold PosRecordState.createPayout at hok
  simp only [ite_error_eq_ok, Except.ok.injEq] at hok
  obtain ⟨hscript, hauthorized, hnotice, hconflict, hexists, rfl⟩ := hok
  refine ⟨?_, rfl, fun hactive => ?_⟩
  · unfold checkPayoutOutput
    simp only [hpayout, hruled, Bool.false_eq_true, if_false, if_neg hnotice, if_neg hconflict,
      if_neg hexists]
  · rw [hactive] at hscript hauthorized
    exact ⟨by simpa using hscript, by simpa using hauthorized⟩

theorem registerKey_ok (hok : st.registerKey params crypto registry out = .ok st') :
    st' = { st with blsKeys := st'.blsKeys } ∧ (params.posPublicCommittee = true →
      checkBlsOutput params crypto registry st.blsKeys out = .ok st'.blsKeys) := by
  unfold PosRecordState.registerKey at hok
  split at hok
  · next hcommittee =>
    cases hok
    exact ⟨rfl, fun h => by simp [h] at hcommittee⟩
  · split at hok
    · next stake full hstake hfull =>
      unfold checkBlsOutput
      rw [hstake, hfull]
      by_cases hempty : full.blsPubkey.isEmpty = true
      · simp only [hempty, if_true, Except.ok.injEq] at hok ⊢
        subst hok
        exact ⟨rfl, fun _ => rfl⟩
      · simp only [hempty, Bool.false_eq_true, if_false, ite_error_eq_ok, Except.ok.injEq] at hok ⊢
        obtain ⟨hexisting, hseen, hpossession, rfl⟩ := hok
        exact ⟨rfl, fun _ => ⟨hpossession, hexisting, hseen, rfl⟩⟩
    · next hnone =>
      cases hok
      refine ⟨rfl, fun _ => ?_⟩
      unfold checkBlsOutput
      split
      · next stake full hstake hfull => exact (hnone stake full hstake hfull).elim
      · rfl

open ScriptReader in
theorem stakeFromTxOut_of_payout {p : CPubKey × PosPayoutPolicy}
    (hpayout : payoutFromTxOut out = some p) : stakeFromTxOut params out = none := by
  obtain ⟨opcode, pc, hop⟩ := getScriptOp_of_parse hpayout
  cases hstake : stakeFromTxOut params out with
  | none => rfl
  | some stake =>
    obtain ⟨full, hfull, -⟩ := pubkey_of_stakeFromTxOut hstake
    obtain ⟨⟨csv, pc'⟩, hfirst, -⟩ := Option.bind_eq_some_iff.mp (read_of_parse hfull)
    obtain ⟨opcode', data, hop', haccept⟩ := token_eq_some hfirst
    obtain ⟨rfl, rfl, -⟩ : opcode = opcode' ∧ payoutMarker = data ∧ pc = pc' := by
      simpa using hop.symm.trans hop'
    have hlength := length_of_acceptCsv haccept (head_getScriptOp hop).2
    exact absurd hlength (by decide)

structure CreatedOutputs (params : Params) (crypto : Crypto) (registry : StakeRegistry)
    (height : ℕ) (spent : List Coin) (st st' : PosRecordState) (outs : List CTxOut) : Prop where
  frame : st' = { st with
    createdDelegations := st'.createdDelegations
    createdPayouts := st'.createdPayouts
    blsKeys := st'.blsKeys
    createdRecordScripts := st'.createdRecordScripts }
  delegations : outs.foldlM (checkDelegOutput registry st.spentDelegations)
    st.createdDelegations = .ok st'.createdDelegations
  payouts : outs.foldlM (checkPayoutOutput params registry st.spentPayouts height)
    st.createdPayouts = .ok st'.createdPayouts
  bls : params.posPublicCommittee = true →
    outs.foldlM (checkBlsOutput params crypto registry) st.blsKeys = .ok st'.blsKeys
  scripts : ∀ s, s ∈ st'.createdRecordScripts ↔ s ∈ st.createdRecordScripts ∨
    ∃ out ∈ outs, isRuledRecord params height out ∧ out.scriptPubKey = s
  hardening : params.posHardeningActiveAt height = true → ∀ out ∈ outs,
    checkRecordOutput params crypto height st.spentRecordScripts spent out = .ok ()

/-- An output passes the hardening rules if it binds no weight to an uncompressed key, and if its
record is new, authorised and not a delegation of a key to itself. -/
theorem checkRecordOutput_of {scripts : List CScript}
    (hkey : posOutputWeightsUncompressedKey params out = false)
    (hdeleg : ∀ controller signer, delegationFromTxOut out = some (controller, signer) →
      out.scriptPubKey ∉ scripts ∧ controller ≠ signer ∧
        posTxSpendsKey crypto controller spent = true)
    (hpayout : delegationFromTxOut out = none → ∀ signer policy,
      payoutFromTxOut out = some (signer, policy) → inertSplit params height policy = false →
        out.scriptPubKey ∉ scripts ∧ posTxSpendsKey crypto signer spent = true) :
    checkRecordOutput params crypto height scripts spent out = .ok () := by
  unfold checkRecordOutput checkRecordScript
  rw [hkey, if_neg Bool.false_ne_true]
  split
  · next controller signer heq =>
    obtain ⟨hscript, hself, hauthorized⟩ := hdeleg controller signer heq
    rw [if_neg fun h => hself h.2, if_neg hscript, hauthorized, Bool.not_true,
      if_neg Bool.false_ne_true]
  · next hnone =>
    split
    · rfl
    · next signer policy heq =>
      cases hinert : inertSplit params height policy with
      | true => rfl
      | false =>
        obtain ⟨hscript, hauthorized⟩ := hpayout hnone signer policy heq hinert
        rw [if_neg Bool.false_ne_true, if_neg hscript, hauthorized, Bool.not_true,
          if_neg Bool.false_ne_true]

theorem createPolicy_ok (hok : st.createPolicy params crypto registry height spent out = .ok st') :
    checkPayoutOutput params registry st.spentPayouts height st.createdPayouts out =
        .ok st'.createdPayouts ∧
      (params.posPublicCommittee = true →
        checkBlsOutput params crypto registry st.blsKeys out = .ok st'.blsKeys) ∧
      st' = { st with
        createdPayouts := st'.createdPayouts
        blsKeys := st'.blsKeys
        createdRecordScripts := ((payoutKey params height out).map fun _ =>
          out.scriptPubKey).toList ++ st.createdRecordScripts } ∧
      (params.posHardeningActiveAt height = true → ∀ signer policy,
        payoutFromTxOut out = some (signer, policy) → inertSplit params height policy = false →
          out.scriptPubKey ∉ st.spentRecordScripts ∧
            posTxSpendsKey crypto signer spent = true) := by
  unfold PosRecordState.createPolicy at hok
  cases hpayout : payoutFromTxOut out with
  | none =>
    rw [hpayout] at hok
    obtain ⟨hst', hbls⟩ := registerKey_ok hok
    refine ⟨?_, hbls, ?_, by simp⟩
    · rw [checkPayoutOutput, hpayout, hst']
    · rw [hst']
      simp [payoutKey, hpayout]
  | some p =>
    obtain ⟨signer, policy⟩ := p
    rw [hpayout] at hok
    cases hinert : inertSplit params height policy with
    | true =>
      simp only [hinert, if_true, Except.ok.injEq] at hok
      subst hok
      refine ⟨?_, fun _ => ?_, ?_, fun _ s q heq hruled => ?_⟩
      · simp [checkPayoutOutput, hpayout, hinert]
      · simp [checkBlsOutput, stakeFromTxOut_of_payout hpayout]
      · simp [payoutKey, hpayout, hinert]
      · cases heq
        rw [hinert] at hruled
        cases hruled
    | false =>
      simp only [hinert, Bool.false_eq_true, if_false] at hok
      obtain ⟨st₁, hcreate, hregister⟩ := bind_eq_ok.mp hok
      obtain ⟨hcheck, hst₁, hauthorized⟩ := createPayout_ok hpayout hinert hcreate
      obtain ⟨hst', hbls⟩ := registerKey_ok hregister
      refine ⟨?_, fun hcommittee => ?_, ?_, fun hactive s q heq _ => ?_⟩
      · rw [hcheck, hst']
      · have := hbls hcommittee
        rwa [hst₁] at this
      · rw [hst', hst₁]
        simp [payoutKey, hpayout, hinert]
      · cases heq
        exact hauthorized hactive

theorem createOutput_ok (hok : st.createOutput params crypto registry height spent out = .ok st') :
    CreatedOutputs params crypto registry height spent st st' [out] := by
  unfold PosRecordState.createOutput at hok
  obtain ⟨hkey, hok⟩ := ite_error_eq_ok.mp hok
  obtain ⟨st₁, hdelegation, hok⟩ := bind_eq_ok.mp hok
  obtain ⟨hdeleg, hst₁, hauthorized⟩ := createDelegation_ok hdelegation
  obtain ⟨hpayout, hbls, hst', hauthorized'⟩ := createPolicy_ok hok
  rw [hst₁] at hpayout hbls hst' hauthorized'
  refine ⟨by rw [hst'], ?_, ?_, fun hcommittee => ?_, fun s => ?_, fun hactive o ho => ?_⟩
  · rw [foldlM_singleton, hdeleg, hst']
  · rw [foldlM_singleton, hpayout]
  · rw [foldlM_singleton, hbls hcommittee]
  · rw [hst']
    cases hdelegKey : delegKey out <;> cases hpayoutKey : payoutKey params height out <;>
      simp [isRuledRecord, hdelegKey, hpayoutKey, or_comm, @eq_comm _ s]
  · rw [mem_singleton.mp ho]
    refine checkRecordOutput_of ?_ (hauthorized hactive) fun _ => hauthorized' hactive
    simpa [hactive] using hkey

theorem createdOutputs_of_foldlM {outs : List CTxOut}
    (hrun : outs.foldlM (PosRecordState.createOutput params crypto registry height spent) st =
      .ok st') : CreatedOutputs params crypto registry height spent st st' outs := by
  refine foldlM_induction
    (fun done s => CreatedOutputs params crypto registry height spent st s done) ?_
    ⟨rfl, rfl, rfl, fun _ => rfl, by simp, by simp⟩ hrun
  intro done s out s' hdone hstep
  have hone := createOutput_ok hstep
  have hspent : s.spentDelegations = st.spentDelegations ∧ s.spentPayouts = st.spentPayouts ∧
      s.spentRecordScripts = st.spentRecordScripts := by
    rw [hdone.frame]
    exact ⟨rfl, rfl, rfl⟩
  obtain ⟨hdelegations, hpayouts, hscripts⟩ := hspent
  refine ⟨by rw [hone.frame, hdone.frame], ?_, ?_, fun hcommittee => ?_, fun script => ?_,
    fun hactive o ho => ?_⟩
  · exact foldlM_append_eq_ok.mpr ⟨_, hdone.delegations, hdelegations ▸ hone.delegations⟩
  · exact foldlM_append_eq_ok.mpr ⟨_, hdone.payouts, hpayouts ▸ hone.payouts⟩
  · exact foldlM_append_eq_ok.mpr ⟨_, hdone.bls hcommittee, hone.bls hcommittee⟩
  · rw [hone.scripts, hdone.scripts]
    simp only [mem_append, or_and_right, exists_or]
    exact or_assoc
  · rcases mem_append.mp ho with ho | ho
    · exact hdone.hardening hactive o ho
    · exact hscripts ▸ hone.hardening hactive o ho

def outRotation (out : CTxOut) : Option (CAsset × Bool) := rotationSlot out.scriptPubKey

/-- The rotations of a transaction are new, and there is one for each asset and role. -/
theorem rotateKeys_ok {outs : List CTxOut}
    (hrun : outs.foldlM PosRecordState.rotateKey st = .ok st') :
    st' = { st with
        supervisionRotations := (outs.filterMap outRotation).reverse ++ st.supervisionRotations } ∧
      (outs.filterMap outRotation).Nodup ∧
      ∀ k ∈ outs.filterMap outRotation, k ∉ st.supervisionRotations := by
  refine foldlM_induction (fun done s => s = { st with
      supervisionRotations := (done.filterMap outRotation).reverse ++ st.supervisionRotations } ∧
    (done.filterMap outRotation).Nodup ∧
      ∀ k ∈ done.filterMap outRotation, k ∉ st.supervisionRotations) ?_ (by simp) hrun
  rintro done s out s' ⟨rfl, hnodup, hnew⟩ hstep
  unfold PosRecordState.rotateKey at hstep
  rw [filterMap_append]
  cases hslot : outRotation out with
  | none =>
    simp only [outRotation] at hslot
    simp only [hslot, Except.ok.injEq] at hstep
    subst hstep
    have hone : [out].filterMap outRotation = [] := by simp [outRotation, hslot]
    rw [hone, append_nil]
    exact ⟨rfl, hnodup, hnew⟩
  | some slot =>
    have hslot' := hslot
    simp only [outRotation] at hslot'
    simp only [hslot', ite_error_eq_ok, Except.ok.injEq, mem_append, mem_reverse,
      not_or] at hstep
    obtain ⟨⟨hfresh, hfresh'⟩, rfl⟩ := hstep
    have hone : [out].filterMap outRotation = [slot] := by simp [hslot]
    rw [hone]
    refine ⟨by simp, ?_, fun k hk => ?_⟩
    · exact nodup_append.mpr ⟨hnodup, by simp, fun a ha b hb hab => hfresh (by
        rw [mem_singleton] at hb
        rwa [← hb, ← hab])⟩
    · rcases mem_append.mp hk with hk | hk
      · exact hnew k hk
      · rwa [mem_singleton.mp hk]

def outputsOf (txs : List (CTransaction × List Coin)) : List CTxOut := txs.flatMap fun p => p.1.vout

def coinsOf (txs : List (CTransaction × List Coin)) : List Coin := txs.flatMap Prod.snd

theorem outputsOf_append (txs : List (CTransaction × List Coin)) (p : CTransaction × List Coin) :
    outputsOf (txs ++ [p]) = outputsOf txs ++ p.1.vout := by simp [outputsOf]

theorem coinsOf_append (txs : List (CTransaction × List Coin)) (p : CTransaction × List Coin) :
    coinsOf (txs ++ [p]) = coinsOf txs ++ p.2 := by simp [coinsOf]

/-- The controllers whose delegation is among the coins. -/
def delegKeys (coins : List Coin) : List CPubKey := coins.filterMap fun coin => delegKey coin.out

def payoutSlots (coins : List Coin) : List (CPubKey × ℕ) :=
  coins.filterMap fun coin => payoutSlot coin.out

/-- What is known of transactions that were accepted in turn. -/
structure JudgedTxs (params : Params) (crypto : Crypto) (registry : StakeRegistry) (height : ℕ)
    (txs : List (CTransaction × List Coin)) (st : PosRecordState) : Prop where
  delegations : (outputsOf txs).foldlM (checkDelegOutput registry (delegKeys (coinsOf txs))) [] =
    .ok st.createdDelegations
  payouts : (outputsOf txs).foldlM
    (checkPayoutOutput params registry (payoutSlots (coinsOf txs)) height) [] =
      .ok st.createdPayouts
  bls : params.posPublicCommittee = true →
    (outputsOf txs).foldlM (checkBlsOutput params crypto registry) ∅ = .ok st.blsKeys
  spentDelegations : ∀ k ∈ st.spentDelegations, k ∈ delegKeys (coinsOf txs)
  spentPayouts : ∀ k ∈ st.spentPayouts, k ∈ payoutSlots (coinsOf txs)
  spentScripts : ∀ s, s ∈ st.spentRecordScripts ↔
    ∃ coin ∈ coinsOf txs, isRecord coin.out ∧ coin.out.scriptPubKey = s
  createdScripts : ∀ s, s ∈ st.createdRecordScripts ↔
    ∃ out ∈ outputsOf txs, isRuledRecord params height out ∧ out.scriptPubKey = s
  /-- No script comes back. -/
  fresh : params.posHardeningActiveAt height = true →
    ∀ s ∈ st.createdRecordScripts, s ∉ st.spentRecordScripts
  outputs : params.posHardeningActiveAt height = true → ∀ p ∈ txs, ∀ out ∈ p.1.vout,
    checkRecordOutput params crypto height [] p.2 out = .ok ()
  /-- No policy in force is spent. -/
  inForce : params.posHardeningActiveAt height = true → ∀ coin ∈ coinsOf txs, ∀ p,
    payoutFromTxOut coin.out = some p → posPayoutInForce registry p.1 p.2 height = false
  /-- One rotation for each asset and role. -/
  rotations : params.posHardeningActiveAt height = true →
    st.supervisionRotations = ((outputsOf txs).filterMap outRotation).reverse ∧
      ((outputsOf txs).filterMap outRotation).Nodup
  issuance : params.posHardeningActiveAt height = true → ∀ p ∈ txs, issuesOnRecord p.1 p.2 = false
  claims : params.splitPayoutActiveAt height = true → ∀ p ∈ txs,
    checkPosPotClaim params crypto registry p.1 p.2 height = .ok ()

theorem judgedTxs_nil : JudgedTxs params crypto registry height [] PosRecordState.empty := by
  constructor <;> simp [outputsOf, coinsOf, PosRecordState.empty] <;> intros <;> rfl

theorem checkDelegOutput_mono {spent spent' : List CPubKey} (hsub : ∀ k ∈ spent, k ∈ spent')
    {created created' : List CPubKey}
    (hok : checkDelegOutput registry spent created out = .ok created') :
    checkDelegOutput registry spent' created out = .ok created' := by
  unfold checkDelegOutput at hok ⊢
  split
  · next hdeleg =>
    rw [hdeleg] at hok
    exact hok
  · next controller signer hdeleg =>
    rw [hdeleg] at hok
    simp only [ite_error_eq_ok] at hok ⊢
    exact ⟨hok.1, fun h => hok.2.1 ⟨h.1, fun hmem => h.2 (hsub _ hmem)⟩, hok.2.2⟩

/-- More spent records allow more policies. -/
theorem checkPayoutOutput_mono {spent spent' : List (CPubKey × ℕ)} (hsub : ∀ k ∈ spent, k ∈ spent')
    {created created' : List (CPubKey × ℕ)}
    (hok : checkPayoutOutput params registry spent height created out = .ok created') :
    checkPayoutOutput params registry spent' height created out = .ok created' := by
  unfold checkPayoutOutput at hok ⊢
  split
  · next hpayout =>
    rw [hpayout] at hok
    exact hok
  · next signer policy hpayout =>
    rw [hpayout] at hok
    dsimp only at hok
    split
    · next hinert =>
      rw [if_pos hinert] at hok
      exact hok
    · next hinert =>
      rw [if_neg hinert] at hok
      simp only [ite_error_eq_ok] at hok ⊢
      exact ⟨hok.1, hok.2.1, fun h => hok.2.2.1 ⟨h.1, fun hmem => h.2 (hsub _ hmem)⟩, hok.2.2.2⟩

theorem checkRecordOutput_scripts {scripts scripts' : List CScript}
    (hok : checkRecordOutput params crypto height scripts spent out = .ok ())
    (hfresh : isRuledRecord params height out → out.scriptPubKey ∉ scripts') :
    checkRecordOutput params crypto height scripts' spent out = .ok () := by
  have hold : isRuledRecord params height out → out.scriptPubKey ∉ scripts :=
    checkRecordOutput_ok hok
  unfold checkRecordOutput checkRecordScript at hok
  obtain ⟨hkey, hok⟩ := ite_error_eq_ok.mp hok
  refine checkRecordOutput_of (by simpa using hkey) (fun controller signer hdeleg => ?_)
    fun hnone signer policy hpayout hruled => ?_
  · have hrecord : isRuledRecord params height out := Or.inl (by simp [delegKey, hdeleg])
    simp only [hdeleg, ite_error_eq_ok] at hok
    refine ⟨hfresh hrecord, fun heq => hok.1 ⟨hold hrecord, heq⟩, by simpa using hok.2.2.1⟩
  · have hrecord : isRuledRecord params height out :=
      Or.inr (by simp [payoutKey, hpayout, hruled])
    simp only [hnone, hpayout, hruled, Bool.false_eq_true, if_false, ite_error_eq_ok] at hok
    exact ⟨hfresh hrecord, by simpa using hok.2.1⟩

theorem posCheckTxRecords_ok {tx : CTransaction} (hpos : params.conPos = true)
    (hok : posCheckTxRecords params crypto registry height st tx spent = .ok st') :
    ∃ st₁ st₂, SpentCoins params registry height st st₁ spent ∧
      CreatedOutputs params crypto registry height spent st₁ st₂ tx.vout ∧
      checkTxSupervision params height st₂ tx spent = .ok st' ∧
      (params.splitPayoutActiveAt height = true →
        checkPosPotClaim params crypto registry tx spent height = .ok ()) := by
  unfold posCheckTxRecords at hok
  rw [hpos, Bool.not_true, if_neg Bool.false_ne_true] at hok
  obtain ⟨st₁, hspent, hok⟩ := bind_eq_ok.mp hok
  obtain ⟨st₂, hcreated, hok⟩ := bind_eq_ok.mp hok
  obtain ⟨st₃, hsupervision, hok⟩ := bind_eq_ok.mp hok
  have hclaim : st₃ = st' ∧ (params.splitPayoutActiveAt height = true →
      checkPosPotClaim params crypto registry tx spent height = .ok ()) := by
    split at hok
    · split at hok <;> cases hok
      exact ⟨rfl, fun _ => ‹_›⟩
    · cases hok
      exact ⟨rfl, fun h => absurd h ‹_›⟩
  exact ⟨st₁, st₂, spentCoins_of_foldlM hspent, createdOutputs_of_foldlM hcreated,
    hclaim.1 ▸ hsupervision, hclaim.2⟩

theorem checkTxSupervision_ok {tx : CTransaction}
    (hok : checkTxSupervision params height st tx spent = .ok st') :
    st' = { st with supervisionRotations := st'.supervisionRotations } ∧
      (params.posHardeningActiveAt height = true → issuesOnRecord tx spent = false ∧
        st'.supervisionRotations =
          (tx.vout.filterMap outRotation).reverse ++ st.supervisionRotations ∧
        (tx.vout.filterMap outRotation).Nodup ∧
        ∀ k ∈ tx.vout.filterMap outRotation, k ∉ st.supervisionRotations) := by
  unfold checkTxSupervision at hok
  split at hok
  · obtain ⟨hissues, hok⟩ := ite_error_eq_ok.mp hok
    obtain ⟨rfl, hnodup, hnew⟩ := rotateKeys_ok hok
    exact ⟨rfl, fun _ => ⟨by simpa using hissues, rfl, hnodup, hnew⟩⟩
  · next hactive =>
    cases hok
    exact ⟨rfl, fun h => absurd h hactive⟩

theorem JudgedTxs.snoc {p : CTransaction × List Coin}
    (hjudged : JudgedTxs params crypto registry height txs st) (hpos : params.conPos = true)
    (hok : posCheckTxRecords params crypto registry height st p.1 p.2 = .ok st') :
    JudgedTxs params crypto registry height (txs ++ [p]) st' := by
  obtain ⟨st₁, st₂, hspent, hcreated, hsupervision, hclaim⟩ := posCheckTxRecords_ok hpos hok
  obtain ⟨hst', hrotations⟩ := checkTxSupervision_ok hsupervision
  have hst₁ := hspent.frame
  have hst₂ := hcreated.frame
  -- the frames leave the fields that each part changes
  obtain ⟨keys, slots, _, _, _, spent, _, _⟩ := st₁
  obtain ⟨_, _, _, _, _, _, _, _⟩ := st₂
  obtain ⟨_, _, _, _, _, _, _, _⟩ := st'
  cases hst₁
  cases hst₂
  cases hst'
  have hkeys : ∀ k ∈ keys, k ∈ delegKeys (coinsOf (txs ++ [p])) := by
    intro k hk
    rw [coinsOf_append, delegKeys, filterMap_append, mem_append]
    rcases (hspent.delegations k).mp hk with hk | ⟨coin, hcoin, hkey⟩
    · exact Or.inl (hjudged.spentDelegations k hk)
    · exact Or.inr (mem_filterMap.mpr ⟨coin, hcoin, hkey⟩)
  have hslots : ∀ k ∈ slots, k ∈ payoutSlots (coinsOf (txs ++ [p])) := by
    intro k hk
    rw [coinsOf_append, payoutSlots, filterMap_append, mem_append]
    rcases (hspent.payouts k).mp hk with hk | ⟨coin, hcoin, hkey⟩
    · exact Or.inl (hjudged.spentPayouts k hk)
    · exact Or.inr (mem_filterMap.mpr ⟨coin, hcoin, hkey⟩)
  refine ⟨?_, ?_, fun hcommittee => ?_, hkeys, hslots, fun s => ?_, fun s => ?_,
    fun hactive s hs hspentScript => ?_,
    fun hactive => forall_mem_append.mpr ⟨hjudged.outputs hactive, ?_⟩,
    fun hactive => ?_, fun hactive => ?_,
    fun hactive => forall_mem_append.mpr ⟨hjudged.issuance hactive, ?_⟩,
    fun hsplit => forall_mem_append.mpr ⟨hjudged.claims hsplit, ?_⟩⟩
  · rw [outputsOf_append]
    refine foldlM_append_eq_ok.mpr ⟨st.createdDelegations, ?_,
      foldlM_mono (fun _ _ _ => checkDelegOutput_mono hkeys) hcreated.delegations⟩
    refine foldlM_mono (fun _ _ _ => checkDelegOutput_mono fun k hk => ?_) hjudged.delegations
    rw [coinsOf_append, delegKeys, filterMap_append]
    exact mem_append_left _ hk
  · rw [outputsOf_append]
    refine foldlM_append_eq_ok.mpr ⟨st.createdPayouts, ?_,
      foldlM_mono (fun _ _ _ => checkPayoutOutput_mono hslots) hcreated.payouts⟩
    refine foldlM_mono (fun _ _ _ => checkPayoutOutput_mono fun k hk => ?_) hjudged.payouts
    rw [coinsOf_append, payoutSlots, filterMap_append]
    exact mem_append_left _ hk
  · rw [outputsOf_append]
    exact foldlM_append_eq_ok.mpr ⟨_, hjudged.bls hcommittee, hcreated.bls hcommittee⟩
  · refine (hspent.scripts s).trans ?_
    rw [hjudged.spentScripts, coinsOf_append]
    simp only [mem_append, or_and_right, exists_or]
  · refine (hcreated.scripts s).trans ?_
    simp only [hjudged.createdScripts, outputsOf_append, mem_append, or_and_right, exists_or]
  · rcases (hcreated.scripts s).mp hs with hold | ⟨out, hout, hrecord, rfl⟩
    · rcases (hspent.scripts s).mp hspentScript with hbefore | ⟨coin, hcoin, hrecord, rfl⟩
      · exact hjudged.fresh hactive s hold hbefore
      · exact (hspent.hardening hactive coin hcoin).1 hrecord hold
    · exact checkRecordOutput_ok (hcreated.hardening hactive out hout) hrecord hspentScript
  · refine forall_mem_singleton.mpr fun out hout => ?_
    exact checkRecordOutput_scripts (hcreated.hardening hactive out hout) (by simp)
  · rw [coinsOf_append]
    exact forall_mem_append.mpr ⟨hjudged.inForce hactive,
      fun coin hcoin => (hspent.hardening hactive coin hcoin).2⟩
  · obtain ⟨-, heq, hnodup, hnew⟩ := hrotations hactive
    obtain ⟨hold, hnodup'⟩ := hjudged.rotations hactive
    dsimp only at heq hnew ⊢
    rw [hold] at heq hnew
    rw [heq, outputsOf_append, filterMap_append, reverse_append]
    refine ⟨rfl, nodup_append.mpr ⟨hnodup', hnodup, fun a ha b hb hab => ?_⟩⟩
    exact hnew b hb (mem_reverse.mpr (hab ▸ ha))
  · exact forall_mem_singleton.mpr (hrotations hactive).1
  · exact forall_mem_singleton.mpr (hclaim hsplit)

end Sequentia
