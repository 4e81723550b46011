import Sequentia.CoinsReaders
import Sequentia.Lib.Checks
import Sequentia.Stake.ConnectRules

/-!
# What the rules for records establish

Each rule of `ConnectBlock` that a block passed, said as a fact about the outputs and the
spent coins of the block: a staker registers one committee key, a controller gets one
delegation and a signer one payout policy for each activation height, a record that is
replaced is spent, and no spent record comes back under the same script.
-/

namespace Sequentia

open Std KeyedMap Checks List

section CommitteeKeys

variable {params : Params} {crypto : Crypto} {registry : StakeRegistry}

/-- The committee key that an output registers, with its staker. -/
def registers (params : Params) (out : CTxOut) : Option (CPubKey × Bytes) :=
  match stakeFromTxOut params out, parseStakeBlsRegistration out.scriptPubKey with
  | some stake, some registration => some (stake.1, registration.1)
  | _, _ => none

theorem pubkey_of_stakeFromTxOut {out : CTxOut} {stake : CPubKey × ℕ}
    (hstake : stakeFromTxOut params out = some stake) :
    ∃ full, parseStakeScriptFull out.scriptPubKey = some full ∧ full.pubkey = stake.1 ∧
      0 < stake.2 := by
  revert hstake
  fun_cases stakeFromTxOut params out <;> rintro ⟨⟩
  next full hfull _ _ _ => exact ⟨full, hfull, rfl, by omega⟩

theorem checkBlsOutput_ok {keys keys' : ExtTreeMap CPubKey Bytes} {out : CTxOut}
    (hok : checkBlsOutput params crypto registry keys out = .ok keys') :
    match registers params out with
    | none => keys' = keys
    | some (k, b) => (registry.getBls k = [] ∨ registry.getBls k = b) ∧
        (∀ b', keys[k]? = some b' → b' = b) ∧ keys' = keys.insert k b := by
  unfold checkBlsOutput at hok
  unfold registers parseStakeBlsRegistration
  cases hstake : stakeFromTxOut params out with
  | none =>
    rw [hstake] at hok
    cases hok
    rfl
  | some stake =>
    obtain ⟨full, hfull, hpubkey, -⟩ := pubkey_of_stakeFromTxOut hstake
    rw [hstake, hfull] at hok
    simp only [hfull]
    by_cases hempty : full.blsPubkey.isEmpty = true
    · simp only [hempty, if_true, Except.ok.injEq] at hok ⊢
      exact hok.symm
    · simp only [hempty, if_false, Bool.false_eq_true] at hok ⊢
      rw [ite_error_eq_ok, ite_error_eq_ok, ite_error_eq_ok] at hok
      obtain ⟨-, hexisting, hseen, hkeys⟩ := hok
      rw [← hpubkey]
      refine ⟨by tauto, fun b' hb' => ?_, (Except.ok.inj hkeys).symm⟩
      simpa [hb'] using hseen

theorem checkBlsRules_ok {block : CBlock} (hcommittee : params.posPublicCommittee = true)
    (hok : checkBlsRules params crypto registry block = .ok ()) :
    ∀ out ∈ block.outputs, ∀ k b, registers params out = some (k, b) →
      (registry.getBls k = [] ∨ registry.getBls k = b) ∧
      ∀ out' ∈ block.outputs, ∀ b', registers params out' = some (k, b') → b' = b := by
  unfold checkBlsRules at hok
  simp only [hcommittee, if_true] at hok
  obtain ⟨keys, hrun, -⟩ := bind_eq_ok.mp hok
  have hinv := foldlM_induction
    (fun done (keys : ExtTreeMap CPubKey Bytes) => ∀ out ∈ done, ∀ k b,
      registers params out = some (k, b) →
        (registry.getBls k = [] ∨ registry.getBls k = b) ∧ keys[k]? = some b)
    (by
      intro done keys out keys' hdone hstep out' hout' k b hreg
      have hout := checkBlsOutput_ok hstep
      rcases mem_append.mp hout' with hout' | hout'
      · obtain ⟨hforce, hkey⟩ := hdone out' hout' k b hreg
        refine ⟨hforce, ?_⟩
        cases hreg' : registers params out with
        | none =>
          simp only [hreg'] at hout
          rw [hout, hkey]
        | some p =>
          obtain ⟨k', b'⟩ := p
          simp only [hreg'] at hout
          rw [hout.2.2, getElem?_insert_eq]
          split
          · next hk =>
            subst hk
            rw [hout.2.1 b hkey]
          · exact hkey
      · rw [mem_singleton.mp hout'] at hreg
        simp only [hreg] at hout
        refine ⟨hout.1, ?_⟩
        rw [hout.2.2, getElem?_insert_eq, if_pos rfl])
    (by simp) hrun
  intro out hout k b hreg
  refine ⟨(hinv out hout k b hreg).1, fun out' hout' b' hreg' => ?_⟩
  have hkey := (hinv out hout k b hreg).2
  rw [(hinv out' hout' k b' hreg').2] at hkey
  exact Option.some.inj hkey

end CommitteeKeys

section Records

variable {params : Params} {crypto : Crypto} {registry : StakeRegistry} {block : CBlock}
  {undo : CBlockUndo} {height : ℕ}

/-- The controller of the delegation record in an output. -/
def delegKey (out : CTxOut) : Option CPubKey := (delegationFromTxOut out).map Prod.fst

/-- The slot of the payout record in an output, unless the rules skip the record. -/
def payoutKey (params : Params) (height : ℕ) (out : CTxOut) : Option (CPubKey × ℕ) :=
  match payoutFromTxOut out with
  | some (signer, policy) =>
    if inertSplit params height policy then none else some (signer, policy.activation)
  | none => none

variable {out : CTxOut} {scripts : List CScript}

theorem checkDelegOutput_ok {spent created created' : List CPubKey}
    (hok : checkDelegOutput registry spent created out = .ok created') :
    (created' = (delegKey out).toList ++ created ∧ ∀ k, delegKey out = some k → k ∉ created) ∧
      ∀ k, delegKey out = some k → registry.hasDelegation k = true → k ∈ spent := by
  unfold checkDelegOutput at hok
  unfold delegKey
  cases hdeleg : delegationFromTxOut out with
  | none =>
    rw [hdeleg] at hok
    cases hok
    simp
  | some deleg =>
    rw [hdeleg] at hok
    simp only [ite_error_eq_ok, Except.ok.injEq] at hok
    obtain ⟨hfresh, hexists, rfl⟩ := hok
    simp only [Option.map_some, Option.some.injEq, forall_eq', Option.toList_some,
      singleton_append, true_and]
    exact ⟨hfresh, by tauto⟩

theorem checkPayoutOutput_ok {spent created created' : List (CPubKey × ℕ)}
    (hok : checkPayoutOutput params registry spent height created out = .ok created') :
    (created' = (payoutKey params height out).toList ++ created ∧
      ∀ k, payoutKey params height out = some k → k ∉ created) ∧
      ∀ k, payoutKey params height out = some k → registry.hasPayoutAt k.1 k.2 = true →
        k ∈ spent := by
  unfold checkPayoutOutput at hok
  unfold payoutKey
  cases hpayout : payoutFromTxOut out with
  | none =>
    rw [hpayout] at hok
    cases hok
    simp
  | some payout =>
    obtain ⟨signer, policy⟩ := payout
    rw [hpayout] at hok
    by_cases hinert : inertSplit params height policy = true
    · simp only [hinert, if_true, Except.ok.injEq] at hok ⊢
      simp [hok]
    · simp only [hinert, if_false, Bool.false_eq_true, ite_error_eq_ok, Except.ok.injEq]
        at hok ⊢
      obtain ⟨-, hfresh, hexists, rfl⟩ := hok
      simp only [Option.some.injEq, forall_eq', Option.toList_some, singleton_append,
        true_and]
      exact ⟨hfresh, by tauto⟩

theorem checkRecordScript_ok {spent : List Coin} {script : CScript} {unauthorized : String}
    {owner : CPubKey}
    (hok : checkRecordScript crypto scripts spent script unauthorized owner = .ok ()) :
    script ∉ scripts := by
  unfold checkRecordScript at hok
  exact (ite_error_eq_ok.mp hok).1

theorem checkRecordOutput_ok {spent : List Coin}
    (hok : checkRecordOutput params crypto height scripts spent out = .ok ())
    (hrecord : (delegKey out).isSome ∨ (payoutKey params height out).isSome) :
    out.scriptPubKey ∉ scripts := by
  unfold checkRecordOutput at hok
  replace hok := (ite_error_eq_ok.mp hok).2
  cases hdeleg : delegationFromTxOut out with
  | some deleg =>
    rw [hdeleg] at hok
    exact checkRecordScript_ok (ite_error_eq_ok.mp hok).2
  | none =>
    rw [hdeleg] at hok
    cases hpayout : payoutFromTxOut out with
    | none => simp [delegKey, payoutKey, hdeleg, hpayout] at hrecord
    | some payout =>
      obtain ⟨signer, policy⟩ := payout
      rw [hpayout] at hok
      by_cases hinert : inertSplit params height policy = true
      · simp [delegKey, payoutKey, hdeleg, hpayout, hinert] at hrecord
      · simp only [hinert, if_false, Bool.false_eq_true] at hok
        exact checkRecordScript_ok hok

theorem foldlM_checkSpentRecord {coins : List Coin}
    (hrun : coins.foldlM (checkSpentRecord registry height) [] = .ok scripts) :
    ∀ coin ∈ coins, (delegationFromTxOut coin.out).isSome ∨ (payoutFromTxOut coin.out).isSome →
      coin.out.scriptPubKey ∈ scripts := by
  refine foldlM_induction (fun done scripts => ∀ coin ∈ done,
    (delegationFromTxOut coin.out).isSome ∨ (payoutFromTxOut coin.out).isSome →
      coin.out.scriptPubKey ∈ scripts) ?_ (by simp) hrun
  intro done scripts coin scripts' hdone hstep coin' hcoin' hrecord
  revert hstep
  fun_cases checkSpentRecord registry height scripts coin <;> rintro ⟨⟩ <;>
    rcases mem_append.mp hcoin' with hcoin' | hcoin'
  · exact mem_cons_of_mem _ (hdone coin' hcoin' hrecord)
  · rw [mem_singleton.mp hcoin']
    exact mem_cons_self
  · exact hdone coin' hcoin' hrecord
  · next hnone =>
    rw [mem_singleton.mp hcoin'] at hrecord
    exact absurd (by simpa using hrecord) hnone

/-- A created record does not have the script of a record spent in the block. -/
theorem checkHardening_ok (hok : checkHardening params crypto registry height block undo = .ok ())
    (hout : out ∈ block.outputs)
    (hrecord : (delegKey out).isSome ∨ (payoutKey params height out).isSome) {coin : Coin}
    (hcoin : coin ∈ undo.flatten)
    (hspent : (delegationFromTxOut coin.out).isSome ∨ (payoutFromTxOut coin.out).isSome) :
    coin.out.scriptPubKey ≠ out.scriptPubKey := by
  obtain ⟨scripts, hscripts, hchecks⟩ := bind_eq_ok.mp hok
  intro heq
  have hcollected := foldlM_checkSpentRecord hscripts coin hcoin hspent
  obtain ⟨tx, htx, hvout⟩ := mem_flatMap.mp hout
  rw [← map_fst_pairUndo block.vtx ([] :: undo)] at htx
  obtain ⟨p, hp, rfl⟩ := mem_map.mp htx
  have hp' := forM_eq_ok.mp (forM_eq_ok.mp hchecks p hp) out hvout
  exact checkRecordOutput_ok hp' hrecord (heq ▸ hcollected)

/-- What the record rules establish from the hardening height on. -/
structure RecordFacts (params : Params) (registry : StakeRegistry) (block : CBlock)
    (undo : CBlockUndo) (height : ℕ) : Prop where
  deleg_nodup : (block.outputs.filterMap delegKey).Nodup
  deleg_rotated : ∀ out ∈ block.outputs, ∀ k, delegKey out = some k →
    registry.hasDelegation k = true → ∃ coin ∈ undo.flatten, delegKey coin.out = some k
  /-- A signer gets one policy for each activation height. -/
  payout_nodup : (block.outputs.filterMap (payoutKey params height)).Nodup
  /-- No script of a spent record comes back. -/
  script_fresh : ∀ out ∈ block.outputs,
    (delegKey out).isSome ∨ (payoutKey params height out).isSome → ∀ coin ∈ undo.flatten,
      (delegationFromTxOut coin.out).isSome ∨ (payoutFromTxOut coin.out).isSome →
        coin.out.scriptPubKey ≠ out.scriptPubKey

theorem checkRecordRules_ok (hheight : params.posHardeningActiveAt height = true)
    (hok : checkRecordRules params crypto registry block undo height = .ok ()) :
    RecordFacts params registry block undo height := by
  unfold checkRecordRules at hok
  simp only [hheight, if_true] at hok
  obtain ⟨controllers, hdeleg, hok⟩ := bind_eq_ok.mp hok
  obtain ⟨slots, hpayout, hok⟩ := bind_eq_ok.mp hok
  have hcontrollers : (block.outputs.filterMap delegKey).Nodup := by
    refine foldlM_nodup ?_ hdeleg
    exact fun _ _ _ hstep => (checkDelegOutput_ok hstep).1
  have hslots : (block.outputs.filterMap (payoutKey params height)).Nodup := by
    refine foldlM_nodup ?_ hpayout
    exact fun _ _ _ hstep => (checkPayoutOutput_ok hstep).1
  refine ⟨hcontrollers, ?_, hslots,
    fun out hout hrecord coin hcoin hspent => checkHardening_ok hok hout hrecord hcoin hspent⟩
  have hspent : ∀ out ∈ block.outputs, ∀ k, delegKey out = some k →
      registry.hasDelegation k = true → k ∈ undo.flatten.filterMap fun coin => delegKey coin.out := by
    refine foldlM_forall ?_ hdeleg
    exact fun _ _ _ hstep => (checkDelegOutput_ok hstep).2
  exact fun out hout k hk hexists => mem_filterMap.mp (hspent out hout k hk hexists)

/-- What a connected block establishes from the hardening height on. -/
structure BlockFacts (params : Params) (st st' : ChainState) (block : CBlock)
    (undo : CBlockUndo) : Prop where
  /-- The coins change by the exchange law. -/
  connected : Connected st.coins st'.coins (st.height + 1) block undo
  /-- A staker registers one committee key, the one in force if there is one. -/
  bls : ∀ out ∈ block.outputs, ∀ k b, registers params out = some (k, b) →
    (st.registry.getBls k = [] ∨ st.registry.getBls k = b) ∧
    ∀ out' ∈ block.outputs, ∀ b', registers params out' = some (k, b') → b' = b
  records : RecordFacts params st.registry block undo (st.height + 1)
  height : st'.height = st.height + 1
  registry : st'.registry =
    st.registry.posApplyBlockStake params block undo (st.height + 1)

theorem ChainState.connectBlock_ok {st st' : ChainState}
    (hcommittee : params.posPublicCommittee = true)
    (hheight : params.posHardeningActiveAt (st.height + 1) = true)
    (hok : st.connectBlock params crypto block = .ok (st', undo)) :
    BlockFacts params st st' block undo := by
  unfold ChainState.connectBlock at hok
  obtain ⟨⟨⟩, hbls, hok⟩ := bind_eq_ok.mp hok
  split at hok
  · cases hok
  · next coins undo' hcoins =>
    obtain ⟨⟨⟩, hrecords, hok⟩ := bind_eq_ok.mp hok
    obtain ⟨⟨⟩, -, hok⟩ := bind_eq_ok.mp hok
    cases hok
    exact ⟨connected_of_connectCoins hcoins, checkBlsRules_ok hcommittee hbls,
      checkRecordRules_ok hheight hrecords, rfl, rfl⟩

end Records

end Sequentia
