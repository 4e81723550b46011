import Sequentia.Stake.Sync

/-!
# One record for each slot

The rules for records mean to leave at most one unspent delegation for each controller, one
recognised payout policy for each signer and activation height, and one committee key for each
staker. They look at the registry, so this holds as long as the registry mirrors the UTXO set:
once a twin in another encoding has made the node forget a delegation, a second one passes.
-/

namespace Sequentia

open Std Slots List

/-- The UTXO set holds one record for each slot and one committee key for each staker. -/
structure CCoinsView.OneRecordEach (params : Params) (coins : CCoinsView) : Prop where
  deleg : ∀ e ∈ coins.toList, ∀ e' ∈ coins.toList, ∀ controller signer signer',
    delegationFromTxOut e.2.out = some (controller, signer) →
      delegationFromTxOut e'.2.out = some (controller, signer') → e = e'
  payout : ∀ e ∈ coins.toList, ∀ e' ∈ coins.toList, ∀ signer policy policy',
    payoutFromTxOut e.2.out = some (signer, policy) →
      payoutRecordRecognized params policy e.2.nHeight = true →
      payoutFromTxOut e'.2.out = some (signer, policy') →
      payoutRecordRecognized params policy' e'.2.nHeight = true →
      policy.activation = policy'.activation → e = e'
  bls : ∀ e ∈ coins.toList, ∀ e' ∈ coins.toList, ∀ staker key key',
    registers params e.2.out = some (staker, key) →
      registers params e'.2.out = some (staker, key') → key = key'

variable {params : Params} {coins : CCoinsView}

theorem eq_of_mem_toList {e e' : COutPoint × Coin} (he : e ∈ coins.toList)
    (he' : e' ∈ coins.toList) (houtpoint : e.1 = e'.1) : e = e' := by
  obtain ⟨o, c⟩ := e
  obtain ⟨o', c'⟩ := e'
  obtain rfl : o = o' := houtpoint
  rw [ExtTreeMap.mem_toList_iff_getElem?_eq_some] at he he'
  rw [Option.some.inj (he.symm.trans he')]

theorem exists_stakeItem_of_registers {e : COutPoint × Coin} {staker : CPubKey} {key : Bytes}
    (hregisters : registers params e.2.out = some (staker, key)) :
    ∃ i ∈ stakeItems params e, i.pubkey = staker ∧ i.bls = key ∧ i.bls ≠ [] := by
  unfold registers at hregisters
  split at hregisters
  · next stake registration hstake hregistration =>
    cases hregisters
    refine ⟨⟨stake.1, stake.2, e.2.nHeight, registration.1⟩, mem_stakeItems.mpr ?_, rfl, rfl, ?_⟩
    · simp [stakeItem, hstake, hregistration]
    · revert hregistration
      fun_cases parseStakeBlsRegistration e.2.out.scriptPubKey <;> rintro ⟨⟩
      next hempty => simpa using hempty
  · cases hregisters

theorem Unambiguous.oneRecordEach {registry : StakeRegistry}
    (hcoins : Unambiguous params coins registry) : coins.OneRecordEach params where
  deleg e he e' he' controller signer signer' hdeleg hdeleg' := by
    have hentry : ⟨e.1, controller, signer, e.2.nHeight⟩ ∈ coins.toList.flatMap delegEntries :=
      mem_flatMap.mpr ⟨e, he, by simp [delegEntries, hdeleg]⟩
    have hentry' : ⟨e'.1, controller, signer', e'.2.nHeight⟩ ∈
        coins.toList.flatMap delegEntries :=
      mem_flatMap.mpr ⟨e', he', by simp [delegEntries, hdeleg']⟩
    have heq := eq_of_uniqueKeys hcoins.deleg hentry hentry' rfl
    exact eq_of_mem_toList he he' (congrArg Entry.id heq)
  payout e he e' he' signer policy policy' hpayout hknown hpayout' hknown' hactivation := by
    have hentry : ⟨e.1, (signer, policy.activation), policy, ()⟩ ∈
        coins.toList.flatMap (payoutEntries params) :=
      mem_flatMap.mpr ⟨e, he, by simp [payoutEntries, hpayout, hknown]⟩
    have hentry' : ⟨e'.1, (signer, policy'.activation), policy', ()⟩ ∈
        coins.toList.flatMap (payoutEntries params) :=
      mem_flatMap.mpr ⟨e', he', by simp [payoutEntries, hpayout', hknown']⟩
    have heq := eq_of_uniqueKeys hcoins.payout hentry hentry' (by rw [hactivation])
    exact eq_of_mem_toList he he' (congrArg Entry.id heq)
  bls e he e' he' staker key key' hregisters hregisters' := by
    obtain ⟨i, hi, hstaker, rfl, hne⟩ := exists_stakeItem_of_registers hregisters
    obtain ⟨j, hj, hstaker', rfl, hne'⟩ := exists_stakeItem_of_registers hregisters'
    exact hcoins.oneKey i (mem_flatMap.mpr ⟨e, he, hi⟩) j
      (mem_flatMap.mpr ⟨e', he', hj⟩) (hstaker.trans hstaker'.symm) hne hne'

/-- From the hardening height on, a run of orderly blocks over an unambiguous UTXO set that the
registry mirrors leaves one record for each slot and one committee key for each staker. -/
theorem one_record_each {crypto : Crypto} {st st' : ChainState} {blocks : List CBlock}
    (hcommittee : params.posPublicCommittee = true)
    (hactive : params.posHardeningActiveAt (st.height + 1) = true)
    (hcoins : Unambiguous params st.coins st.registry)
    (hstart : st.registry.rebuildUtxoStake params st.coins.toList = st.registry)
    (hrun : st.connectBlocks params crypto blocks = .ok st')
    (horderly : OrderlyRun params crypto st blocks) : st'.coins.OneRecordEach params := by
  have hmirrors : Mirrors params st.coins st.registry :=
    hstart ▸ mirrors_rebuild hcoins (List.Perm.refl _)
  exact (connectBlocks_mirrors hcommittee hactive hmirrors hcoins hrun horderly).2.oneRecordEach

/-- After a rotation there is one record for each slot. -/
theorem one_record_each_rotation :
    ∃ st', sampleStart.connectBlocks sampleParams sampleCrypto [rotationBlock] = .ok st' ∧
      st'.coins.OneRecordEach sampleParams := by
  have hok : (sampleStart.connectBlocks sampleParams sampleCrypto
      [rotationBlock]).toOption.isSome = true := by decide +kernel
  cases hrun : sampleStart.connectBlocks sampleParams sampleCrypto [rotationBlock] with
  | error e => simp [hrun, Except.toOption] at hok
  | ok st' =>
    exact ⟨st', rfl, one_record_each rfl (by decide) sampleStart_unambiguous sampleStart_rebuilt
      hrun rotation_orderlyRun⟩

/-- The controller delegates again, with a coin of its own and beside the twin. -/
def secondRecordBlock : CBlock where
  vtx := [{ sampleCoinbase with txid := 210 },
    { txid := 211, vin := [{ prevout := ⟨202, 0⟩ }],
      vout := [sampleOut (buildDelegationScript sampleController sampleSigner')] }]
  txids_nodup := by decide

/-- The twin in another encoding makes the node forget the delegation, and a second record for
the controller passes. -/
theorem two_delegations_accepted :
    sampleParams.posHardeningActiveAt (sampleStart.height + 1) = true ∧
      Unambiguous sampleParams sampleStart.coins sampleStart.registry ∧
      sampleStart.registry.rebuildUtxoStake sampleParams sampleStart.coins.toList =
        sampleStart.registry ∧
      ∃ st', sampleStart.connectBlocks sampleParams sampleCrypto
          [twinBlock, secondRecordBlock] = .ok st' ∧
        ¬ st'.coins.OneRecordEach sampleParams := by
  refine ⟨by decide, sampleStart_unambiguous, sampleStart_rebuilt, ?_⟩
  obtain ⟨st', hst', hrun⟩ := Checks.exists_ok
    (sampleStart.connectBlocks sampleParams sampleCrypto [twinBlock, secondRecordBlock])
    (fun st' => (⟨201, 0⟩, ⟨sampleOut twinScript, 20, false⟩) ∈ st'.coins.toList ∧
      (⟨211, 0⟩, ⟨sampleOut (buildDelegationScript sampleController sampleSigner'), 21,
        false⟩) ∈ st'.coins.toList) (by decide +kernel)
  obtain ⟨htwin, hsecond⟩ := of_decide_eq_true hrun
  refine ⟨st', hst', fun hone => ?_⟩
  have heq := hone.deleg _ htwin _ hsecond sampleController sampleSigner sampleSigner'
    (by decide +kernel) (by decide +kernel)
  exact absurd (congrArg (fun e => e.1.hash) heq) (by decide)

end Sequentia
