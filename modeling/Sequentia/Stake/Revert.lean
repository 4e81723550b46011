import Sequentia.Stake.Sync

/-!
# Disconnecting a block

`DisconnectTip` takes the stake changes of a block back with its undo data. Weights,
committee keys, pots and rounds always come back. Delegations and payout policies come back
exactly when the block is orderly.
-/

namespace Sequentia

open Std KeyedMap Slots

variable {params : Params} {crypto : Crypto} {st st' : ChainState} {block : CBlock}
  {undo : CBlockUndo}

variable (hfacts : BlockFacts params st st' block undo)

include hfacts

theorem BlockFacts.revert_deleg_iff (hmirrors : Mirrors params st.coins st.registry)
    (hcoins : Unambiguous params st.coins st.registry) :
    (st.registry.deleg.applySteps (recordSteps delegEntries block undo (st.height + 1))).revertSteps
        (recordSteps delegEntries block undo (st.height + 1)) = st.registry.deleg ↔
      Safe (st.coins.toList.flatMap delegEntries)
        (recordSteps delegEntries block undo (st.height + 1)) := by
  obtain ⟨happlyWf, happly⟩ := UtxoDeleg.table_applySteps hmirrors.deleg_wf
    (recordSteps delegEntries block undo (st.height + 1))
  obtain ⟨hrevertWf, hrevert⟩ := UtxoDeleg.table_revertSteps happlyWf
    (recordSteps delegEntries block undo (st.height + 1))
  rw [← (hfacts.delegBatch hcoins.deleg).revertSteps_applySteps_iff hmirrors.deleg, ← happly,
    ← hrevert]
  exact ⟨fun heq => congrArg UtxoDeleg.table heq,
    fun heq => UtxoDeleg.ext_table hrevertWf hmirrors.deleg_wf heq⟩

theorem BlockFacts.revert_payout_iff (hmirrors : Mirrors params st.coins st.registry)
    (hcoins : Unambiguous params st.coins st.registry) :
    revertPayoutSteps (applyPayoutSteps st.registry.payoutUtxo
        (recordSteps (payoutEntries params) block undo (st.height + 1)))
        (recordSteps (payoutEntries params) block undo (st.height + 1)) =
        st.registry.payoutUtxo ↔
      Safe (st.coins.toList.flatMap (payoutEntries params))
        (recordSteps (payoutEntries params) block undo (st.height + 1)) := by
  obtain ⟨happlyRows, happly⟩ := payoutTable_applySteps hmirrors.payout_rows
    (keyed_recordSteps params block undo (st.height + 1))
  obtain ⟨hrevertRows, hrevert⟩ := payoutTable_revertSteps happlyRows
    (keyed_recordSteps params block undo (st.height + 1))
  rw [← (hfacts.payoutBatch hcoins.payout).revertSteps_applySteps_iff hmirrors.payout, ← happly,
    ← hrevert]
  exact ⟨fun heq => congrArg payoutTable heq,
    fun heq => ext_payoutTable hrevertRows hmirrors.payout_rows heq⟩

omit hfacts

/-- From the hardening height on, disconnecting a block that was connected on top of an
unambiguous UTXO set restores the registry exactly when the block is orderly. -/
theorem disconnect_restores_iff (hcommittee : params.posPublicCommittee = true)
    (hactive : params.posHardeningActiveAt (st.height + 1) = true)
    (hcoins : Unambiguous params st.coins st.registry)
    (hstart : st.registry.rebuildUtxoStake params st.coins.toList = st.registry)
    (hblock : st.connectBlock params crypto block = .ok (st', undo)) :
    st'.registry.posRevertBlockStake params block undo (st.height + 1) = st.registry ↔
      Orderly params st.coins block undo (st.height + 1) := by
  have hmirrors : Mirrors params st.coins st.registry :=
    hstart ▸ mirrors_rebuild hcoins (List.Perm.refl _)
  have hfacts := ChainState.connectBlock_ok hcommittee hactive hblock
  have hdeleg := hfacts.revert_deleg_iff hmirrors hcoins
  rw [hfacts.delegSafe_iff hmirrors hcoins] at hdeleg
  have hpayout := hfacts.revert_payout_iff hmirrors hcoins
  rw [hfacts.registry, StakeRegistry.posApplyBlockStake_eq, StakeRegistry.posRevertBlockStake_eq]
  have hstake := stakeSummary.revert_batch (hfacts.stakeOk hmirrors hcoins)
    (hfacts.connected.delta_flatMap fun _ => stakeItems_of_unspendable) hmirrors.stake
  have hpots := potSummary.revert_batch hfacts.potOk
    (hfacts.connected.delta_flatMap fun _ => potItems_of_unspendable) hmirrors.pot
  rw [StakeRegistry.mk.injEq, hdeleg, hpayout]
  exact ⟨fun ⟨_, _, _, hdeleg, hpayout, _⟩ => ⟨hdeleg, hpayout⟩,
    fun h => ⟨rfl, rfl, hstake, h.deleg, h.payout, hpots⟩⟩

/-- Connecting and disconnecting the block with the twin loses the controller's
delegation. -/
theorem twin_record_not_restored :
    sampleParams.posHardeningActiveAt (sampleStart.height + 1) = true ∧
    sampleStart.registry.rebuildUtxoStake sampleParams sampleStart.coins.toList =
      sampleStart.registry ∧
    ∃ st' undo, sampleStart.connectBlock sampleParams sampleCrypto twinBlock = .ok (st', undo) ∧
      sampleStart.registry.hasDelegation sampleController = true ∧
      (st'.registry.posRevertBlockStake sampleParams twinBlock undo
        (sampleStart.height + 1)).hasDelegation sampleController = false ∧
      st'.registry.posRevertBlockStake sampleParams twinBlock undo (sampleStart.height + 1) ≠
        sampleStart.registry := by
  refine ⟨by decide, sampleStart_rebuilt, ?_⟩
  obtain ⟨⟨st', undo⟩, hst', hrun⟩ := Checks.exists_ok
    (sampleStart.connectBlock sampleParams sampleCrypto twinBlock)
    (fun r => sampleStart.registry.hasDelegation sampleController &&
      !(r.1.registry.posRevertBlockStake sampleParams twinBlock r.2
        (sampleStart.height + 1)).hasDelegation sampleController) (by decide +kernel)
  simp only [Bool.and_eq_true, Bool.not_eq_true'] at hrun
  exact ⟨st', undo, hst', hrun.1, hrun.2, fun heq => by simp [heq, hrun.1] at hrun⟩

/-- Connecting and disconnecting a rotation restores the registry. -/
theorem disconnect_restores_rotation :
    ∃ st' undo, sampleStart.connectBlock sampleParams sampleCrypto rotationBlock =
        .ok (st', undo) ∧
      st'.registry.posRevertBlockStake sampleParams rotationBlock undo (sampleStart.height + 1) =
        sampleStart.registry := by
  cases hblock : sampleStart.connectBlock sampleParams sampleCrypto rotationBlock with
  | error e =>
    have hok : (sampleStart.connectBlock sampleParams sampleCrypto
        rotationBlock).toOption.isSome = true := by decide +kernel
    simp [hblock, Except.toOption] at hok
  | ok result =>
    obtain ⟨st', undo⟩ := result
    have horderly := (rotation_orderlyRun st' undo hblock).1
    exact ⟨st', undo, rfl, (disconnect_restores_iff rfl (by decide) sampleStart_unambiguous
      sampleStart_rebuilt hblock).mpr horderly⟩

end Sequentia
