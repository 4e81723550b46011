import Sequentia.Stake.RecordBatches

/-!
# The registry as a mirror of the UTXO set

`Mirrors` says what each layer of the registry holds, in terms of the coins alone. A
registry mirrors an unambiguous UTXO set exactly when it is what a rebuild makes of it, in
whatever order the rebuild meets the coins.
-/

namespace Sequentia

open Std KeyedMap Slots List ExtTreeMap

/-- The UTXO set holds one record for each slot and one committee key for each staker,
which is the configured one if there is one. -/
structure Unambiguous (params : Params) (coins : CCoinsView) (registry : StakeRegistry) :
    Prop where
  deleg : UniqueKeys (coins.toList.flatMap delegEntries)
  /-- One recognised policy for each signer and activation height. -/
  payout : UniqueKeys (coins.toList.flatMap (payoutEntries params))
  oneKey : ∀ i ∈ coins.toList.flatMap (stakeItems params),
    ∀ j ∈ coins.toList.flatMap (stakeItems params), i.pubkey = j.pubkey → i.bls ≠ [] →
      j.bls ≠ [] → i.bls = j.bls
  configKey : ∀ i ∈ coins.toList.flatMap (stakeItems params), i.bls ≠ [] →
    ∀ b, registry.bls[i.pubkey]? = some b → b = i.bls
  configKey_ne : ∀ (k : CPubKey) b, registry.bls[k]? = some b → b ≠ []

/-- The registry holds exactly what the coins say. -/
structure Mirrors (params : Params) (coins : CCoinsView) (registry : StakeRegistry) : Prop where
  /-- Weights, tranches and committee keys. -/
  stake : StakeRep registry.stake (coins.toList.flatMap (stakeItems params))
  pot : PotRep registry.potUtxo (coins.toList.flatMap (potItems params))
  /-- Signers and heights of delegations go together. -/
  deleg_wf : registry.deleg.WellFormed
  deleg : Represents registry.deleg.table (coins.toList.flatMap delegEntries)
  /-- No signer without policies. -/
  payout_rows : NoEmptyRow registry.payoutUtxo
  payout : Represents (payoutTable registry.payoutUtxo)
    (coins.toList.flatMap (payoutEntries params))

variable {params : Params} {coins : CCoinsView} {registry : StakeRegistry}

variable {e : COutPoint × Coin} {l cursor : List (COutPoint × Coin)}

theorem mem_stakeItems {i : StakeItem} : i ∈ stakeItems params e ↔ stakeItem params e = some i := by
  rw [stakeItems, Option.mem_toList]

theorem amount_pos_of_mem {i : StakeItem} (hi : i ∈ l.flatMap (stakeItems params)) :
    0 < i.amount := by
  obtain ⟨e, -, hi⟩ := mem_flatMap.mp hi
  rw [mem_stakeItems, stakeItem] at hi
  split at hi
  · cases hi
  · next pubkey amount hstake =>
    obtain ⟨-, -, -, hpos⟩ := pubkey_of_stakeFromTxOut hstake
    cases hi
    exact hpos

theorem Unambiguous.stakeOk (hcoins : Unambiguous params coins registry) :
    StakeOk (coins.toList.flatMap (stakeItems params)) :=
  ⟨fun _ hi => amount_pos_of_mem hi, hcoins.oneKey⟩

theorem potItem_outpoint {i : PotItem} (hi : potItem e = some i) : i.outpoint = e.1 := by
  revert hi
  fun_cases potItem e <;> rintro ⟨⟩
  rfl

theorem roundItem_outpoint {i : PotItem} (hi : roundItem params e = some i) : i.outpoint = e.1 := by
  revert hi
  fun_cases roundItem params e <;> rintro ⟨⟩
  rfl

theorem potItems_outpoints (e : COutPoint × Coin) :
    ((potItems params e).map PotItem.outpoint).Sublist [e.1] := by
  unfold potItems
  cases hpot : potItem e with
  | none =>
    cases hround : roundItem params e with
    | none => simp
    | some i => simp [roundItem_outpoint hround]
  | some i =>
    have hround : roundItem params e = none := by
      unfold potItem at hpot
      unfold roundItem
      split at hpot
      · cases hpot
      · next pot hpot' => rw [roundFromTxOut_of_pot hpot']
    simp [hround, potItem_outpoint hpot]

/-- Coins at distinct outpoints give pots at distinct outpoints. -/
theorem potOk_flatMap (hl : (l.map Prod.fst).Nodup) : PotOk (l.flatMap (potItems params)) := by
  unfold PotOk
  have hsub : ((l.flatMap (potItems params)).map PotItem.outpoint).Sublist
      (l.map Prod.fst) := by
    clear hl
    induction l with
    | nil => simp
    | cons e l ih =>
      rw [flatMap_cons, map_append, map_cons]
      exact (potItems_outpoints e).append ih
  exact hsub.nodup hl

theorem keyed_of_mem (params : Params) (l : List (COutPoint × Coin)) :
    ∀ E ∈ l.flatMap (payoutEntries params), PayoutEntry.Keyed E := by
  intro E hE
  obtain ⟨e, -, hE⟩ := mem_flatMap.mp hE
  exact (mem_payoutEntries.mp hE).2.2.2

/-- The fallbacks of `SetUtxoStake` change nothing in layers that hold what they should. -/
theorem setUtxoStake_of_stakeRep {r layers : StakeRegistry} {l : List StakeItem}
    (hpos : ∀ i ∈ l, 0 < i.amount) (hrep : StakeRep layers.stake l) :
    StakeRegistry.setUtxoStake r layers =
      { layers with config := r.config, bls := r.bls } := by
  have houtputs : layers.stake.blsUtxoOutputs.isEmpty = true →
      layers.stake.blsUtxo.toList = [] ∧ layers.stake.blsUtxoOutputs = ∅ := by
    intro hempty
    have hnone := isEmpty_iff.mp hempty
    refine ⟨eq_nil_iff_forall_not_mem.mpr ?_, hnone⟩
    rintro ⟨k, b⟩ hmem
    rw [mem_toList_iff_getElem?_eq_some, hrep.bls] at hmem
    obtain ⟨hne, i, hi, hk, rfl⟩ := hmem
    have hcount := stakeSum_carries_pos.mpr ⟨i, hi, hk, hne⟩
    have hlookup := hrep.outputs k
    rw [hnone, nonzero_of_pos hcount] at hlookup
    simp at hlookup
  have htranches : layers.stake.tranches.isEmpty = true →
      layers.stake.utxo.toList = [] ∧ layers.stake.tranches = ∅ := by
    intro hempty
    have hnone := isEmpty_iff.mp hempty
    have hl : l = [] := by
      refine eq_nil_iff_forall_not_mem.mpr fun i hi => ?_
      have hsum : 0 < stakeSum (StakeItem.amountAt i.height) l i.pubkey := by
        obtain ⟨s, t, rfl⟩ := append_of_mem hi
        have := hpos i (by simp)
        simp only [stakeSum, map_append, map_cons, sum_append, sum_cons,
          if_true, StakeItem.amountAt]
        omega
      have hcell := hrep.tranches i.pubkey i.height
      rw [hnone, nonzero_of_pos hsum] at hcell
      simp [cell] at hcell
    refine ⟨eq_nil_iff_forall_not_mem.mpr ?_, hnone⟩
    rintro ⟨k, w⟩ hmem
    have hutxo := hrep.utxo k
    rw [mem_toList_iff_getElem?_eq_some.mp hmem, hl] at hutxo
    simp [stakeSum, nonzero] at hutxo
  unfold StakeRegistry.setUtxoStake
  have h₁ : (if layers.stake.blsUtxoOutputs.isEmpty then
      layers.stake.blsUtxo.toList.foldl (fun m e => m.insert e.1 1) ∅
      else layers.stake.blsUtxoOutputs) = layers.stake.blsUtxoOutputs := by
    split
    · next hempty => rw [(houtputs hempty).1, (houtputs hempty).2, foldl_nil]
    · rfl
  have h₂ : (if layers.stake.tranches.isEmpty then layers.stake.utxo.toList.foldl
      (fun m e => rowInsert m e.1 fun row => row.insert 0 e.2) ∅
      else layers.stake.tranches) = layers.stake.tranches := by
    split
    · next hempty => rw [(htranches hempty).1, (htranches hempty).2, foldl_nil]
    · rfl
  rw [h₁, h₂]

theorem mirrors_rebuild (hcoins : Unambiguous params coins registry)
    (hperm : cursor.Perm coins.toList) :
    Mirrors params coins (registry.rebuildUtxoStake params cursor) := by
  have hstakePerm := hperm.flatMap_right (stakeItems params)
  have hstakeOk := hcoins.stakeOk.perm hstakePerm.symm
  have hstake : StakeRep ((cursor.flatMap (stakeItems params)).foldl UtxoStake.add
      StakeRegistry.empty.stake) (cursor.flatMap (stakeItems params)) :=
    stakeSummary.rep_foldl_add (l := []) hstakeOk stakeSummary.rep_empty
  have hpotOk : PotOk (cursor.flatMap (potItems params)) :=
    potOk_flatMap ((hperm.map Prod.fst).nodup_iff.mpr (nodup_keys_toList coins))
  have hpot : PotRep ((cursor.flatMap (potItems params)).foldl addUtxoPot
      StakeRegistry.empty.potUtxo) (cursor.flatMap (potItems params)) :=
    potSummary.rep_foldl_add (l := []) hpotOk potSummary.rep_empty
  have hdelegPerm := hperm.flatMap_right delegEntries
  have hdelegUnique := hcoins.deleg.perm hdelegPerm.symm
  have hwf : StakeRegistry.empty.deleg.WellFormed := fun k => by simp [StakeRegistry.empty]
  obtain ⟨hdelegWf, hdelegTable⟩ :=
    UtxoDeleg.foldl_addEntry hwf (cursor.flatMap delegEntries)
  have hpayoutPerm := hperm.flatMap_right (payoutEntries params)
  have hpayoutUnique := hcoins.payout.perm hpayoutPerm.symm
  have hrows : NoEmptyRow StakeRegistry.empty.payoutUtxo := noEmptyRow_empty
  obtain ⟨hpayoutRows, hpayoutTable⟩ :=
    foldl_addPayoutEntry hrows (keyed_of_mem params cursor)
  rw [StakeRegistry.rebuildUtxoStake, StakeRegistry.foldl_scan_eq,
    setUtxoStake_of_stakeRep hstakeOk.amount_pos hstake]
  refine ⟨hstake.perm hstakePerm, potSummary.rep_perm hpotOk (hperm.flatMap_right _) hpot,
    hdelegWf, ?_, hpayoutRows, ?_⟩
  · have htable : StakeRegistry.empty.deleg.table = fun _ => none := by
      funext k
      simp [UtxoDeleg.table, StakeRegistry.empty]
    rw [htable] at hdelegTable
    simp only
    rw [hdelegTable]
    exact (represents_foldl_put hdelegUnique).perm hdelegPerm hdelegUnique
  · have htable : payoutTable StakeRegistry.empty.payoutUtxo = fun _ => none := by
      funext k
      simp [payoutTable, StakeRegistry.empty, cell]
    rw [htable] at hpayoutTable
    simp only
    rw [hpayoutTable]
    exact (represents_foldl_put hpayoutUnique).perm hpayoutPerm hpayoutUnique

/-- The coins determine the chain-derived layers. -/
theorem Mirrors.unique {registry' : StakeRegistry} (hmirrors : Mirrors params coins registry)
    (hmirrors' : Mirrors params coins registry') (hconfig : registry.config = registry'.config)
    (hbls : registry.bls = registry'.bls) : registry = registry' := by
  have hstake := hmirrors.stake.unique hmirrors'.stake
  have hpot := hmirrors.pot.unique hmirrors'.pot
  have hdeleg : registry.deleg = registry'.deleg :=
    UtxoDeleg.ext_table hmirrors.deleg_wf hmirrors'.deleg_wf
      (funext fun k => by rw [hmirrors.deleg k, hmirrors'.deleg k])
  have hpayout : registry.payoutUtxo = registry'.payoutUtxo :=
    ext_payoutTable hmirrors.payout_rows hmirrors'.payout_rows
      (funext fun k => by rw [hmirrors.payout k, hmirrors'.payout k])
  cases registry
  cases registry'
  simp only at hconfig hbls hstake hpot hdeleg hpayout
  rw [hconfig, hbls, hstake, hpot, hdeleg, hpayout]

theorem setUtxoStake_config (r layers : StakeRegistry) :
    (r.setUtxoStake layers).config = r.config ∧ (r.setUtxoStake layers).bls = r.bls := ⟨rfl, rfl⟩

end Sequentia
