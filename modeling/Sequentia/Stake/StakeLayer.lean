import Sequentia.Lib.BagSummary
import Sequentia.Stake.Registry
import Mathlib.Algebra.BigOperators.Group.List.Basic

/-!
# The stake layer summarises the staking outputs

Weights, tranches, committee keys and their output counts are a summary of the bag of
unspent staking outputs: adding and subtracting one output follows the bag, and the bag
determines all four maps. The one condition is that the outputs of a staker register a
single committee key.
-/

namespace Sequentia

open Std KeyedMap List ExtTreeMap

def stakeSum (f : StakeItem → ℕ) (l : List StakeItem) (k : CPubKey) : ℕ :=
  (l.map fun i => if i.pubkey = k then f i else 0).sum

def StakeItem.amountAt (h : ℕ) (i : StakeItem) : ℕ := if i.height = h then i.amount else 0

/-- Whether an item carries a committee key, as a number. -/
def StakeItem.carries (i : StakeItem) : ℕ := if i.bls.isEmpty then 0 else 1

theorem stakeSum_cons (f : StakeItem → ℕ) (i : StakeItem) (l : List StakeItem) :
    stakeSum f (i :: l) = fun k => (if i.pubkey = k then f i else 0) + stakeSum f l k :=
  funext fun k => by simp [stakeSum]

variable {l l' : List StakeItem} {i : StakeItem} {s : UtxoStake} {k : CPubKey}

theorem stakeSum_perm (f : StakeItem → ℕ) (hperm : l.Perm l') (k : CPubKey) :
    stakeSum f l k = stakeSum f l' k :=
  (hperm.map _).sum_eq

/-- Staking outputs that can be summarised: positive amounts, one committee key a staker. -/
structure StakeOk (l : List StakeItem) : Prop where
  amount_pos : ∀ i ∈ l, 0 < i.amount
  /-- A staker registers one committee key. -/
  oneKey : ∀ i ∈ l, ∀ j ∈ l, i.pubkey = j.pubkey → i.bls ≠ [] → j.bls ≠ [] → i.bls = j.bls

/-- The stake layer holds exactly the given staking outputs. -/
structure StakeRep (s : UtxoStake) (l : List StakeItem) : Prop where
  utxo : Counts s.utxo (stakeSum StakeItem.amount l)
  tranches : ∀ k h, cell s.tranches k h = nonzero (stakeSum (StakeItem.amountAt h) l k)
  noEmptyRow : NoEmptyRow s.tranches
  outputs : Counts s.blsUtxoOutputs (stakeSum StakeItem.carries l)
  bls : ∀ k b, s.blsUtxo[k]? = some b ↔ b ≠ [] ∧ ∃ i ∈ l, i.pubkey = k ∧ i.bls = b

theorem StakeOk.perm (hperm : l.Perm l') (hok : StakeOk l) : StakeOk l' :=
  ⟨fun i hi => hok.amount_pos i (hperm.mem_iff.mpr hi), fun i hi j hj =>
    hok.oneKey i (hperm.mem_iff.mpr hi) j (hperm.mem_iff.mpr hj)⟩

theorem StakeOk.tail (hok : StakeOk (i :: l)) : StakeOk l :=
  ⟨fun j hj => hok.amount_pos j (mem_cons_of_mem _ hj), fun j hj j' hj' =>
    hok.oneKey j (mem_cons_of_mem _ hj) j' (mem_cons_of_mem _ hj')⟩

theorem StakeRep.perm (hperm : l.Perm l') (hrep : StakeRep s l) : StakeRep s l' where
  utxo k := by rw [hrep.utxo, stakeSum_perm _ hperm]
  tranches k h := by rw [hrep.tranches, stakeSum_perm _ hperm]
  noEmptyRow := hrep.noEmptyRow
  outputs k := by rw [hrep.outputs, stakeSum_perm _ hperm]
  bls k b := by
    rw [hrep.bls]
    simp only [hperm.mem_iff]

/-- The staking outputs determine the layer. -/
theorem StakeRep.unique {s' : UtxoStake} (hrep : StakeRep s l) (hrep' : StakeRep s' l) :
    s = s' := by
  have hutxo : s.utxo = s'.utxo :=
    ext_getElem? fun k => by rw [hrep.utxo, hrep'.utxo]
  have htranches : s.tranches = s'.tranches :=
    ext_cell hrep.noEmptyRow hrep'.noEmptyRow fun k h => by rw [hrep.tranches, hrep'.tranches]
  have hbls : s.blsUtxo = s'.blsUtxo :=
    ext_getElem? fun k => Option.ext fun b => by rw [hrep.bls, hrep'.bls]
  have houtputs : s.blsUtxoOutputs = s'.blsUtxoOutputs :=
    ext_getElem? fun k => by rw [hrep.outputs, hrep'.outputs]
  cases s
  cases s'
  simp only at hutxo htranches hbls houtputs
  rw [hutxo, htranches, hbls, houtputs]

/-- A staker's committee key is known once an output that carries it is. -/
theorem StakeRep.add (hok : StakeOk (i :: l)) (hrep : StakeRep s l) :
    StakeRep (s.add i) (i :: l) where
  utxo := by
    rw [stakeSum_cons]
    exact hrep.utxo.addAt i.pubkey (hok.amount_pos i mem_cons_self)
  tranches k h := by
    have hamount := hok.amount_pos i mem_cons_self
    rw [UtxoStake.add, cell_rowInsert, stakeSum_cons]
    by_cases heq : i.pubkey = k
    · subst heq
      simp only [if_true]
      have hrow : Counts (s.tranches.getD i.pubkey ∅) fun h =>
          stakeSum (StakeItem.amountAt h) l i.pubkey := fun h => by
        rw [getElem?_getD_row, hrep.tranches]
      exact hrow.addAt i.height hamount h
    · simp only [if_neg heq, Nat.zero_add]
      exact hrep.tranches k h
  noEmptyRow := hrep.noEmptyRow.rowInsert (by simp [addAt])
  outputs := by
    rw [stakeSum_cons]
    simp only [UtxoStake.add, StakeItem.carries]
    split
    · simpa using hrep.outputs
    · exact hrep.outputs.addAt i.pubkey Nat.one_pos
  bls k b := by
    simp only [UtxoStake.add]
    split
    · next hempty =>
      rw [hrep.bls]
      have hnil : i.bls = [] := isEmpty_iff.mp hempty
      simp only [mem_cons, exists_eq_or_imp, hnil]
      grind
    · next hempty =>
      have hne : i.bls ≠ [] := fun h => hempty (isEmpty_iff.mpr h)
      rw [getElem?_insert_eq]
      split
      · next heq =>
        constructor
        · rintro ⟨rfl⟩
          exact ⟨hne, i, mem_cons_self, heq, rfl⟩
        · rintro ⟨hb, j, hj, hkey, rfl⟩
          rw [hok.oneKey i mem_cons_self j hj (heq.trans hkey.symm) hne hb]
      · next hkey =>
        rw [hrep.bls]
        simp only [mem_cons, exists_eq_or_imp, hkey, false_and, false_or]

/-- One committee registration less. -/
theorem StakeRep.subBls_outputs {total : CPubKey → ℕ}
    (houtputs : Counts s.blsUtxoOutputs fun a => (if k = a then 1 else 0) + total a) :
    Counts (s.subBls k).blsUtxoOutputs total := by
  have hk := houtputs.getElem?_self Nat.one_pos
  have hsub := houtputs.subAt
  simp only [UtxoStake.subBls, hk, Nat.add_sub_cancel_left]
  split
  · next hone => rwa [if_pos (by omega)] at hsub
  · next hone => rwa [if_neg (by omega)] at hsub

/-- A staker's outputs that remain keep its committee key registered. -/
theorem stakeSum_carries_pos :
    0 < stakeSum StakeItem.carries l k ↔ ∃ i ∈ l, i.pubkey = k ∧ i.bls ≠ [] := by
  induction l with
  | nil => simp [stakeSum]
  | cons i l ih =>
    rw [stakeSum_cons]
    simp only [List.mem_cons, exists_eq_or_imp, ← ih, StakeItem.carries, List.isEmpty_iff]
    split
    · next hk =>
      split
      · next hempty => simp only [hk, hempty, ne_eq, not_true, and_false, false_or, Nat.zero_add]
      · next hne => exact iff_of_true (by omega) (Or.inl ⟨hk, hne⟩)
    · next hk => simp only [hk, false_and, false_or, Nat.zero_add]

theorem stakeSum_amount_zero (hok : StakeOk l) (hzero : stakeSum StakeItem.amount l k = 0) :
    ∀ i ∈ l, i.pubkey ≠ k := by
  induction l with
  | nil => simp
  | cons i l ih =>
    rw [stakeSum_cons] at hzero
    have hamount := hok.amount_pos i mem_cons_self
    have hkey : i.pubkey ≠ k := by
      intro heq
      simp only [if_pos heq] at hzero
      omega
    simp only [if_neg hkey, Nat.zero_add] at hzero
    simpa [hkey] using ih hok.tail hzero

/-- The state of the committee keys once the registration of an output is taken back. -/
structure BlsRep (s : UtxoStake) (l : List StakeItem) : Prop where
  outputs : Counts s.blsUtxoOutputs (stakeSum StakeItem.carries l)
  bls : ∀ k b, s.blsUtxo[k]? = some b ↔ b ≠ [] ∧ ∃ i ∈ l, i.pubkey = k ∧ i.bls = b

theorem StakeRep.blsRep_of_empty (hrep : StakeRep s (i :: l)) (hempty : i.bls = []) :
    BlsRep s l where
  outputs := by
    have houtputs := hrep.outputs
    rw [stakeSum_cons] at houtputs
    simpa [StakeItem.carries, hempty] using houtputs
  bls k b := by
    rw [hrep.bls]
    simp only [mem_cons, exists_eq_or_imp, hempty]
    grind

theorem StakeRep.blsRep_subBls (hok : StakeOk (i :: l)) (hrep : StakeRep s (i :: l))
    (hne : i.bls ≠ []) : BlsRep (s.subBls i.pubkey) l := by
  have houtputs : Counts s.blsUtxoOutputs fun a =>
      (if i.pubkey = a then 1 else 0) + stakeSum StakeItem.carries l a := by
    simpa [stakeSum_cons, StakeItem.carries, hne] using hrep.outputs
  refine ⟨StakeRep.subBls_outputs houtputs, fun k b => ?_⟩
  have hother : i.pubkey ≠ k → (s.blsUtxo[k]? = some b ↔
      b ≠ [] ∧ ∃ j ∈ l, j.pubkey = k ∧ j.bls = b) := fun hkey => by
    rw [hrep.bls]
    simp only [mem_cons, exists_eq_or_imp, hkey, false_and, false_or]
  have hcount := houtputs.getElem?_self Nat.one_pos
  simp only [UtxoStake.subBls, hcount]
  split
  · next hone =>
    simp only
    rw [getElem?_erase_eq]
    split
    · next hkey =>
      subst hkey
      refine iff_of_false (by simp) ?_
      rintro ⟨hb, j, hj, hkey, rfl⟩
      have := stakeSum_carries_pos.mpr ⟨j, hj, hkey, hb⟩
      omega
    · next hkey => exact hother hkey
  · next hone =>
    by_cases hkey : i.pubkey = k
    · subst hkey
      obtain ⟨j, hj, hjkey, hjbls⟩ := stakeSum_carries_pos.mp
        (by omega : 0 < stakeSum StakeItem.carries l i.pubkey)
      have hsame : i.bls = j.bls := hok.oneKey i mem_cons_self j
        (mem_cons_of_mem _ hj) hjkey.symm hne hjbls
      rw [hrep.bls]
      simp only [mem_cons, exists_eq_or_imp, true_and]
      grind
    · exact hother hkey

theorem UtxoStake.subBls_utxo (s : UtxoStake) (k : CPubKey) : (s.subBls k).utxo = s.utxo := by
  unfold UtxoStake.subBls
  split
  · rfl
  · split <;> rfl

theorem StakeRep.sub_tranches (hok : StakeOk (i :: l)) (hrep : StakeRep s (i :: l)) (k : CPubKey)
    (h : ℕ) :
    cell (rowUpdate s.tranches i.pubkey fun row => subTranche row i.height i.amount) k h =
      nonzero (stakeSum (StakeItem.amountAt h) l k) := by
  have hamount := hok.amount_pos i mem_cons_self
  have hcell : ∀ k h, cell s.tranches k h = nonzero
      ((if i.pubkey = k then i.amountAt h else 0) + stakeSum (StakeItem.amountAt h) l k) := by
    simpa only [stakeSum_cons] using hrep.tranches
  rw [cell_rowUpdate]
  split
  · next hkey =>
    subst hkey
    cases hrow : s.tranches[i.pubkey]? with
    | none =>
      have := hcell i.pubkey i.height
      rw [cell, hrow, if_pos rfl, StakeItem.amountAt, if_pos rfl, nonzero_of_pos (by omega)] at this
      cases this
    | some row =>
      have hcounts : Counts row fun h =>
          (if i.height = h then i.amount else 0) + stakeSum (StakeItem.amountAt h) l i.pubkey := by
        intro h
        have := hcell i.pubkey h
        rwa [cell, hrow, if_pos rfl] at this
      rw [Option.bind_some, subTranche, hcounts.getElem?_self hamount]
      simp only [Nat.add_sub_cancel_left]
      exact hcounts.subAt h
  · next hkey => rw [hcell, if_neg hkey, Nat.zero_add]

theorem BlsRep.erase (hbls : BlsRep s l) (hnone : ∀ i ∈ l, i.pubkey ≠ k) :
    Counts (s.blsUtxoOutputs.erase k) (stakeSum StakeItem.carries l) ∧
      ∀ a b, (s.blsUtxo.erase k)[a]? = some b ↔ b ≠ [] ∧ ∃ i ∈ l, i.pubkey = a ∧ i.bls = b := by
  constructor
  · intro a
    rw [getElem?_erase_eq]
    split
    · next heq =>
      have hzero : stakeSum StakeItem.carries l a = 0 := by
        refine Nat.eq_zero_of_not_pos fun hpos => ?_
        obtain ⟨i, hi, hkey, -⟩ := stakeSum_carries_pos.mp hpos
        exact hnone i hi (hkey.trans heq.symm)
      rw [hzero]
      rfl
    · exact hbls.outputs a
  · intro a b
    rw [getElem?_erase_eq]
    split
    · next heq =>
      refine iff_of_false (by simp) ?_
      rintro ⟨-, i, hi, hkey, -⟩
      exact hnone i hi (hkey.trans heq.symm)
    · exact hbls.bls a b

/-- Subtracting a staking output follows the bag. -/
theorem StakeRep.sub (hok : StakeOk (i :: l)) (hrep : StakeRep s (i :: l)) :
    StakeRep (s.sub i) l := by
  have hutxo : Counts s.utxo fun a =>
      (if i.pubkey = a then i.amount else 0) + stakeSum StakeItem.amount l a := by
    simpa only [stakeSum_cons] using hrep.utxo
  have hw := hutxo.getElem?_self (hok.amount_pos i mem_cons_self)
  have hsub := hutxo.subAt
  have htranches := hrep.sub_tranches hok
  have hnoEmptyRow := hrep.noEmptyRow.rowUpdate i.pubkey fun row =>
    subTranche row i.height i.amount
  have hbls : BlsRep (if i.bls.isEmpty then s else s.subBls i.pubkey) l := by
    split
    · next hempty => exact hrep.blsRep_of_empty (isEmpty_iff.mp hempty)
    · next hempty => exact hrep.blsRep_subBls hok fun h => hempty (isEmpty_iff.mpr h)
  have hsame : (if i.bls.isEmpty then s else s.subBls i.pubkey).utxo = s.utxo := by
    split
    · rfl
    · exact s.subBls_utxo i.pubkey
  simp only [UtxoStake.sub, hw, Nat.not_lt.mpr (Nat.le_add_right _ _), if_false,
    Nat.add_sub_cancel_left, hsame]
  split
  · next hzero =>
    obtain ⟨houtputs, hkeys⟩ := hbls.erase (stakeSum_amount_zero hok.tail hzero)
    exact ⟨by simpa only [if_pos hzero] using hsub, htranches, hnoEmptyRow, houtputs, hkeys⟩
  · next hzero =>
    exact ⟨by simpa only [if_neg hzero] using hsub, htranches, hnoEmptyRow, hbls.outputs, hbls.bls⟩

def stakeSummary : BagSummary UtxoStake StakeItem where
  empty := ⟨∅, ∅, ∅, ∅⟩
  add := UtxoStake.add
  sub := UtxoStake.sub
  Ok := StakeOk
  Rep := StakeRep
  ok_perm := StakeOk.perm
  ok_tail := StakeOk.tail
  rep_empty := ⟨fun _ => by simp [stakeSum, nonzero], fun _ _ => by simp [cell, stakeSum, nonzero],
    noEmptyRow_empty, fun _ => by simp [stakeSum, nonzero], fun _ _ => by simp⟩
  rep_perm _ := StakeRep.perm
  rep_add := StakeRep.add
  rep_sub := StakeRep.sub
  rep_unique := StakeRep.unique

end Sequentia
