import Sequentia.Fees.FeeTotals

/-!
# Fees in range

Beyond exact sums, the mempool means its fees to be at the current rates, in the range admission
enforces and free of overflow. The module says so for a whole mempool and shows that removals,
additions and prioritisations keep it, as long as the values with the deltas add up to a 64-bit
number.
-/

namespace Sequentia

open Finset

variable {Txid : Type} [DecidableEq Txid]

namespace FeePool

section Invariant

variable (G : TxGraph Txid) (s : FeePool Txid)

def budget : ℤ := ∑ x ∈ s.mapTx, ((s.entry x).nFeeValue + |s.mapDeltas x|)

/-- No cached fee or total exceeds a 64-bit number. -/
structure TotalsFit : Prop where
  total : |s.totalFee| ≤ int64Max
  modified : ∀ x ∈ s.mapTx, |(s.entry x).modifiedFee| ≤ int64Max
  withAncestors : ∀ x ∈ s.mapTx, |(s.entry x).nModFeesWithAncestors| ≤ int64Max
  withDescendants : ∀ x ∈ s.mapTx, |(s.entry x).nModFeesWithDescendants| ≤ int64Max

/-- The cached fees are as the mempool means them to be: values at the current rates and in the
range of admission, sums over exactly the ancestors and descendants, nothing worthless, no
overflow. -/
structure FeesExact : Prop where
  value : ∀ x ∈ s.mapTx,
    (s.entry x).nFeeValue = convertAmountToValue s.rates (G.fee x) (G.feeAsset x)
  inRange : ∀ x ∈ s.mapTx, 0 ≤ (s.entry x).nFeeValue ∧ (s.entry x).nFeeValue ≤ G.maxMoney
  modified : ∀ x ∈ s.mapTx, (s.entry x).modifiedFee = (s.entry x).nFeeValue + s.mapDeltas x
  withAncestors : ∀ x ∈ s.mapTx, (s.entry x).nModFeesWithAncestors =
    ∑ y ∈ s.mapTx with y = x ∨ y ∈ G.ancestors x, (s.entry y).modifiedFee
  withDescendants : ∀ x ∈ s.mapTx, (s.entry x).nModFeesWithDescendants =
    ∑ y ∈ s.mapTx with y = x ∨ x ∈ G.ancestors y, (s.entry y).modifiedFee
  total : s.totalFee = ∑ x ∈ s.mapTx, (s.entry x).nFeeValue
  priced : ∀ x ∈ s.mapTx, ¬ s.Worthless G x
  fits : s.TotalsFit

/-- What runs keep, with a bound on what the values and deltas add up to. -/
structure Sound (bound : ℤ) : Prop where
  consistent : s.Consistent G
  value : ∀ x ∈ s.mapTx, (s.entry x).nFeeValue = G.feeValue s.rates x
  pos : ∀ x ∈ s.mapTx, 0 < (s.entry x).nFeeValue
  le : ∀ x ∈ s.mapTx, (s.entry x).nFeeValue ≤ G.maxMoney
  budget_le : s.budget ≤ bound

end Invariant

variable {G : TxGraph Txid} {s : FeePool Txid} {bound : ℤ} {x : Txid}

theorem Consistent.totalsFit (hs : s.Consistent G)
    (hnonneg : ∀ x ∈ s.mapTx, 0 ≤ (s.entry x).nFeeValue) (hbudget : s.budget ≤ int64Max) :
    s.TotalsFit := by
  have hmodified : ∀ x ∈ s.mapTx, |(s.entry x).modifiedFee| ≤
      (s.entry x).nFeeValue + |s.mapDeltas x| := by
    intro x hx
    rw [hs.modified x hx]
    refine (abs_add_le _ _).trans ?_
    rw [abs_of_nonneg (hnonneg x hx)]
  have hselected : ∀ (p : Txid → Prop) [DecidablePred p],
      |∑ y ∈ s.mapTx with p y, (s.entry y).modifiedFee| ≤ int64Max :=
    fun p _ => (FilteredSums.abs_sum_le hmodified).trans hbudget
  refine ⟨?_, fun x hx => ?_, fun x hx => ?_, fun x hx => ?_⟩
  · rw [hs.total, abs_of_nonneg (sum_nonneg hnonneg)]
    refine le_trans (sum_le_sum fun x _ => ?_) hbudget
    exact le_add_of_nonneg_right (abs_nonneg _)
  · refine (hmodified x hx).trans (le_trans ?_ hbudget)
    refine single_le_sum (f := fun x => (s.entry x).nFeeValue + |s.mapDeltas x|)
      (fun y hy => add_nonneg (hnonneg y hy) (abs_nonneg _)) hx
  · rw [hs.withAncestors x hx]
    exact hselected _
  · rw [hs.withDescendants x hx]
    exact hselected _

/-- Outside a reorganisation every entry is linked to all its ancestors. -/
theorem Sound.feesExact (hs : s.Sound G bound) (hbound : bound ≤ int64Max)
    (hlinked : s.unlinked = []) : s.FeesExact G := by
  have hiff : ∀ y z, G.Linked s y z ↔ y ∈ G.ancestors z := by
    intro y z
    simp [TxGraph.Linked, hlinked]
  refine ⟨hs.value, fun x hx => ⟨(hs.pos x hx).le, hs.le x hx⟩, hs.consistent.modified, ?_, ?_,
    hs.consistent.total, fun x hx hworthless => ?_,
    hs.consistent.totalsFit (fun x hx => (hs.pos x hx).le) (hs.budget_le.trans hbound)⟩
  · intro x hx
    simp only [← hiff]
    exact hs.consistent.withAncestors x hx
  · intro x hx
    simp only [← hiff]
    exact hs.consistent.withDescendants x hx
  · have hpos := hs.pos x hx
    rw [hs.value x hx] at hpos
    exact absurd hworthless.2 (by omega)

/-- Entries have been removed; values, rates and deltas are as before. -/
structure Reduced (s t : FeePool Txid) : Prop where
  mapTx : t.mapTx ⊆ s.mapTx
  value : ∀ z, (t.entry z).nFeeValue = (s.entry z).nFeeValue
  rates : t.rates = s.rates
  mapDeltas : t.mapDeltas = s.mapDeltas

omit [DecidableEq Txid] in
theorem Reduced.refl (s : FeePool Txid) : Reduced s s :=
  ⟨Finset.Subset.refl _, fun _ => rfl, rfl, rfl⟩

omit [DecidableEq Txid] in
theorem Reduced.trans {t u : FeePool Txid} (hst : Reduced s t) (htu : Reduced t u) :
    Reduced s u :=
  ⟨htu.mapTx.trans hst.mapTx, fun z => (htu.value z).trans (hst.value z),
    htu.rates.trans hst.rates, htu.mapDeltas.trans hst.mapDeltas⟩

/-- `RemoveStaged` only removes. -/
theorem reduced_removeStaged (stage : Finset Txid) (updateDescendants : Bool) :
    Reduced s (s.removeStaged G stage updateDescendants) := by
  refine ⟨sdiff_subset, fun z => ?_, rfl, rfl⟩
  cases updateDescendants <;> rfl

theorem Sound.reduced {t : FeePool Txid} (hs : s.Sound G bound) (hreduced : Reduced s t)
    (hconsistent : t.Consistent G) : t.Sound G bound := by
  have hmem : ∀ x ∈ t.mapTx, x ∈ s.mapTx := fun x hx => hreduced.mapTx hx
  refine ⟨hconsistent, fun x hx => ?_, fun x hx => ?_, fun x hx => ?_, ?_⟩
  · rw [hreduced.value, hreduced.rates]
    exact hs.value x (hmem x hx)
  · rw [hreduced.value]
    exact hs.pos x (hmem x hx)
  · rw [hreduced.value]
    exact hs.le x (hmem x hx)
  · refine le_trans ?_ hs.budget_le
    unfold budget
    simp only [hreduced.value, hreduced.mapDeltas]
    exact sum_le_sum_of_subset_of_nonneg hreduced.mapTx
      fun x hx _ => add_nonneg (hs.pos x hx).le (abs_nonneg _)

/-- Removal with descendants keeps a mempool sound. -/
theorem Sound.removeRecursive (hs : s.Sound G bound) (hlinks : s.unlinked = s.vHashUpdate)
    (roots : Finset Txid) : (s.removeRecursive G roots).Sound G bound :=
  hs.reduced (reduced_removeStaged _ _) (hs.consistent.removeRecursive hlinks)

/-- A delta that belongs to no entry does not matter. -/
theorem Sound.setDelta (hs : s.Sound G bound) (hx : x ∉ s.mapTx) (delta : ℤ) :
    ({ s with mapDeltas := Function.update s.mapDeltas x delta } : FeePool Txid).Sound G
      bound := by
  have hsame : ∀ z ∈ s.mapTx, Function.update s.mapDeltas x delta z = s.mapDeltas z :=
    fun z hz => Function.update_of_ne (ne_of_mem_of_not_mem hz hx) _ _
  refine ⟨⟨fun z hz => ?_, hs.consistent.withAncestors, hs.consistent.withDescendants,
    hs.consistent.total⟩, hs.value, hs.pos, hs.le, ?_⟩
  · exact (hs.consistent.modified z hz).trans (congrArg _ (hsame z hz).symm)
  · refine le_of_eq_of_le (sum_congr rfl fun z hz => ?_) hs.budget_le
    rw [← hsame z hz]

/-- A removed transaction is no longer an entry. -/
theorem not_mem_removeRecursive {roots : Finset Txid} (hx : x ∈ roots) :
    x ∉ (s.removeRecursive G roots).mapTx := by
  intro hmem
  obtain ⟨hx', hnot⟩ := mem_sdiff.mp hmem
  exact hnot (mem_filter.mpr ⟨hx', x, hx, .inl rfl⟩)

/-- A loop of removals with descendants only removes, takes out everything on its list and keeps
the sums exact. -/
theorem evict_spec (hs : s.Consistent G) (hlinks : s.unlinked = s.vHashUpdate)
    (evicted : List Txid) :
    Reduced s (s.evict G evicted) ∧ (s.evict G evicted).Consistent G ∧
      (∀ x ∈ evicted, x ∉ (s.evict G evicted).mapTx) ∧
      (s.evict G evicted).unlinked = s.unlinked ∧
      (s.evict G evicted).vHashUpdate = s.vHashUpdate := by
  induction evicted generalizing s with
  | nil => exact ⟨.refl s, hs, fun x hx => absurd hx List.not_mem_nil, rfl, rfl⟩
  | cons x evicted ih =>
    by_cases hx : x ∈ s.mapTx
    · have hreduced : Reduced s (s.removeRecursive G {x}) := reduced_removeStaged _ _
      obtain ⟨hrest, hconsistent, hgone, hlinks'⟩ := ih (hs.removeRecursive hlinks) hlinks
      have heq : s.evict G (x :: evicted) = (s.removeRecursive G {x}).evict G evicted := by
        simp [FeePool.evict, hx]
      rw [heq]
      refine ⟨hreduced.trans hrest, hconsistent, fun y hy => ?_, hlinks'⟩
      rcases List.mem_cons.mp hy with rfl | hy
      · exact fun h => not_mem_removeRecursive (mem_singleton_self y) (hrest.mapTx h)
      · exact hgone y hy
    · obtain ⟨hrest, hconsistent, hgone, hlinks'⟩ := ih hs hlinks
      have heq : s.evict G (x :: evicted) = s.evict G evicted := by simp [FeePool.evict, hx]
      rw [heq]
      refine ⟨hrest, hconsistent, fun y hy => ?_, hlinks'⟩
      rcases List.mem_cons.mp hy with rfl | hy
      · exact fun h => hx (hrest.mapTx h)
      · exact hgone y hy

/-- `removeForBlock` keeps a mempool sound. -/
theorem Sound.removeForBlock (hs : s.Sound G bound) :
    (s.removeForBlock G x).Sound G bound := by
  unfold FeePool.removeForBlock
  split
  · next hx =>
    have hsub : {x} ⊆ s.mapTx := singleton_subset_iff.mpr hx
    refine (hs.reduced (reduced_removeStaged _ _)
      (hs.consistent.removeStaged hsub (.inl rfl))).setDelta ?_ 0
    exact fun h => (mem_sdiff.mp h).2 (mem_singleton_self x)
  · next hx => exact hs.setDelta hx 0

/-- `removeConflicts` keeps a mempool sound, although it forgets the delta first. -/
theorem Sound.removeConflict (hs : s.Sound G bound)
    (hlinks : s.unlinked = s.vHashUpdate) : (s.removeConflict G x).Sound G bound := by
  have heq : s.removeConflict G x = (s.removeRecursive G {x}).clearPrioritisation x := rfl
  rw [heq]
  exact (hs.removeRecursive hlinks {x}).setDelta
    (not_mem_removeRecursive (mem_singleton_self x)) 0

/-- Adding a priced transaction that the budget has room for keeps a mempool sound. -/
theorem Sound.addUnchecked (hs : s.Sound G bound) (hx : x ∉ s.mapTx)
    (hdesc : ∀ z ∈ s.mapTx, ¬ G.Linked s x z) (hpos : 0 < G.feeValue s.rates x)
    (hle : G.feeValue s.rates x ≤ G.maxMoney)
    (hroom : bound + (G.feeValue s.rates x + |s.mapDeltas x|) ≤ int64Max) :
    (s.addUnchecked G x (G.feeValue s.rates x)).Sound G
      (bound + (G.feeValue s.rates x + |s.mapDeltas x|)) := by
  have hbudget : 0 ≤ s.budget :=
    sum_nonneg fun y hy => add_nonneg (hs.pos y hy).le (abs_nonneg _)
  have hbound := hs.budget_le
  have hfee : saturatingAdd (G.feeValue s.rates x) (s.mapDeltas x) =
      G.feeValue s.rates x + s.mapDeltas x := by
    have habs := abs_le.mp (le_refl |s.mapDeltas x|)
    exact saturatingAdd_eq (by omega) (by omega)
  have hself := entry_addUnchecked_self (G := G) hfee
  have hother : ∀ z ∈ s.mapTx, ((s.addUnchecked G x (G.feeValue s.rates x)).entry z).nFeeValue =
      (s.entry z).nFeeValue := by
    intro z hz
    rw [entry_addUnchecked_of_ne (ne_of_mem_of_not_mem hz hx) hfee]
    split <;> rfl
  refine ⟨hs.consistent.addUnchecked hx hdesc hfee, fun z hz => ?_, fun z hz => ?_,
    fun z hz => ?_, ?_⟩
  · rcases mem_insert.mp hz with rfl | hz
    · rw [hself]
      rfl
    · exact (hother z hz).trans (hs.value z hz)
  · rcases mem_insert.mp hz with rfl | hz
    · rw [hself]
      exact hpos
    · rw [hother z hz]
      exact hs.pos z hz
  · rcases mem_insert.mp hz with rfl | hz
    · rw [hself]
      exact hle
    · rw [hother z hz]
      exact hs.le z hz
  · show ∑ z ∈ insert x s.mapTx, (_ + |s.mapDeltas z|) ≤ _
    have hold : ∑ z ∈ s.mapTx, (((s.addUnchecked G x (G.feeValue s.rates x)).entry z).nFeeValue +
        |s.mapDeltas z|) = s.budget := sum_congr rfl fun z hz => by rw [hother z hz]
    rw [sum_insert hx, hold, hself]
    dsimp only
    omega

/-- `PrioritiseTransaction` touches no fee value. -/
theorem nFeeValue_prioritiseTransaction (x z : Txid) (d : ℤ) :
    ((s.prioritiseTransaction G x d).entry z).nFeeValue = (s.entry z).nFeeValue := by
  unfold FeePool.prioritiseTransaction
  dsimp only
  split
  · rw [nFeeValue_updateRelatives]
    by_cases hz : z = x
    · rw [hz, entry_modify_self]
      rfl
    · rw [entry_modify_of_ne _ hz]
  · rfl

/-- What else it leaves as it is, and the delta it sets. -/
theorem prioritiseTransaction_frame (x : Txid) (d : ℤ) :
    s.prioritiseTransaction G x d = { s with
      entry := (s.prioritiseTransaction G x d).entry
      mapDeltas := Function.update s.mapDeltas x (saturatingAdd (s.mapDeltas x) d) } := by
  unfold FeePool.prioritiseTransaction
  dsimp only
  split <;> rfl

theorem Sound.prioritiseTransaction {d : ℤ} (hs : s.Sound G bound)
    (hbound : bound ≤ int64Max)
    (hroom : x ∈ s.mapTx → s.budget - |s.mapDeltas x| + |s.mapDeltas x + d| ≤ int64Max) :
    (s.prioritiseTransaction G x d).Sound G int64Max := by
  have hframe := prioritiseTransaction_frame (G := G) (s := s) x d
  have hmap : (s.prioritiseTransaction G x d).mapTx = s.mapTx := by rw [hframe]
  have hrates : (s.prioritiseTransaction G x d).rates = s.rates := by rw [hframe]
  have hdeltas : (s.prioritiseTransaction G x d).mapDeltas =
      Function.update s.mapDeltas x (saturatingAdd (s.mapDeltas x) d) := by rw [hframe]
  have hrest : (s.prioritiseTransaction G x d).Consistent G ∧
      (s.prioritiseTransaction G x d).budget ≤ int64Max := by
    by_cases hx : x ∈ s.mapTx
    · have hroom := hroom hx
      have hothers : 0 ≤ ∑ z ∈ s.mapTx.erase x, ((s.entry z).nFeeValue + |s.mapDeltas z|) :=
        sum_nonneg fun y hy =>
          add_nonneg (hs.pos y (mem_of_mem_erase hy)).le (abs_nonneg _)
      have hsplit : (s.entry x).nFeeValue + |s.mapDeltas x| +
          ∑ z ∈ s.mapTx.erase x, ((s.entry z).nFeeValue + |s.mapDeltas z|) = s.budget :=
        add_sum_erase s.mapTx (fun z => (s.entry z).nFeeValue + |s.mapDeltas z|) hx
      have hpos := hs.pos x hx
      have habs := abs_le.mp (le_refl |s.mapDeltas x + d|)
      have hdelta : saturatingAdd (s.mapDeltas x) d = s.mapDeltas x + d :=
        saturatingAdd_eq (by omega) (by omega)
      have hmodified := hs.consistent.modified x hx
      refine ⟨hs.consistent.prioritiseTransaction hx hdelta
        (saturatingAdd_eq (by omega) (by omega)), ?_⟩
      unfold budget
      rw [hmap, hdeltas, hdelta, ← add_sum_erase _ _ hx]
      simp only [nFeeValue_prioritiseTransaction, Function.update_self]
      have hsame : ∑ z ∈ s.mapTx.erase x, ((s.entry z).nFeeValue +
          |Function.update s.mapDeltas x (s.mapDeltas x + d) z|) =
          ∑ z ∈ s.mapTx.erase x, ((s.entry z).nFeeValue + |s.mapDeltas z|) :=
        sum_congr rfl fun z hz => by
          rw [Function.update_of_ne (ne_of_mem_erase hz)]
      rw [hsame]
      omega
    · unfold FeePool.prioritiseTransaction
      dsimp only
      rw [if_neg hx]
      have hset := hs.setDelta hx (saturatingAdd (s.mapDeltas x) d)
      exact ⟨hset.consistent, hset.budget_le.trans hbound⟩
  refine ⟨hrest.1, fun z hz => ?_, fun z hz => ?_, fun z hz => ?_, hrest.2⟩
  · rw [nFeeValue_prioritiseTransaction, hrates]
    exact hs.value z (hmap ▸ hz)
  · rw [nFeeValue_prioritiseTransaction]
    exact hs.pos z (hmap ▸ hz)
  · rw [nFeeValue_prioritiseTransaction]
    exact hs.le z (hmap ▸ hz)

end FeePool

end Sequentia
