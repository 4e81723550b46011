import Sequentia.Mining.Assembler

/-!
# The modified set

For a transaction of the modified set the recorded totals are those of the transaction and of its
ancestors that are not in the block. This needs two things of each package that is added. Two code
paths take an ancestor off the totals, and for an entry that is already in the set it is the fee
without the prioritisation that is taken off. And an entry that failed and left the set may come
back with the totals of the mempool, which know nothing of the ancestors added before.
-/

namespace Sequentia.Mining

open Remainders List

variable {limits : AssemblerLimits} {pool : CTxMemPool} {n m : BlockAssembler} {k : Quantity}
  {d : Uint256}

/-- What `update_for_parent_inclusion` takes off. -/
def Quantity.afterwards : Quantity → CTxMemPoolEntry → ℤ
  | size, e => e.txSize
  | discountSize, e => e.discountTxSize
  | modFees, e => e.nFeeValue
  | sigOpCost, e => e.sigOpCost

theorem kept_modifiedEntry : k.kept (pool.modifiedEntry d) = pool.withAncestors k d := by
  cases k <;> rfl

theorem kept_updateDescendant (modified : Option CTxMemPoolModifiedEntry) (it : Uint256) :
    (pool.updateDescendant d modified it).map k.kept =
      take (fun y => k.of (pool.entry y)) (fun y => k.afterwards (pool.entry y))
        (pool.withAncestors k d) (modified.map k.kept) it := by
  cases modified <;> cases k <;> rfl

theorem kept_foldl_updateDescendant (l : List Uint256) (modified : Option CTxMemPoolModifiedEntry) :
    (l.foldl (pool.updateDescendant d) modified).map k.kept =
      l.foldl (take (fun y => k.of (pool.entry y)) (fun y => k.afterwards (pool.entry y))
        (pool.withAncestors k d)) (modified.map k.kept) := by
  induction l generalizing modified with
  | nil => rfl
  | cons it l ih => rw [foldl_cons, foldl_cons, ih, kept_updateDescendant]

variable {added ancestors sortedEntries : List Uint256} {x : Uint256} {usingModified : Bool}

/-- `UpdatePackagesForAdded` for one transaction outside the package. -/
theorem updatePackagesForAdded_apply (modified : Uint256 → Option CTxMemPoolModifiedEntry)
    (hd : d ∉ added) :
    pool.updatePackagesForAdded added modified d =
      (added.filter (· ∈ pool.ancestors d)).foldl (pool.updateDescendant d) (modified d) := by
  unfold CTxMemPool.updatePackagesForAdded
  have hfold : ∀ (l : List Uint256) (modified : Uint256 → Option CTxMemPoolModifiedEntry),
      l.foldl (fun modified it desc => if it ∈ pool.ancestors desc ∧ desc ∉ added then
        pool.updateDescendant desc (modified desc) it else modified desc) modified d =
      (l.filter (· ∈ pool.ancestors d)).foldl (pool.updateDescendant d) (modified d) := by
    intro l
    induction l with
    | nil => exact fun _ => rfl
    | cons it l ih =>
      intro modified
      rw [foldl_cons, ih]
      by_cases hit : it ∈ pool.ancestors d
      · rw [filter_cons_of_pos (by simpa using hit), foldl_cons, if_pos ⟨hit, hd⟩]
      · rw [filter_cons_of_neg (by simpa using hit), if_neg fun h => hit h.1]
  exact hfold added modified

/-- Transactions of the package are left alone. -/
theorem updatePackagesForAdded_of_mem (modified : Uint256 → Option CTxMemPoolModifiedEntry)
    (hd : d ∈ added) : pool.updatePackagesForAdded added modified d = modified d := by
  unfold CTxMemPool.updatePackagesForAdded
  refine List.foldlRecOn (motive := fun f : Uint256 → Option CTxMemPoolModifiedEntry =>
    f d = modified d) added _ rfl fun f hf it _ => ?_
  rw [if_neg fun h => h.2 hd]
  exact hf

/-- The totals of the modified set are exact. -/
structure ModifiedInv (pool : CTxMemPool) (n : BlockAssembler) : Prop where
  closed : ∀ x ∈ n.inBlock, pool.ancestors x ⊆ n.inBlock
  exact_totals : ∀ k d e, n.mapModifiedTx d = some e →
    Quantity.kept k e =
      remainder pool.ancestors (fun y => k.of (pool.entry y)) n.inBlock d

/-- The condition on a step. A transaction of the package that has descendants outside of it is not
prioritised, and no descendant enters the modified set that has ancestors in the block already. -/
def Unprioritised (pool : CTxMemPool) (n : BlockAssembler) : AssemblyEvent → Prop
  | .submission _ _ => True
  | .evaluate x _ _ _ _ _ =>
    (∀ it ∈ n.package pool x, ∀ d ∉ n.package pool x, it ∈ pool.ancestors d →
      (pool.entry it).nFeeValue = (pool.entry it).modifiedFee) ∧
    ∀ it ∈ n.package pool x, ∀ d ∉ n.package pool x, it ∈ pool.ancestors d →
      n.mapModifiedTx d = none → Disjoint (pool.ancestors d) n.inBlock

theorem package_disjoint (pool : CTxMemPool) (hfresh : x ∉ n.inBlock) :
    Disjoint n.inBlock (n.package pool x) := by
  rw [BlockAssembler.package, Finset.disjoint_insert_right]
  exact ⟨hfresh, Finset.disjoint_sdiff⟩

/-- The ancestors taken off are those in the package. -/
theorem sum_map_filter (hnodup : added.Nodup) (q : Uint256 → ℤ) (test : Uint256 → Prop)
    [DecidablePred test] :
    ((added.filter (decide <| test ·)).map q).sum = ∑ y ∈ added.toFinset.filter test, q y := by
  rw [← sum_toFinset _ (hnodup.filter _), toFinset_filter]
  simp only [decide_eq_true_eq]

theorem addPackage_inBlock : (n.addPackage pool ancestors sortedEntries).inBlock =
      n.inBlock ∪ sortedEntries.toFinset := by
  simp only [BlockAssembler.addPackage, foldl_addToBlock]

theorem Adds.toFinset_sorted
    (hadds : Adds limits pool n m x usingModified ancestors sortedEntries) :
    sortedEntries.toFinset = n.package pool x := by
  rw [← hadds.package.2]
  exact toFinset_eq_of_perm _ _ hadds.sorted

theorem closed_of_adds (hclosed : ∀ x ∈ n.inBlock, pool.ancestors x ⊆ n.inBlock)
    (hadds : Adds limits pool n m x usingModified ancestors sortedEntries) :
    ∀ y ∈ m.inBlock, pool.ancestors y ⊆ m.inBlock := by
  have hblock : m.inBlock = n.inBlock ∪ n.package pool x := by
    rw [hadds.eq, addPackage_inBlock, hadds.toFinset_sorted]
  have hx : pool.ancestors x ⊆ m.inBlock := by
    intro y hy
    rw [hblock, Finset.mem_union]
    by_cases hin : y ∈ n.inBlock
    · exact .inl hin
    · exact .inr (Finset.mem_insert_of_mem (Finset.mem_sdiff.mpr ⟨hy, hin⟩))
  intro y hy
  rw [hblock, Finset.mem_union, BlockAssembler.package, Finset.mem_insert, Finset.mem_sdiff] at hy
  rcases hy with hy | rfl | ⟨hy, -⟩
  · rw [hblock]
    exact (hclosed y hy).trans Finset.subset_union_left
  · exact hx
  · exact (pool.ancestors_trans x y hy).trans hx

/-- What a package does to the totals of an entry that is in the modified set afterwards: they start
from what they were, or from those of the mempool, and lose the ancestors in the package. -/
theorem Adds.kept_eq (hadds : Adds limits pool n m x usingModified ancestors sortedEntries)
    (hsame : ∀ it ∈ n.package pool x, d ∉ n.package pool x → it ∈ pool.ancestors d →
      k.afterwards (pool.entry it) = k.of (pool.entry it)) {e : CTxMemPoolModifiedEntry}
    (hd : m.mapModifiedTx d = some e) :
    d ∉ n.package pool x ∧
    k.kept e = ((n.mapModifiedTx d).map k.kept).getD (pool.withAncestors k d) -
      ∑ y ∈ (n.package pool x).filter (· ∈ pool.ancestors d), k.of (pool.entry y) ∧
    (n.mapModifiedTx d = none → ∃ it ∈ n.package pool x, it ∈ pool.ancestors d) := by
  have hmem : ∀ y, y ∈ ancestors ↔ y ∈ n.package pool x := fun y => by
    rw [← hadds.package.2, mem_toFinset]
  simp only [hadds.eq, BlockAssembler.addPackage, foldl_addToBlock] at hd
  by_cases hin : d ∈ ancestors
  · -- What was added has left the modified set.
    rw [updatePackagesForAdded_of_mem _ hin, if_pos (hadds.sorted.mem_iff.mpr hin)] at hd
    cases hd
  rw [updatePackagesForAdded_apply _ hin, if_neg (fun h => hin (hadds.sorted.mem_iff.mp h))] at hd
  have hout : d ∉ n.package pool x := fun h => hin ((hmem d).mpr h)
  have hsame : ∀ it ∈ ancestors.filter (· ∈ pool.ancestors d),
      k.afterwards (pool.entry it) = k.of (pool.entry it) := by
    intro it hit
    obtain ⟨hit, hancestor⟩ := mem_filter.mp hit
    exact hsame it ((hmem it).mp hit) hout (of_decide_eq_true hancestor)
  have hsum := sum_map_filter hadds.package.1 (fun y => k.of (pool.entry y)) (· ∈ pool.ancestors d)
  have hkept := congrArg (Option.map k.kept) hd
  rw [kept_foldl_updateDescendant] at hkept
  rw [← hadds.package.2, ← hsum]
  cases hold : n.mapModifiedTx d with
  | some e₀ =>
    have hmap := map_congr_left hsame
    rw [show ({ n with packages := true } : BlockAssembler).mapModifiedTx d = some e₀ from hold,
      Option.map_some, foldl_take_some, hmap, Option.map_some] at hkept
    exact ⟨fun h => hout (hadds.package.2 ▸ h), (Option.some.inj hkept).symm, by rintro ⟨⟩⟩
  | none =>
    rw [show ({ n with packages := true } : BlockAssembler).mapModifiedTx d = none from hold,
      Option.map_none] at hkept
    have hne : ancestors.filter (· ∈ pool.ancestors d) ≠ [] := by
      intro hnil
      rw [hnil] at hkept
      cases hkept
    obtain ⟨it, hit⟩ := exists_mem_of_ne_nil _ hne
    obtain ⟨hit, hancestor⟩ := mem_filter.mp hit
    rw [foldl_take_none hne hsame, Option.map_some] at hkept
    exact ⟨fun h => hout (hadds.package.2 ▸ h), (Option.some.inj hkept).symm,
      fun _ => ⟨it, mem_toFinset.mpr hit, of_decide_eq_true hancestor⟩⟩

/-- Adding a package that meets the condition keeps the totals exact. -/
theorem ModifiedInv.adds (hinv : ModifiedInv pool n) {transactionsOk rulesOk : Bool}
    (hplain : Unprioritised pool n
      (.evaluate x usingModified transactionsOk rulesOk ancestors sortedEntries))
    (hadds : Adds limits pool n m x usingModified ancestors sortedEntries) :
    ModifiedInv pool m := by
  obtain ⟨hfees, hreturn⟩ := hplain
  refine ⟨closed_of_adds hinv.closed hadds, fun k d e hd => ?_⟩
  have hdisjoint := package_disjoint pool hadds.fresh.2
  have hsame : ∀ it ∈ n.package pool x, d ∉ n.package pool x → it ∈ pool.ancestors d →
      k.afterwards (pool.entry it) = k.of (pool.entry it) := by
    intro it hit hout hancestor
    cases k with
    | modFees => exact hfees it hit d hout hancestor
    | _ => rfl
  obtain ⟨hout, hkept, hnew⟩ := hadds.kept_eq hsame hd
  rw [hadds.eq, addPackage_inBlock, hadds.toFinset_sorted, remainder_union hdisjoint hout, hkept]
  congr 1
  cases hold : n.mapModifiedTx d with
  | some e₀ => exact hinv.exact_totals k d e₀ hold
  | none =>
    obtain ⟨it, hit, hancestor⟩ := hnew hold
    have hfree : Disjoint (insert d (pool.ancestors d)) n.inBlock := by
      rw [Finset.disjoint_insert_left]
      refine ⟨fun hblock => ?_, hreturn it hit d hout hancestor hold⟩
      exact Finset.disjoint_left.mp hdisjoint (hinv.closed d hblock hancestor) hit
    exact (remainder_of_disjoint hfree).symm

/-- Every step that meets the condition keeps the totals exact. -/
theorem ModifiedInv.next (hinv : ModifiedInv pool n) {e : AssemblyEvent}
    (hplain : Unprioritised pool n e) (hnext : n.next limits pool e = some m) :
    ModifiedInv pool m := by
  rcases next_cases hnext with rfl | ⟨s, rfl⟩ | hskips | ⟨_, _, _, _, _, _, rfl, hadds⟩
  · exact hinv
  · unfold BlockAssembler.addSubmission
    split
    · exact hinv
    · exact { hinv with }
  · have hblock : m.inBlock = n.inBlock := by rw [hskips.frame]
    refine ⟨by rw [hblock]; exact hinv.closed, fun k d e hd => ?_⟩
    rw [hblock]
    refine hinv.exact_totals k d e ?_
    rcases hskips.modified d with hnone | hsame
    · rw [hnone] at hd
      cases hd
    · exact hsame ▸ hd
  · exact hinv.adds hplain hadds

/-- A transaction of a hundred bytes with a fee of ten, prioritised by some amount. -/
def smallEntry (delta : ℤ) : CTxMemPoolEntry where
  nFee := 10
  feeAsset := 7
  nFeeValue := 10
  modifiedFee := 10 + delta
  txSize := 100
  discountTxSize := 100
  txWeight := 400
  sigOpCost := 4
  nFee_nonneg := by decide
  txWeight_le := by decide

/-- Transaction 3 spends outputs of the transactions 1 and 2; transaction 2 is prioritised. -/
def twoParents (delta : ℤ) : CTxMemPool where
  txids := {1, 2, 3}
  entry x := smallEntry (if x = 2 then delta else 0)
  ancestors x := if x = 3 then {1, 2} else ∅
  ancestors_subset x := by
    split
    · decide
    · exact Finset.empty_subset _
  ancestors_trans x y hy := by
    split at hy
    · rw [Finset.mem_insert, Finset.mem_singleton] at hy
      rcases hy with rfl | rfl <;> exact Finset.empty_subset _
    · cases hy
  not_mem_ancestors x := by
    split
    · next heq =>
      subst heq
      decide
    · exact Finset.notMem_empty x

/-- Room for a million units of weight. -/
def roomyLimits : AssemblerLimits := ⟨1000000, 0⟩

/-- Both parents are added, one after the other. -/
def addsParents : List AssemblyEvent :=
  [.evaluate 1 false true true [1] [1], .evaluate 2 false true true [2] [2]]

theorem eq_three_of_mem {delta : ℤ} {it d : Uint256} (hit : it ∈ (twoParents delta).ancestors d) :
    d = 3 := by
  by_contra hne
  rw [show (twoParents delta).ancestors d = ∅ from if_neg hne] at hit
  cases hit

end Sequentia.Mining
