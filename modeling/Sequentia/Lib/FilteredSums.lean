import Mathlib.Algebra.BigOperators.Ring.Finset
import Mathlib.Algebra.Order.BigOperators.Group.Finset
import Mathlib.Algebra.Order.Ring.Int

/-!
# Sums over the selected members of a finite set

A cached total is the sum of an amount over those members of a finite set that meet a condition.
The lemmas say how such a sum moves when a member joins or leaves the set, when the amount of one
member changes, and when the condition grows.
-/

namespace FilteredSums

open Finset

variable {α : Type*} {pool : Finset α} {p q : α → Prop} [DecidablePred p]
  [DecidablePred q] {f g : α → ℤ} {z : α}

/-- Only the amounts of the members matter. -/
theorem sum_congr (hfg : ∀ y ∈ pool, f y = g y) :
    ∑ y ∈ pool with p y, f y = ∑ y ∈ pool with p y, g y :=
  Finset.sum_congr rfl fun y hy => hfg y (Finset.mem_of_mem_filter y hy)

/-- Nothing is selected where no member meets the condition. -/
theorem sum_eq_zero (hnone : ∀ y ∈ pool, ¬ p y) : ∑ y ∈ pool with p y, f y = 0 := by
  rw [filter_false_of_mem hnone, sum_empty]

section Members

variable [DecidableEq α]

/-- A new member adds its amount if it meets the condition. -/
theorem sum_insert (hz : z ∉ pool) :
    ∑ y ∈ insert z pool with p y, f y = (if p z then f z else 0) + ∑ y ∈ pool with p y, f y := by
  rw [Finset.sum_filter, Finset.sum_insert hz, Finset.sum_filter]

/-- Members that leave take their amounts with them. -/
theorem sum_sdiff {removed : Finset α} (hsub : removed ⊆ pool) :
    ∑ y ∈ pool \ removed with p y, f y =
      ∑ y ∈ pool with p y, f y - ∑ y ∈ removed with p y, f y := by
  simp only [sum_filter]
  exact sum_sdiff_eq_sub hsub

theorem sum_change {d : ℤ} (hz : z ∈ pool) (hchange : g z = f z + d)
    (hother : ∀ y ∈ pool, y ≠ z → g y = f y) :
    ∑ y ∈ pool with p y, g y = ∑ y ∈ pool with p y, f y + if p z then d else 0 := by
  have hrest : ∑ y ∈ pool.erase z with p y, g y = ∑ y ∈ pool.erase z with p y, f y :=
    sum_congr fun y hy => hother y (mem_of_mem_erase hy) (ne_of_mem_erase hy)
  rw [← insert_erase hz, sum_insert (notMem_erase z pool),
    sum_insert (notMem_erase z pool), hrest, hchange]
  split <;> omega

/-- Conditions that exclude each other select what either selects. -/
theorem sum_or {both : α → Prop} [DecidablePred both] (hboth : ∀ y ∈ pool, both y ↔ p y ∨ q y)
    (hapart : ∀ y ∈ pool, p y → ¬ q y) :
    ∑ y ∈ pool with both y, f y = ∑ y ∈ pool with p y, f y + ∑ y ∈ pool with q y, f y := by
  rw [filter_congr hboth, filter_or, sum_union]
  rw [disjoint_filter]
  exact hapart

/-- At most one member is selected: the sum is its amount, if it is a member. -/
theorem sum_single (hsingle : ∀ y ∈ pool, p y → y = z) :
    ∑ y ∈ pool with p y, f y = if z ∈ pool ∧ p z then f z else 0 := by
  split
  · next hz =>
    refine sum_eq_single_of_mem z (mem_filter.mpr hz) fun y hy hne => ?_
    exact absurd (hsingle y (mem_filter.mp hy).1 (mem_filter.mp hy).2) hne
  · next hz =>
    refine sum_eq_zero fun y hy hp => ?_
    obtain rfl := hsingle y hy hp
    exact hz ⟨hy, hp⟩

end Members

theorem abs_sum_le {bound : α → ℤ} (hbound : ∀ y ∈ pool, |f y| ≤ bound y) :
    |∑ y ∈ pool with p y, f y| ≤ ∑ y ∈ pool, bound y := by
  have hnonneg : ∀ y ∈ pool, 0 ≤ bound y := fun y hy => (abs_nonneg _).trans (hbound y hy)
  calc |∑ y ∈ pool with p y, f y|
      ≤ ∑ y ∈ pool with p y, |f y| := abs_sum_le_sum_abs _ _
    _ ≤ ∑ y ∈ pool with p y, bound y :=
        sum_le_sum fun y hy => hbound y (mem_of_mem_filter y hy)
    _ ≤ ∑ y ∈ pool, bound y :=
        sum_le_sum_of_subset_of_nonneg (filter_subset _ _)
          fun y hy _ => hnonneg y hy

end FilteredSums
