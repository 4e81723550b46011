import Mathlib.Algebra.Order.BigOperators.Group.List
import Mathlib.Algebra.Order.Ring.Int

/-!
# Weighted quorums

Voters carry weights. What two sets of voters weigh together exceeds the weight of all by
at most the weight of those in both.
-/

namespace Quorums

open List

variable {α : Type*} {f : α → ℤ} {p q : α → Bool} {l : List α}

/-- The weight of the voters that satisfy a predicate. -/
def weightOf (f : α → ℤ) (p : α → Bool) (l : List α) : ℤ := ((l.filter p).map f).sum

theorem weightOf_cons (f : α → ℤ) (p : α → Bool) (a : α) (l : List α) :
    weightOf f p (a :: l) = (if p a then f a else 0) + weightOf f p l := by
  rw [weightOf, filter_cons]
  split
  · rw [map_cons, sum_cons, weightOf]
  · rw [Int.zero_add, weightOf]

/-- Two sets of voters overlap in what they weigh beyond the whole. -/
theorem weightOf_add_le (hnonneg : ∀ a ∈ l, 0 ≤ f a) :
    weightOf f p l + weightOf f q l ≤ (l.map f).sum + weightOf f (fun a => p a && q a) l := by
  induction l with
  | nil => simp [weightOf]
  | cons a l ih =>
    have ha := hnonneg a mem_cons_self
    have hrest := ih fun b hb => hnonneg b (mem_cons_of_mem _ hb)
    simp only [weightOf_cons, map_cons, sum_cons]
    cases p a <;> cases q a <;> simp <;> omega

/-- Setting voters aside costs at most what they weigh. -/
theorem weightOf_le_add (hnonneg : ∀ a ∈ l, 0 ≤ f a) :
    weightOf f q l ≤ weightOf f (fun a => q a && !p a) l + weightOf f p l := by
  induction l with
  | nil => simp [weightOf]
  | cons a l ih =>
    have ha := hnonneg a mem_cons_self
    have hrest := ih fun b hb => hnonneg b (mem_cons_of_mem _ hb)
    simp only [weightOf_cons]
    cases p a <;> cases q a <;> simp <;> omega

theorem one_le_weightOf (hpos : ∀ a ∈ l, 0 < f a) (hsome : ∃ a ∈ l, p a = true) :
    1 ≤ weightOf f p l := by
  obtain ⟨a, ha, hp⟩ := hsome
  induction l with
  | nil => simp at ha
  | cons b l ih =>
    have hb := hpos b mem_cons_self
    have hrest : ∀ c ∈ l, 0 < f c := fun c hc => hpos c (mem_cons_of_mem _ hc)
    have hnonneg : 0 ≤ weightOf f p l :=
      sum_nonneg (by
        intro w hw
        obtain ⟨c, hc, rfl⟩ := mem_map.mp hw
        exact (hrest c (mem_of_mem_filter hc)).le)
    rw [weightOf_cons]
    rcases mem_cons.mp ha with rfl | hmem
    · rw [if_pos hp]
      omega
    · have hle := ih hrest hmem
      split <;> omega

theorem exists_of_pos_weightOf (hpos : 0 < weightOf f p l) : ∃ a ∈ l, p a = true := by
  by_contra hnone
  push Not at hnone
  have hfilter : l.filter p = [] := filter_eq_nil_iff.mpr hnone
  simp [weightOf, hfilter] at hpos

end Quorums
