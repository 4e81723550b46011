import Mathlib.Algebra.BigOperators.Group.Finset.Basic
import Mathlib.Algebra.Order.BigOperators.Group.Finset
import Mathlib.Algebra.Order.Ring.Int

/-!
# Totals over what is not taken yet

Elements depend on others and are taken one after the other. For an element that is not taken, the
total of a quantity over itself and what it depends on is recorded once the first of them is taken,
and reduced whenever another one is.
-/

namespace Remainders

open List

variable {α : Type*} {q q' : α → ℤ} {whole : ℤ}

/-- Another element is taken: the recorded total starts from the whole, or is reduced. -/
def take (q q' : α → ℤ) (whole : ℤ) (recorded : Option ℤ) (y : α) : Option ℤ :=
  some (match recorded with
    | none => whole - q y
    | some r => r - q' y)

theorem foldl_take_some (l : List α) (r : ℤ) :
    l.foldl (take q q' whole) (some r) = some (r - (l.map q').sum) := by
  induction l generalizing r with
  | nil => simp
  | cons y l ih =>
    rw [foldl_cons, take, ih, map_cons, sum_cons]
    congr 1
    omega

theorem foldl_take_none {l : List α} (hne : l ≠ []) (hsame : ∀ y ∈ l, q' y = q y) :
    l.foldl (take q q' whole) none = some (whole - (l.map q).sum) := by
  cases l with
  | nil => exact absurd rfl hne
  | cons y l =>
    have hmap : l.map q' = l.map q :=
      map_congr_left fun z hz => hsame z (mem_cons_of_mem y hz)
    rw [foldl_cons, take, foldl_take_some, hmap, map_cons, sum_cons]
    congr 1
    omega

variable [DecidableEq α] {deps : α → Finset α} {taken new : Finset α} {x : α}

/-- The total of an element and what it depends on, as far as they are not taken. -/
def remainder (deps : α → Finset α) (q : α → ℤ) (taken : Finset α) (x : α) : ℤ :=
  ∑ y ∈ insert x (deps x) \ taken, q y

/-- With nothing taken, the total is the whole. -/
theorem remainder_of_disjoint (hfree : Disjoint (insert x (deps x)) taken) :
    remainder deps q taken x = ∑ y ∈ insert x (deps x), q y := by
  rw [remainder, Finset.sdiff_eq_self_of_disjoint hfree]

/-- What is taken of the dependencies goes off the total. -/
theorem remainder_union (hdisjoint : Disjoint taken new) (hx : x ∉ new) :
    remainder deps q (taken ∪ new) x =
      remainder deps q taken x - ∑ y ∈ new.filter (· ∈ deps x), q y := by
  have hsub : new.filter (· ∈ deps x) ⊆ insert x (deps x) \ taken := by
    intro y hy
    obtain ⟨hnew, hdep⟩ := Finset.mem_filter.mp hy
    refine Finset.mem_sdiff.mpr ⟨Finset.mem_insert_of_mem hdep, fun htaken => ?_⟩
    exact Finset.disjoint_left.mp hdisjoint htaken hnew
  have hrest : insert x (deps x) \ (taken ∪ new) =
      (insert x (deps x) \ taken) \ new.filter (· ∈ deps x) := by
    ext y
    simp only [Finset.mem_sdiff, Finset.mem_insert, Finset.mem_union, Finset.mem_filter, not_or,
      not_and]
    constructor
    · rintro ⟨hy, htaken, hnew⟩
      exact ⟨⟨hy, htaken⟩, fun h => absurd h hnew⟩
    · rintro ⟨⟨hy, htaken⟩, hnew⟩
      refine ⟨hy, htaken, fun h => ?_⟩
      rcases hy with rfl | hdep
      · exact hx h
      · exact hnew h hdep
  rw [remainder, hrest, Finset.sum_sdiff_eq_sub hsub, remainder]

end Remainders
