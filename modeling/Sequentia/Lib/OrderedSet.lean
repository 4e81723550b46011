import Mathlib.Data.List.Basic
import Mathlib.Tactic.Common

/-!
# Sets ordered by a comparator

A set that is kept in the order of a comparator, and searched by it: an element is found where
neither it nor the entry is less than the other. The order may read data outside the set. When
the data of an element changes, the element has to be taken out under the old order and put
back under the new one.
-/

namespace OrderedSet

open List

variable {α : Type*} {lt lt' : α → α → Bool}

/-- The comparator is a strict total order on some elements. -/
structure TotalOn (lt : α → α → Bool) (S : α → Prop) : Prop where
  irrefl : ∀ x, S x → lt x x = false
  trans : ∀ x y z, S x → S y → S z → lt x y = true → lt y z = true → lt x z = true
  total : ∀ x y, S x → S y → x ≠ y → lt x y = true ∨ lt y x = true

theorem TotalOn.asymm {S : α → Prop} (h : TotalOn lt S) {x y : α} (hx : S x) (hy : S y)
    (hxy : lt x y = true) : lt y x = false := by
  by_contra hyx
  have hxx := h.trans x y x hx hy hx hxy (by simpa using hyx)
  rw [h.irrefl x hx] at hxx
  cases hxx

/-- The entries stand in order. -/
def Sorted (lt : α → α → Bool) (l : List α) : Prop := l.Pairwise fun x y => lt x y = true

/-- Insertion: an element that is found is not inserted again. -/
def insert (lt : α → α → Bool) (x : α) : List α → List α
  | [] => [x]
  | y :: l => if lt x y then x :: y :: l else if lt y x then y :: insert lt x l else y :: l

/-- Erasing the element that is found. -/
def erase (lt : α → α → Bool) (x : α) : List α → List α
  | [] => []
  | y :: l => if lt y x then y :: erase lt x l else if lt x y then y :: l else l

variable {S : α → Prop} {x z : α} {l : List α}

theorem mem_insert (h : TotalOn lt S) (hx : S x) (hl : ∀ y ∈ l, S y) :
    z ∈ insert lt x l ↔ z = x ∨ z ∈ l := by
  induction l with
  | nil => simp [insert]
  | cons y l ih =>
    have hy := hl y mem_cons_self
    have ih' := ih fun w hw => hl w (mem_cons_of_mem _ hw)
    unfold insert
    split
    · rw [mem_cons]
    · next hxy =>
      split
      · rw [mem_cons, ih', mem_cons]
        exact or_left_comm
      · next hyx =>
        have heq : x = y := by
          by_contra hne
          rcases h.total x y hx hy hne with hlt | hlt
          · exact hxy hlt
          · exact hyx hlt
        rw [heq, mem_cons]
        tauto

theorem Sorted.insert (h : TotalOn lt S) (hx : S x) (hl : ∀ y ∈ l, S y) (hsorted : Sorted lt l) :
    Sorted lt (insert lt x l) := by
  induction l with
  | nil => exact pairwise_singleton _ _
  | cons y l ih =>
    have hy := hl y mem_cons_self
    have hl' := fun w hw => hl w (mem_cons_of_mem y hw)
    have hsorted' := pairwise_cons.mp hsorted
    unfold OrderedSet.insert
    split
    · next hxy =>
      refine pairwise_cons.mpr ⟨fun w hw => ?_, hsorted⟩
      rcases mem_cons.mp hw with rfl | hw
      · exact hxy
      · exact h.trans x y w hx hy (hl' w hw) hxy (hsorted'.1 w hw)
    · split
      · next hyx =>
        refine pairwise_cons.mpr ⟨fun w hw => ?_, ih hl' hsorted'.2⟩
        rcases (mem_insert h hx hl').mp hw with rfl | hw
        · exact hyx
        · exact hsorted'.1 w hw
      · exact hsorted

/-- In a set that stands in order, an element is found where it is. -/
theorem mem_erase (h : TotalOn lt S) (hx : S x) (hl : ∀ y ∈ l, S y) (hsorted : Sorted lt l) :
    z ∈ erase lt x l ↔ z ≠ x ∧ z ∈ l := by
  induction l with
  | nil => simp [erase]
  | cons y l ih =>
    have hy := hl y mem_cons_self
    have hl' := fun w hw => hl w (mem_cons_of_mem y hw)
    have hsorted' := pairwise_cons.mp hsorted
    unfold erase
    split
    · next hyx =>
      have hne : y ≠ x := by
        rintro rfl
        rw [h.irrefl y hy] at hyx
        cases hyx
      rw [mem_cons, ih hl' hsorted'.2, mem_cons]
      constructor
      · rintro (rfl | ⟨hz, hmem⟩)
        · exact ⟨hne, .inl rfl⟩
        · exact ⟨hz, .inr hmem⟩
      · rintro ⟨hz, rfl | hmem⟩
        · exact .inl rfl
        · exact .inr ⟨hz, hmem⟩
    · next hyx =>
      split
      · next hxy =>
        -- All the entries from here on are beyond the element.
        have hbeyond : ∀ w ∈ y :: l, lt x w = true := by
          intro w hw
          rcases mem_cons.mp hw with rfl | hw
          · exact hxy
          · exact h.trans x y w hx hy (hl' w hw) hxy (hsorted'.1 w hw)
        constructor
        · intro hz
          refine ⟨?_, hz⟩
          rintro rfl
          have hself := hbeyond z hz
          rw [h.irrefl z hx] at hself
          cases hself
        · exact fun hz => hz.2
      · next hxy =>
        have heq : x = y := by
          by_contra hne
          rcases h.total x y hx hy hne with hlt | hlt
          · exact hxy hlt
          · exact hyx hlt
        subst heq
        rw [mem_cons]
        constructor
        · intro hz
          refine ⟨?_, .inr hz⟩
          rintro rfl
          have hself := hsorted'.1 z hz
          rw [h.irrefl z hx] at hself
          cases hself
        · rintro ⟨hne, rfl | hz⟩
          · exact (hne rfl).elim
          · exact hz

theorem erase_sublist (lt : α → α → Bool) (x : α) (l : List α) : (erase lt x l).Sublist l := by
  induction l with
  | nil => exact List.Sublist.refl _
  | cons y l ih =>
    unfold erase
    split
    · exact ih.cons_cons y
    · split
      · exact List.Sublist.refl _
      · exact sublist_cons_self y l

theorem erase_of_not_mem (h : TotalOn lt S) (hx : S x) (hl : ∀ y ∈ l, S y) (hnot : x ∉ l) :
    erase lt x l = l := by
  induction l with
  | nil => rfl
  | cons y l ih =>
    have hne : x ≠ y := fun heq => hnot (heq ▸ mem_cons_self)
    have hl' := fun w hw => hl w (mem_cons_of_mem y hw)
    unfold erase
    split
    · rw [ih hl' fun hmem => hnot (mem_cons_of_mem y hmem)]
    · next hyx =>
      rw [if_pos ((h.total x y hx (hl y mem_cons_self) hne).resolve_right hyx)]

/-- Erasing makes the set smaller exactly if the element was there. -/
theorem length_erase_lt_iff (h : TotalOn lt S) (hx : S x) (hl : ∀ y ∈ l, S y)
    (hsorted : Sorted lt l) : (erase lt x l).length < l.length ↔ x ∈ l := by
  constructor
  · intro hlt
    by_contra hnot
    rw [erase_of_not_mem h hx hl hnot] at hlt
    exact Nat.lt_irrefl _ hlt
  · intro hmem
    refine Nat.lt_of_le_of_ne (erase_sublist lt x l).length_le fun heq => ?_
    have hsame := (erase_sublist lt x l).eq_of_length heq
    rw [← hsame] at hmem
    exact ((mem_erase h hx hl hsorted).mp hmem).1 rfl

theorem Sorted.erase (hsorted : Sorted lt l) (x : α) : Sorted lt (erase lt x l) :=
  List.Pairwise.sublist (erase_sublist lt x l) hsorted

/-- The order only matters on the entries. -/
theorem Sorted.congr (hsorted : Sorted lt l)
    (hsame : ∀ y ∈ l, ∀ w ∈ l, lt' y w = lt y w) : Sorted lt' l := by
  refine List.Pairwise.imp_of_mem (fun hy hw hlt => ?_) hsorted
  rw [hsame _ hy _ hw]
  exact hlt

/-- The last entry is above all others. -/
theorem Sorted.lt_getLast? (hsorted : Sorted lt l) {m : α} (hlast : l.getLast? = some m) :
    m ∈ l ∧ ∀ y ∈ l, y ≠ m → lt y m = true := by
  obtain ⟨init, rfl⟩ := List.getLast?_eq_some_iff.mp hlast
  refine ⟨by simp, fun y hy hne => ?_⟩
  rcases mem_append.mp hy with hy | hy
  · exact (pairwise_append.mp hsorted).2.2 y hy m mem_cons_self
  · exact (hne (mem_singleton.mp hy)).elim

/-- A finite set of elements has a largest one. -/
theorem exists_max (h : TotalOn lt S) (hl : ∀ y ∈ l, S y) (hne : l ≠ []) :
    ∃ m ∈ l, ∀ y ∈ l, y ≠ m → lt y m = true := by
  induction l with
  | nil => exact (hne rfl).elim
  | cons x l ih =>
    have hx := hl x mem_cons_self
    have hl' := fun w hw => hl w (mem_cons_of_mem x hw)
    by_cases hempty : l = []
    · subst hempty
      exact ⟨x, mem_cons_self, fun y hy hyx => (hyx (mem_singleton.mp hy)).elim⟩
    · obtain ⟨m, hm, hmax⟩ := ih hl' hempty
      by_cases hxm : lt m x = true
      · refine ⟨x, mem_cons_self, fun y hy hyx => ?_⟩
        rcases mem_cons.mp hy with rfl | hy
        · exact (hyx rfl).elim
        · by_cases hym : y = m
          · rwa [hym]
          · exact h.trans y m x (hl' y hy) (hl' m hm) hx (hmax y hy hym) hxm
      · refine ⟨m, mem_cons_of_mem x hm, fun y hy hym => ?_⟩
        rcases mem_cons.mp hy with rfl | hy
        · exact (h.total y m hx (hl' m hm) hym).resolve_right hxm
        · exact hmax y hy hym

end OrderedSet
