import Mathlib.Data.List.Basic

/-!
# Forests of linked elements

Every element has a parent or none, and following the parents gives its ancestors. The path of an
element is the element and its ancestors; the height of an element is their number.
-/

/-- Elements with their parents, and the ancestors that following the parents gives. -/
structure Forest (α : Type*) where
  parent : α → Option α
  ancestors : α → List α
  ancestors_eq : ∀ x, ancestors x = match parent x with
    | none => []
    | some q => q :: ancestors q

namespace Forest

open List

variable {α : Type*} (F : Forest α)

def path (x : α) : List α := x :: F.ancestors x

def height (x : α) : ℕ := (F.ancestors x).length

variable {F} {x y z q : α}

theorem path_root (hroot : F.parent x = none) : F.path x = [x] := by
  rw [path, F.ancestors_eq x, hroot]

theorem path_child (hchild : F.parent x = some q) : F.path x = x :: F.path q := by
  rw [path, F.ancestors_eq x, hchild]
  rfl

theorem mem_path_self (x : α) : x ∈ F.path x := mem_cons_self

theorem length_path (x : α) : (F.path x).length = F.height x + 1 := rfl

theorem height_child (hchild : F.parent x = some q) : F.height x = F.height q + 1 := by
  have hlength := congrArg List.length (path_child hchild)
  rw [length_cons, length_path, length_path] at hlength
  omega

theorem mem_path_iff : y ∈ F.path x ↔ y = x ∨ ∃ q, F.parent x = some q ∧ y ∈ F.path q := by
  cases hparent : F.parent x with
  | none => simp [path_root hparent]
  | some q => simp [path_child hparent]

theorem induct (F : Forest α) {P : α → Prop} (root : ∀ x, F.parent x = none → P x)
    (child : ∀ x q, F.parent x = some q → P q → P x) (x : α) : P x := by
  generalize hheight : F.height x = k
  induction k generalizing x with
  | zero =>
    cases hparent : F.parent x with
    | none => exact root x hparent
    | some q =>
      rw [height_child hparent] at hheight
      cases hheight
  | succ k ih =>
    cases hparent : F.parent x with
    | none => exact root x hparent
    | some q =>
      rw [height_child hparent] at hheight
      exact child x q hparent (ih q (Nat.succ.inj hheight))

theorem path_suffix (hy : y ∈ F.path x) : F.path y <:+ F.path x := by
  induction x using F.induct with
  | root x hroot =>
    rw [path_root hroot, mem_singleton] at hy
    subst hy
    exact suffix_rfl
  | child x q hchild ih =>
    rw [path_child hchild] at hy ⊢
    rcases mem_cons.mp hy with rfl | hy
    · exact ⟨[], path_child hchild⟩
    · exact (ih hy).trans (suffix_cons x _)

theorem path_subset (hy : y ∈ F.path x) : F.path y ⊆ F.path x := (path_suffix hy).subset

theorem height_le (hy : y ∈ F.path x) : F.height y ≤ F.height x := by
  have hlength := (path_suffix hy).length_le
  rw [length_path, length_path] at hlength
  omega

theorem height_lt (hy : y ∈ F.ancestors x) : F.height y < F.height x := by
  rw [F.ancestors_eq] at hy
  cases hparent : F.parent x with
  | none =>
    rw [hparent] at hy
    cases hy
  | some q =>
    rw [hparent] at hy
    have hle : F.height y ≤ F.height q := height_le hy
    rw [height_child hparent]
    omega

theorem path_total (hy : y ∈ F.path x) (hz : z ∈ F.path x) :
    y ∈ F.path z ∨ z ∈ F.path y := by
  induction x using F.induct with
  | root x hroot =>
    rw [path_root hroot, mem_singleton] at hy hz
    rw [hy, hz]
    exact .inl (mem_path_self x)
  | child x q hchild ih =>
    rw [path_child hchild] at hy hz
    rcases mem_cons.mp hy with rfl | hyq
    · rw [← path_child hchild] at hz
      exact .inr hz
    · rcases mem_cons.mp hz with rfl | hzq
      · rw [path_child hchild]
        exact .inl hy
      · exact ih hyq hzq

/-- Among the elements of a path that pass a test, what comes later is below what comes first. -/
theorem mem_path_of_takeWhile {test keep : α → Bool} {rest : List α}
    (hy : y ∈ ((F.path x).filter test).takeWhile keep)
    (hz : ((F.path x).filter test).dropWhile keep = z :: rest) : z ∈ F.path y := by
  have hin : ∀ l : List α, (l.filter test).dropWhile keep = z :: rest → z ∈ l := by
    intro l hl
    have hmem : z ∈ (l.filter test).dropWhile keep := hl ▸ mem_cons_self
    exact mem_of_mem_filter ((dropWhile_sublist keep).subset hmem)
  induction x using F.induct with
  | root x hroot =>
    rw [path_root hroot] at hy hz
    by_cases htest : test x = true
    · rw [filter_cons_of_pos htest, filter_nil] at hy hz
      by_cases hkeep : keep x = true
      · rw [dropWhile_cons_of_pos hkeep] at hz
        cases hz
      · rw [takeWhile_cons_of_neg hkeep] at hy
        cases hy
    · rw [filter_cons_of_neg htest] at hy
      cases hy
  | child x q hchild ih =>
    rw [path_child hchild] at hy hz
    by_cases htest : test x = true
    · rw [filter_cons_of_pos htest] at hy hz
      by_cases hkeep : keep x = true
      · rw [takeWhile_cons_of_pos hkeep] at hy
        rw [dropWhile_cons_of_pos hkeep] at hz
        rcases mem_cons.mp hy with rfl | hy
        · rw [path_child hchild]
          exact mem_cons_of_mem y (hin _ hz)
        · exact ih hy hz
      · rw [takeWhile_cons_of_neg hkeep] at hy
        cases hy
    · rw [filter_cons_of_neg htest] at hy hz
      exact ih hy hz

def atHeight (F : Forest α) (x : α) (h : ℕ) : Option α := (F.path x).reverse[h]?

variable {h : ℕ}

/-- Above an element, there is nothing on its path. -/
theorem atHeight_of_lt (hh : F.height x < h) : F.atHeight x h = none := by
  refine List.getElem?_eq_none ?_
  rw [length_reverse, length_path]
  omega

theorem atHeight_self (x : α) : F.atHeight x (F.height x) = some x := by
  unfold atHeight path height
  rw [reverse_cons, ← length_reverse, List.getElem?_append_right (Nat.le_refl _),
    Nat.sub_self]
  rfl

theorem atHeight_eq (hy : y ∈ F.path x) (hh : h ≤ F.height y) :
    F.atHeight x h = F.atHeight y h := by
  obtain ⟨above, habove⟩ := reverse_prefix.mpr (path_suffix hy)
  unfold atHeight
  rw [← habove, List.getElem?_append_left]
  rw [length_reverse, length_path]
  omega

theorem atHeight_eq_some_iff : F.atHeight x h = some y ↔ y ∈ F.path x ∧ F.height y = h := by
  constructor
  · intro hy
    induction x using F.induct with
    | root x hroot =>
      have hzero : F.height x = 0 := by
        have hlength := congrArg List.length (path_root hroot)
        rw [length_path, length_singleton] at hlength
        omega
      have hh : h = 0 := by
        by_contra hne
        rw [atHeight_of_lt (by omega)] at hy
        cases hy
      rw [hh, ← hzero, atHeight_self] at hy
      rw [← Option.some.inj hy]
      exact ⟨mem_path_self x, hzero.trans hh.symm⟩
    | child x q hchild ih =>
      have hq : q ∈ F.path x := by
        rw [path_child hchild]
        exact mem_cons_of_mem x (mem_path_self q)
      rcases Nat.lt_trichotomy h (F.height x) with hlt | heq | hgt
      · rw [atHeight_eq hq (by rw [height_child hchild] at hlt; omega)] at hy
        exact ⟨path_subset hq (ih hy).1, (ih hy).2⟩
      · rw [heq, atHeight_self] at hy
        rw [← Option.some.inj hy]
        exact ⟨mem_path_self x, heq.symm⟩
      · rw [atHeight_of_lt hgt] at hy
        cases hy
  · rintro ⟨hmem, rfl⟩
    rw [atHeight_eq hmem (Nat.le_refl _), atHeight_self]

end Forest
