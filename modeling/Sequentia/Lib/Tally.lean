import Sequentia.Lib.KeyedMap
import Mathlib.Algebra.BigOperators.Group.List.Basic
import Mathlib.Algebra.Order.BigOperators.Group.List
import Mathlib.Algebra.Order.Ring.Int

/-!
# Tallies

A tally adds signed amounts up by key, and knows which keys were touched at all. Pairs of
keys are ordered lexicographically, so that a map of maps and a map from pairs are walked
in the same order.
-/

set_option linter.unusedSectionVars false

namespace KeyedMap

open Std List

instance instOrdProd {α β : Type*} [Ord α] [Ord β] : Ord (α × β) := lexOrd

variable {κ : Type*} [Ord κ] [TransOrd κ] [LawfulEqOrd κ] [DecidableEq κ]

/-- `m[k] += v` for a signed amount. -/
def tally (m : ExtTreeMap κ ℤ) (k : κ) (v : ℤ) : ExtTreeMap κ ℤ := m.insert k (m.getD k 0 + v)

/-- The amounts of one key among a list of postings. -/
def postedTo (l : List (κ × ℤ)) (k : κ) : ℤ := (l.map fun p => if p.1 = k then p.2 else 0).sum

theorem getD_tally (m : ExtTreeMap κ ℤ) (k a : κ) (v : ℤ) :
    (tally m k v).getD a 0 = (if k = a then v else 0) + m.getD a 0 := by
  simp only [tally, ExtTreeMap.getD_eq_getD_getElem?, getElem?_insert_eq]
  split
  · next h =>
    subst h
    rw [Option.getD_some, Int.add_comm]
  · rw [Int.zero_add]

theorem mem_tally {m : ExtTreeMap κ ℤ} {k a : κ} {v : ℤ} : a ∈ tally m k v ↔ k = a ∨ a ∈ m := by
  simp only [tally, ExtTreeMap.mem_insert, LawfulEqOrd.compare_eq_iff_eq]

theorem postedTo_cons (p : κ × ℤ) (l : List (κ × ℤ)) (k : κ) :
    postedTo (p :: l) k = (if p.1 = k then p.2 else 0) + postedTo l k := by
  simp [postedTo]

theorem postedTo_append (l l' : List (κ × ℤ)) (k : κ) :
    postedTo (l ++ l') k = postedTo l k + postedTo l' k := by
  simp [postedTo]

variable {l : List (κ × ℤ)}

/-- Nothing is posted to a key that does not occur. -/
theorem postedTo_eq_zero {k : κ} (hk : k ∉ l.map Prod.fst) : postedTo l k = 0 := by
  induction l with
  | nil => rfl
  | cons p l ih =>
    simp only [map_cons, mem_cons, not_or] at hk
    rw [postedTo_cons, if_neg (Ne.symm hk.1), ih hk.2, Int.zero_add]

/-- Where no key occurs twice, what is posted to a key is its one amount. -/
theorem postedTo_of_mem (hnodup : (l.map Prod.fst).Nodup) {p : κ × ℤ} (hp : p ∈ l) :
    postedTo l p.1 = p.2 := by
  induction l with
  | nil => simp at hp
  | cons q l ih =>
    rw [map_cons, nodup_cons] at hnodup
    rw [postedTo_cons]
    rcases mem_cons.mp hp with rfl | hp
    · rw [if_pos rfl, postedTo_eq_zero hnodup.1, Int.add_zero]
    · have hne : q.1 ≠ p.1 := fun heq => hnodup.1 (heq ▸ mem_map_of_mem hp)
      rw [if_neg hne, ih hnodup.2 hp, Int.zero_add]

theorem postedTo_nonneg (hnonneg : ∀ p ∈ l, 0 ≤ p.2) (k : κ) : 0 ≤ postedTo l k := by
  refine sum_nonneg fun x hx => ?_
  obtain ⟨p, hp, rfl⟩ := mem_map.mp hx
  split
  · exact hnonneg p hp
  · exact Int.le_refl 0

/-- An entry is at most what is posted to its key. -/
theorem le_postedTo (hnonneg : ∀ p ∈ l, 0 ≤ p.2) {p : κ × ℤ} (hp : p ∈ l) :
    p.2 ≤ postedTo l p.1 := by
  induction l with
  | nil => cases hp
  | cons q l ih =>
    have hrest := fun r hr => hnonneg r (mem_cons_of_mem q hr)
    rw [postedTo_cons]
    rcases mem_cons.mp hp with rfl | hp
    · have := postedTo_nonneg hrest p.1
      rw [if_pos rfl]
      omega
    · have hq := hnonneg q mem_cons_self
      have := ih hrest hp
      split <;> omega

/-- Smaller amounts of the same keys add up to less. -/
theorem postedTo_map_mono {α : Type*} {l : List α} {key : α → κ} {f g : α → ℤ}
    (hle : ∀ x ∈ l, f x ≤ g x) (k : κ) :
    postedTo (l.map fun x => (key x, f x)) k ≤ postedTo (l.map fun x => (key x, g x)) k := by
  unfold postedTo
  rw [map_map, map_map]
  refine sum_le_sum fun x hx => ?_
  have := hle x hx
  dsimp only [Function.comp_apply]
  split
  · exact this
  · exact Int.le_refl 0

/-- Entries of zero do not count in the sum. -/
theorem sum_filter_pos (hnonneg : ∀ p ∈ l, 0 ≤ p.2) :
    ((l.filter fun p => 0 < p.2).map Prod.snd).sum = (l.map Prod.snd).sum := by
  induction l with
  | nil => rfl
  | cons p l ih =>
    have hp := hnonneg p mem_cons_self
    have hrest := ih fun q hq => hnonneg q (mem_cons_of_mem _ hq)
    rw [filter_cons, map_cons, sum_cons]
    split
    · rw [map_cons, sum_cons, hrest]
    · next hzero =>
      rw [decide_eq_true_eq] at hzero
      have hp0 : p.2 = 0 := by omega
      rw [hrest, hp0, Int.zero_add]

/-- Entries of zero do not count. -/
theorem postedTo_filter_pos (hnonneg : ∀ p ∈ l, 0 ≤ p.2) (k : κ) :
    postedTo (l.filter fun p => 0 < p.2) k = postedTo l k := by
  induction l with
  | nil => rfl
  | cons p l ih =>
    have hp := hnonneg p mem_cons_self
    have hrest := ih fun q hq => hnonneg q (mem_cons_of_mem _ hq)
    rw [filter_cons, postedTo_cons]
    split
    · rw [postedTo_cons, hrest]
    · next hzero =>
      rw [decide_eq_true_eq] at hzero
      have hp0 : p.2 = 0 := by omega
      rw [hrest, hp0, ite_self, Int.zero_add]

theorem getD_foldl_tally (l : List (κ × ℤ)) (m : ExtTreeMap κ ℤ) (k : κ) :
    (l.foldl (fun m p => tally m p.1 p.2) m).getD k 0 = m.getD k 0 + postedTo l k := by
  induction l generalizing m with
  | nil => simp [postedTo]
  | cons p l ih =>
    rw [foldl_cons, ih, getD_tally, postedTo_cons]
    omega

/-- A tally touches the keys something was posted to. -/
theorem mem_foldl_tally {m : ExtTreeMap κ ℤ} {k : κ} :
    k ∈ l.foldl (fun m p => tally m p.1 p.2) m ↔ k ∈ m ∨ k ∈ l.map Prod.fst := by
  induction l generalizing m with
  | nil => simp
  | cons p l ih =>
    rw [foldl_cons, ih, mem_tally]
    simp only [map_cons, mem_cons]
    tauto

theorem postedTo_toList (m : ExtTreeMap κ ℤ) (k : κ) : postedTo m.toList k = m.getD k 0 := by
  rw [ExtTreeMap.getD_eq_getD_getElem?]
  cases hk : m[k]? with
  | none =>
    refine postedTo_eq_zero fun hmem => ?_
    obtain ⟨⟨a, v⟩, hentry, rfl⟩ := mem_map.mp hmem
    rw [ExtTreeMap.mem_toList_iff_getElem?_eq_some, hk] at hentry
    cases hentry
  | some v =>
    have hentry : (k, v) ∈ m.toList := ExtTreeMap.mem_toList_iff_getElem?_eq_some.mpr hk
    exact postedTo_of_mem (nodup_keys_toList m) hentry

end KeyedMap
