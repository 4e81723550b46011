import Mathlib.Algebra.BigOperators.Group.Finset.Basic
import Mathlib.Algebra.Order.BigOperators.Group.Finset
import Mathlib.Data.Finset.Card
import Mathlib.Algebra.Order.Ring.Int
import Mathlib.Tactic.Common
import Sequentia.Lib.KeyedMap

/-!
# Picking an entry by its weight

The weights of a list are laid end to end, and a ticket picks the entry whose stretch it falls
into. Every entry is picked by as many tickets as its weight.
-/

namespace WeightedPick

variable {α : Type*}

/-- The entry that a ticket picks, if it is below the sum of the weights. -/
def pick : List (α × ℕ) → ℕ → Option α
  | [], _ => none
  | e :: l, ticket => if ticket < e.2 then some e.1 else pick l (ticket - e.2)

def total (l : List (α × ℕ)) : ℕ := (l.map Prod.snd).sum

theorem total_cons (e : α × ℕ) (l : List (α × ℕ)) : total (e :: l) = e.2 + total l := by
  rw [total, List.map_cons, List.sum_cons, total]

variable {l : List (α × ℕ)} {ticket n : ℕ}

theorem isSome_pick : (pick l ticket).isSome = true ↔ ticket < total l := by
  induction l generalizing ticket with
  | nil => simp [pick, total]
  | cons e l ih =>
    rw [pick, total_cons]
    split
    · simp only [Option.isSome_some, true_iff]
      omega
    · rw [ih]
      omega

variable [DecidableEq α]

/-- The tickets below `n` that pick an entry. -/
def tickets (l : List (α × ℕ)) (n : ℕ) (a : α) : Finset ℕ :=
  (Finset.range n).filter fun ticket => pick l ticket = some a

def weight (l : List (α × ℕ)) (a : α) : ℕ := (l.map fun e => if e.1 = a then e.2 else 0).sum

theorem mem_tickets {a : α} : ticket ∈ tickets l n a ↔ ticket < n ∧ pick l ticket = some a := by
  rw [tickets, Finset.mem_filter, Finset.mem_range]

/-- The tickets of a longer list: the first ones pick the head, the others are shifted. -/
theorem card_tickets_cons (e : α × ℕ) (l : List (α × ℕ)) (n : ℕ) (a : α) :
    (tickets (e :: l) (e.2 + n) a).card =
      (if e.1 = a then e.2 else 0) + (tickets l n a).card := by
  have hsplit : tickets (e :: l) (e.2 + n) a =
      (if e.1 = a then Finset.range e.2 else ∅) ∪ (tickets l n a).image (e.2 + ·) := by
    ext t
    rw [mem_tickets, Finset.mem_union, Finset.mem_image, pick]
    by_cases ht : t < e.2
    · have hnot : ¬ ∃ u ∈ tickets l n a, e.2 + u = t := by
        rintro ⟨u, -, h⟩
        omega
      rw [if_pos ht, Option.some.injEq]
      simp only [hnot, or_false]
      split
      · next ha =>
        rw [Finset.mem_range]
        exact ⟨fun _ => ht, fun _ => ⟨by omega, ha⟩⟩
      · next ha => simp [ha]
    · have hnot : t ∉ if e.1 = a then Finset.range e.2 else ∅ := by
        split
        · rwa [Finset.mem_range]
        · exact Finset.notMem_empty t
      rw [if_neg ht]
      simp only [hnot, false_or]
      constructor
      · rintro ⟨hlt, h⟩
        exact ⟨t - e.2, mem_tickets.mpr ⟨by omega, h⟩, by omega⟩
      · rintro ⟨u, hu, rfl⟩
        obtain ⟨hlt, h⟩ := mem_tickets.mp hu
        exact ⟨by omega, by rwa [Nat.add_sub_cancel_left]⟩
  have hdisjoint : Disjoint (if e.1 = a then Finset.range e.2 else ∅)
      ((tickets l n a).image (e.2 + ·)) := by
    rw [Finset.disjoint_right]
    intro t ht
    obtain ⟨u, -, rfl⟩ := Finset.mem_image.mp ht
    split
    · rw [Finset.mem_range]
      omega
    · exact Finset.notMem_empty _
  rw [hsplit, Finset.card_union_of_disjoint hdisjoint,
    Finset.card_image_of_injective _ fun _ _ h => Nat.add_left_cancel h]
  congr 1
  split
  · exact Finset.card_range e.2
  · rfl

theorem card_tickets (l : List (α × ℕ)) (a : α) : (tickets l (total l) a).card = weight l a := by
  induction l with
  | nil => rfl
  | cons e l ih => rw [total_cons, card_tickets_cons, ih, weight, weight, List.map_cons, List.sum_cons]

theorem weight_eq_zero {a : α} (ha : a ∉ l.map Prod.fst) : weight l a = 0 := by
  refine List.sum_eq_zero fun x hx => ?_
  obtain ⟨e, he, rfl⟩ := List.mem_map.mp hx
  exact if_neg fun heq => ha (List.mem_map.mpr ⟨e, he, heq⟩)

/-- Without repeated entries, an entry has its own weight. -/
theorem weight_of_mem (hnodup : (l.map Prod.fst).Nodup) {e : α × ℕ} (he : e ∈ l) :
    weight l e.1 = e.2 := by
  induction l with
  | nil => cases he
  | cons d l ih =>
    rw [List.map_cons, List.nodup_cons] at hnodup
    rw [weight, List.map_cons, List.sum_cons, ← weight]
    rcases List.mem_cons.mp he with rfl | he
    · rw [if_pos rfl, weight_eq_zero hnodup.1, Nat.add_zero]
    · have hne : d.1 ≠ e.1 := fun heq => hnodup.1 (heq ▸ List.mem_map_of_mem he)
      rw [if_neg hne, ih hnodup.2 he, Nat.zero_add]

/-- There are at most `n` tickets. -/
theorem sum_card_tickets_le (l : List (α × ℕ)) (hnodup : (l.map Prod.fst).Nodup) (n : ℕ) :
    ((l.map Prod.fst).map fun a => (tickets l n a).card).sum ≤ n := by
  rw [← List.sum_toFinset _ hnodup]
  have hfibers := Finset.sum_card_fiberwise_eq_card_filter (Finset.range n)
    ((l.map Prod.fst).toFinset.map Function.Embedding.some) (pick l)
  rw [Finset.sum_map] at hfibers
  calc _ = ((Finset.range n).filter fun t =>
        pick l t ∈ (l.map Prod.fst).toFinset.map Function.Embedding.some).card := hfibers
    _ ≤ (Finset.range n).card := Finset.card_filter_le _ _
    _ = n := Finset.card_range n

theorem total_le_of_card_tickets (hnodup : (l.map Prod.fst).Nodup)
    (hcard : ∀ e ∈ l, (tickets l n e.1).card = e.2) : total l ≤ n := by
  have hsum := sum_card_tickets_le l hnodup n
  have hweights : (l.map Prod.fst).map (fun a => (tickets l n a).card) = l.map Prod.snd := by
    rw [List.map_map]
    exact List.map_congr_left hcard
  rwa [hweights] at hsum

section Maps

open Std ExtTreeMap

variable {κ : Type*} [Ord κ] [TransOrd κ] [LawfulEqOrd κ] [DecidableEq κ] (m : ExtTreeMap κ ℕ)

theorem nodup_fst_toList : (m.toList.map Prod.fst).Nodup := by
  rw [map_fst_toList_eq_keys]
  exact nodup_keys

/-- In a map, the weight of a key is the one that is stored. -/
theorem weight_toList (k : κ) : weight m.toList k = m.getD k 0 := by
  rw [getD_eq_getD_getElem?]
  cases hk : m[k]? with
  | some w =>
    exact weight_of_mem (nodup_fst_toList m) (mem_toList_iff_getElem?_eq_some.mpr hk)
  | none =>
    refine weight_eq_zero fun hmem => ?_
    obtain ⟨e, he, rfl⟩ := List.mem_map.mp hmem
    rw [mem_toList_iff_getElem?_eq_some.mp he] at hk
    cases hk

end Maps

end WeightedPick
