import Mathlib.Algebra.BigOperators.Ring.Finset
import Mathlib.Algebra.Order.BigOperators.Group.List
import Mathlib.Algebra.Order.Group.Nat
import Mathlib.Algebra.Order.Ring.Int
import Mathlib.Data.List.Perm.Subperm
import Mathlib.Tactic.Common
import Sequentia.Lib.KeyedMap

/-!
# Shares of an amount

Sums that are compared share by share: the positive parts of a list of balances, payments
that are bounded by an entitlement and made once to each payee, and the floors of the
proportional shares of a value.
-/

namespace Shares

variable {α κ : Type*}

/-- Payments made once to each payee, within its entitlement, stay within the sum of the
entitlements. -/
theorem sum_payments_le {l : List (κ × ℤ)} {payees : List κ} {f : κ → ℤ}
    (honce : (l.map Prod.fst).Nodup) (hentitled : ∀ e ∈ l, e.1 ∈ payees ∧ e.2 ≤ f e.1)
    (hnonneg : ∀ k ∈ payees, 0 ≤ f k) : (l.map Prod.snd).sum ≤ (payees.map f).sum := by
  have hsubset : l.map Prod.fst ⊆ payees := by
    intro k hk
    obtain ⟨e, he, rfl⟩ := List.mem_map.mp hk
    exact (hentitled e he).1
  obtain ⟨l', hperm, hsublist⟩ := List.subperm_of_subset honce hsubset
  calc (l.map Prod.snd).sum
      ≤ (l.map fun e => f e.1).sum := List.sum_le_sum fun e he => (hentitled e he).2
    _ = (l'.map f).sum := by
        rw [(hperm.map f).sum_eq, List.map_map]
        rfl
    _ ≤ (payees.map f).sum := by
        refine (hsublist.map f).sum_le_sum fun x hx => ?_
        obtain ⟨k, hk, rfl⟩ := List.mem_map.mp hx
        exact hnonneg k hk

theorem sum_mul_div_le (value total : ℕ) {weights : List ℕ} (hle : weights.sum ≤ total) :
    (weights.map fun w => value * w / total).sum ≤ value := by
  have hfloor : (weights.map fun w => value * w / total).sum ≤ value * weights.sum / total := by
    clear hle
    induction weights with
    | nil => simp
    | cons w weights ih =>
      rw [List.map_cons, List.sum_cons, List.sum_cons, Nat.mul_add]
      exact (Nat.add_le_add_left ih _).trans Nat.div_add_div_le_add_div
  calc (weights.map fun w => value * w / total).sum
      ≤ value * weights.sum / total := hfloor
    _ ≤ value * total / total := Nat.div_le_div_right (Nat.mul_le_mul_left _ hle)
    _ ≤ value := Nat.div_le_of_le_mul (Nat.le_of_eq (Nat.mul_comm value total))

section Weights

open Std List

variable [Ord κ] [TransOrd κ] [LawfulEqOrd κ] (m : ExtTreeMap κ ℕ)

/-- A weight is part of the sum of the weights. -/
theorem getD_le_sum (k : κ) : m.getD k 0 ≤ (m.toList.map Prod.snd).sum := by
  rw [ExtTreeMap.getD_eq_getD_getElem?]
  cases hk : m[k]? with
  | none => exact Nat.zero_le _
  | some weight =>
    exact single_le_sum (fun _ _ => Nat.zero_le _) _ (mem_map.mpr
      ⟨(k, weight), ExtTreeMap.mem_toList_iff_getElem?_eq_some.mpr hk, rfl⟩)

/-- The floors of the shares by weight stay within the value. -/
theorem sum_keys_mul_div_le (value : ℕ) {f : κ → ℤ}
    (hshare : ∀ k, f k = (value * m.getD k 0 / (m.toList.map Prod.snd).sum : ℕ)) :
    (m.keys.map f).sum ≤ value := by
  have hentry : ∀ e ∈ m.toList, (f ∘ Prod.fst) e =
      ((fun w : ℕ => value * w / (m.toList.map Prod.snd).sum) e.2 : ℕ) := by
    intro e he
    have hget := ExtTreeMap.mem_toList_iff_getElem?_eq_some.mp he
    rw [Function.comp_apply, hshare, ExtTreeMap.getD_eq_getD_getElem?, hget]
    rfl
  have hsum := sum_mul_div_le value (m.toList.map Prod.snd).sum (Nat.le_refl _)
  calc (m.keys.map f).sum
      = ((((m.toList.map Prod.snd).map fun w =>
          value * w / (m.toList.map Prod.snd).sum).sum : ℕ) : ℤ) := by
        rw [← ExtTreeMap.map_fst_toList_eq_keys, map_map, map_congr_left hentry,
          Nat.cast_list_sum, map_map, map_map]
        rfl
    _ ≤ value := by exact_mod_cast hsum

end Weights

end Shares
