import Mathlib.Algebra.BigOperators.Group.List.Basic
import Mathlib.Algebra.Order.Ring.Nat
import Mathlib.Data.Nat.Notation
import Mathlib.Tactic.Ring

/-!
# Apportionment by a systematic draw

A number of seats is divided in proportion to weights. Everybody receives the whole part
of its quota. What is left over is drawn in one pass: the fractional parts are laid end to
end, and whoever covers one of the thresholds `u`, `u + W`, `u + 2 * W`, … receives one
seat more. Fractions are kept as remainders in units of one part in `W`.
-/

namespace SystematicDraw

open List

/-- The draw over a list of remainders, from the point `cum` on, when `drawn` thresholds
have been passed. An entry is one if its stretch covers the next threshold. -/
def draw (W u left : ℕ) : ℕ → ℕ → List ℕ → List ℕ
  | _, _, [] => []
  | cum, drawn, rem :: rems =>
    if drawn < left ∧ cum ≤ u + drawn * W ∧ u + drawn * W < cum + rem then
      1 :: draw W u left (cum + rem) (drawn + 1) rems
    else 0 :: draw W u left (cum + rem) drawn rems

variable {W u left : ℕ}

/-- If the remainders fill up `left * W`, every threshold is met. The invariant is that the
next threshold has not been passed. -/
theorem drawn_add_sum_draw (hu : u < W) {cum drawn : ℕ} {rems : List ℕ}
    (hrems : ∀ rem ∈ rems, rem < W) (hcum : cum ≤ u + drawn * W) (hdrawn : drawn ≤ left)
    (hfill : cum + rems.sum = left * W) :
    drawn + (draw W u left cum drawn rems).sum = left := by
  induction rems generalizing cum drawn with
  | nil =>
    have hlt : left * W < (drawn + 1) * W := by
      rw [sum_nil, Nat.add_zero] at hfill
      rw [Nat.succ_mul]
      omega
    have hlt' : left < drawn + 1 := Nat.lt_of_mul_lt_mul_right hlt
    simp only [draw, sum_nil]
    omega
  | cons rem rems ih =>
    have hrem := hrems rem mem_cons_self
    have hrest : ∀ rem ∈ rems, rem < W := fun r hr => hrems r (mem_cons_of_mem _ hr)
    rw [sum_cons, ← Nat.add_assoc] at hfill
    rw [draw]
    split
    · next hmet =>
      have hnext : cum + rem ≤ u + (drawn + 1) * W := by
        rw [Nat.succ_mul]
        omega
      rw [sum_cons, ← Nat.add_assoc]
      exact ih hrest hnext (by omega) hfill
    · next hmissed =>
      have hnext : cum + rem ≤ u + drawn * W := by
        by_cases hall : drawn = left
        · subst hall
          omega
        · omega
      rw [sum_cons, Nat.zero_add]
      exact ih hrest hnext hdrawn hfill

/-- Quotas split into whole parts and remainders. -/
theorem sum_whole_add_sum_rem (seats W : ℕ) (weights : List ℕ) :
    W * (weights.map fun w => seats * w / W).sum + (weights.map fun w => seats * w % W).sum =
      seats * weights.sum := by
  induction weights with
  | nil => simp
  | cons w weights ih =>
    have hsplit := Nat.div_add_mod (seats * w) W
    simp only [map_cons, sum_cons, Nat.mul_add]
    omega

theorem sum_whole_le (seats : ℕ) {weights : List ℕ} (hpos : 0 < weights.sum) :
    (weights.map fun w => seats * w / weights.sum).sum ≤ seats := by
  have hsplit := sum_whole_add_sum_rem seats weights.sum weights
  refine Nat.le_of_mul_le_mul_left ?_ hpos
  rw [Nat.mul_comm weights.sum seats]
  omega

/-- The draw hands out exactly the seats that the whole parts leave. -/
theorem sum_draw (seats : ℕ) {weights : List ℕ} (hu : u < weights.sum) :
    (draw weights.sum u (seats - (weights.map fun w => seats * w / weights.sum).sum) 0 0
      (weights.map fun w => seats * w % weights.sum)).sum =
      seats - (weights.map fun w => seats * w / weights.sum).sum := by
  have hpos : 0 < weights.sum := Nat.zero_lt_of_lt hu
  have hsplit := sum_whole_add_sum_rem seats weights.sum weights
  have hrems : ∀ rem ∈ weights.map fun w => seats * w % weights.sum, rem < weights.sum := by
    intro rem hrem
    obtain ⟨w, -, rfl⟩ := mem_map.mp hrem
    exact Nat.mod_lt _ hpos
  have hfill : 0 + (weights.map fun w => seats * w % weights.sum).sum =
      (seats - (weights.map fun w => seats * w / weights.sum).sum) * weights.sum := by
    rw [Nat.sub_mul, Nat.mul_comm _ weights.sum]
    rw [Nat.mul_comm (List.sum _) weights.sum]
    rw [Nat.mul_comm seats weights.sum] at hsplit
    omega
  have hrun := drawn_add_sum_draw hu hrems (Nat.zero_le (u + 0 * weights.sum)) (Nat.zero_le _) hfill
  rwa [Nat.zero_add] at hrun

end SystematicDraw
