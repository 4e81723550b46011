import Mathlib.Analysis.SpecialFunctions.Log.Base
import Mathlib.Analysis.Complex.ExponentialBounds

/-!
# Logarithms by repeated squaring

The binary digits of the logarithm of a mantissa in `[1, 2)` are read off one by one: square
it, and if the square is at least two, the digit is one and the square is halved. The mantissa
is kept as a number with `P` bits behind the point, and squares and halves are rounded down.
Rounding loses at most `2 * 2 / 2 ^ P` of the logarithm in each round.
-/

namespace SquaringLog

/-- The square of a mantissa, rounded down. -/
def square (P v : ℕ) : ℕ := v * v / 2 ^ P

/-- The digit: whether the square is at least two. -/
def digit (P v : ℕ) : ℕ := if 2 ^ (P + 1) ≤ square P v then 1 else 0

def next (P v : ℕ) : ℕ := square P v / 2 ^ digit P v

/-- The mantissa after a number of rounds. -/
def mantissa (P v : ℕ) : ℕ → ℕ
  | 0 => v
  | k + 1 => next P (mantissa P v k)

/-- The digits of the first rounds, as a number. -/
def digits (P v : ℕ) : ℕ → ℕ
  | 0 => 0
  | k + 1 => 2 * digits P v k + digit P (mantissa P v k)

variable {P v w k : ℕ}

/-- A mantissa represents a number in `[1, 2)`. -/
def InRange (P v : ℕ) : Prop := 2 ^ P ≤ v ∧ v < 2 ^ (P + 1)

theorem digit_le_one (P v : ℕ) : digit P v ≤ 1 := by
  unfold digit
  split <;> omega

/-- The square of a mantissa is in `[1, 4)`. -/
theorem InRange.square (hv : InRange P v) : 2 ^ P ≤ square P v ∧ square P v < 2 ^ (P + 2) := by
  obtain ⟨hle, hlt⟩ := hv
  constructor
  · rw [SquaringLog.square, Nat.le_div_iff_mul_le (Nat.two_pow_pos P)]
    exact Nat.mul_le_mul hle hle
  · rw [SquaringLog.square, Nat.div_lt_iff_lt_mul (Nat.two_pow_pos P)]
    calc v * v < 2 ^ (P + 1) * 2 ^ (P + 1) := Nat.mul_lt_mul'' hlt hlt
      _ = 2 ^ (P + 2) * 2 ^ P := by ring

theorem InRange.next (hv : InRange P v) : InRange P (next P v) := by
  obtain ⟨hle, hlt⟩ := hv.square
  unfold SquaringLog.next digit
  split
  · next htwo =>
    refine ⟨?_, ?_⟩
    · rw [Nat.le_div_iff_mul_le (by decide)]
      calc 2 ^ P * 2 ^ 1 = 2 ^ (P + 1) := by ring
        _ ≤ SquaringLog.square P v := htwo
    · rw [Nat.div_lt_iff_lt_mul (by decide)]
      calc SquaringLog.square P v < 2 ^ (P + 2) := hlt
        _ = 2 ^ (P + 1) * 2 ^ 1 := by ring
  · next htwo =>
    rw [Nat.pow_zero, Nat.div_one]
    exact ⟨hle, Nat.lt_of_not_le htwo⟩

theorem InRange.mantissa (hv : InRange P v) (k : ℕ) : InRange P (mantissa P v k) := by
  induction k with
  | zero => exact hv
  | succ k ih => exact ih.next

theorem digits_lt (P v k : ℕ) : digits P v k < 2 ^ k := by
  induction k with
  | zero => exact Nat.one_pos
  | succ k ih =>
    have := digit_le_one P (mantissa P v k)
    rw [digits, Nat.pow_succ]
    omega

theorem digit_lt_or_next_le (hle : v ≤ w) :
    digit P v < digit P w ∨ digit P v = digit P w ∧ next P v ≤ next P w := by
  have hsquare : square P v ≤ square P w := Nat.div_le_div_right (Nat.mul_le_mul hle hle)
  by_cases hdigit : digit P v = digit P w
  · right
    refine ⟨hdigit, ?_⟩
    rw [next, next, hdigit]
    exact Nat.div_le_div_right hsquare
  · left
    unfold digit at hdigit ⊢
    split at hdigit
    · rw [if_pos (by omega)] at hdigit
      exact (hdigit rfl).elim
    · split at hdigit
      · rw [if_neg ‹_›, if_pos ‹_›]
        exact Nat.one_pos
      · exact (hdigit rfl).elim

/-- Digits are compared like words: the first difference decides. -/
theorem digits_lt_or_mantissa_le (hle : v ≤ w) (k : ℕ) :
    digits P v k < digits P w k ∨
      digits P v k = digits P w k ∧ mantissa P v k ≤ mantissa P w k := by
  induction k with
  | zero => exact .inr ⟨rfl, hle⟩
  | succ k ih =>
    have hv := digit_le_one P (mantissa P v k)
    rw [digits, digits, mantissa, mantissa]
    rcases ih with hlt | ⟨heq, hmantissa⟩
    · left
      omega
    · rcases digit_lt_or_next_le (P := P) hmantissa with hlt | ⟨hsame, hnext⟩
      · left
        omega
      · exact .inr ⟨by omega, hnext⟩

theorem digits_mono (hle : v ≤ w) (k : ℕ) : digits P v k ≤ digits P w k := by
  rcases digits_lt_or_mantissa_le (P := P) hle k with hlt | ⟨heq, -⟩
  · exact hlt.le
  · exact heq.le

open Real

theorem logb_one_add_le {x : ℝ} (hx : 0 ≤ x) : logb 2 (1 + x) ≤ 2 * x := by
  have hlog2 : 1 / 2 < log 2 := by
    have := log_two_gt_d9
    linarith
  have hlog : log (1 + x) ≤ x := by
    have := log_le_sub_one_of_pos (show 0 < 1 + x by linarith)
    linarith
  rw [logb, div_le_iff₀ (by linarith)]
  nlinarith

/-- Rounding a quotient of at least `2 ^ P` down loses at most `2 / 2 ^ P` of its logarithm. -/
theorem logb_div_bounds {a d : ℕ} (hd : 0 < d) (hq : 2 ^ P ≤ a / d) :
    logb 2 ((a / d : ℕ) : ℝ) ≤ logb 2 a - logb 2 d ∧
      logb 2 a - logb 2 d ≤ logb 2 ((a / d : ℕ) : ℝ) + 2 / 2 ^ P := by
  have hqpos : 0 < a / d := (Nat.two_pow_pos P).trans_le hq
  have hapos : 0 < a := hqpos.trans_le (Nat.div_le_self a d)
  have hd' : (0 : ℝ) < d := by exact_mod_cast hd
  have hq' : (0 : ℝ) < (a / d : ℕ) := by exact_mod_cast hqpos
  have hquotient : logb 2 (a : ℝ) - logb 2 d = logb 2 (a / d : ℝ) :=
    (logb_div (by exact_mod_cast hapos.ne') hd'.ne').symm
  rw [hquotient]
  constructor
  · refine logb_le_logb_of_le (by norm_num) hq' ?_
    exact Nat.cast_div_le
  · have hlt : (a / d : ℝ) ≤ (a / d : ℕ) * (1 + 1 / 2 ^ P) := by
      have hfloor : (a : ℝ) < d * ((a / d : ℕ) + 1) := by
        exact_mod_cast Nat.lt_mul_div_succ a hd
      have hunit : (1 : ℝ) ≤ (a / d : ℕ) * (1 / 2 ^ P) := by
        rw [mul_one_div, le_div_iff₀ (by positivity), one_mul]
        exact_mod_cast hq
      rw [div_le_iff₀ hd']
      nlinarith
    calc logb 2 (a / d : ℝ)
        ≤ logb 2 ((a / d : ℕ) * (1 + 1 / 2 ^ P)) :=
          logb_le_logb_of_le (by norm_num) (by positivity) hlt
      _ = logb 2 ((a / d : ℕ) : ℝ) + logb 2 (1 + 1 / 2 ^ P) :=
          logb_mul hq'.ne' (by positivity)
      _ ≤ logb 2 ((a / d : ℕ) : ℝ) + 2 / 2 ^ P := by
          have := logb_one_add_le (x := 1 / 2 ^ P) (by positivity)
          rw [mul_one_div] at this
          linarith

theorem logb_two_pow (n : ℕ) : logb 2 ((2 ^ n : ℕ) : ℝ) = n := by
  rw [Nat.cast_pow, Nat.cast_ofNat, logb_pow, logb_self_eq_one (by norm_num), mul_one]

/-- One round doubles the logarithm, takes the digit off and loses at most `4 / 2 ^ P`. -/
theorem InRange.logb_next (hv : InRange P v) :
    logb 2 (SquaringLog.next P v) ≤ 2 * logb 2 v - P - digit P v ∧
      2 * logb 2 v - P - digit P v ≤ logb 2 (SquaringLog.next P v) + 4 / 2 ^ P := by
  have hvpos : (v : ℝ) ≠ 0 := by
    have := (Nat.two_pow_pos P).trans_le hv.1
    exact_mod_cast this.ne'
  obtain ⟨hsquare, hsquare'⟩ := logb_div_bounds (Nat.two_pow_pos P) hv.square.1
  obtain ⟨hhalf, hhalf'⟩ := logb_div_bounds (Nat.two_pow_pos (digit P v)) hv.next.1
  rw [logb_two_pow, Nat.cast_mul, logb_mul hvpos hvpos] at hsquare hsquare'
  rw [logb_two_pow] at hhalf hhalf'
  change logb 2 (SquaringLog.square P v) ≤ _ at hsquare
  change _ ≤ logb 2 (SquaringLog.square P v) + _ at hsquare'
  change logb 2 (SquaringLog.next P v) ≤ _ at hhalf
  change _ ≤ logb 2 (SquaringLog.next P v) + _ at hhalf'
  have hloss : (4 : ℝ) / 2 ^ P = 2 / 2 ^ P + 2 / 2 ^ P := by ring
  constructor
  · linarith
  · linarith

/-- The digits of the first rounds, the mantissa that is left and what rounding has lost make
up the logarithm. -/
theorem InRange.logb_run (hv : InRange P v) (k : ℕ) :
    digits P v k + (logb 2 (SquaringLog.mantissa P v k) - P) ≤ 2 ^ k * (logb 2 v - P) ∧
      2 ^ k * (logb 2 v - P) ≤ digits P v k + (logb 2 (SquaringLog.mantissa P v k) - P) +
        (2 ^ k - 1) * (4 / 2 ^ P) := by
  induction k with
  | zero => simp [digits, SquaringLog.mantissa]
  | succ k ih =>
    obtain ⟨hle, hge⟩ := ih
    obtain ⟨hnext, hnext'⟩ := (hv.mantissa k).logb_next
    rw [digits, SquaringLog.mantissa, pow_succ]
    push_cast
    constructor
    · linarith
    · linarith

/-- The digits bracket the logarithm within one unit of the last digit and what rounding
loses. -/
theorem InRange.digits_bracket (hv : InRange P v) (k : ℕ) :
    (digits P v k : ℝ) ≤ 2 ^ k * (logb 2 v - P) ∧
      2 ^ k * (logb 2 v - P) < digits P v k + 1 + 2 ^ k * (4 / 2 ^ P) := by
  obtain ⟨hle, hge⟩ := hv.logb_run k
  obtain ⟨hlow, hhigh⟩ := hv.mantissa k
  have hpos : (0 : ℝ) < SquaringLog.mantissa P v k := by
    exact_mod_cast (Nat.two_pow_pos P).trans_le hlow
  have hone : (P : ℝ) ≤ logb 2 (SquaringLog.mantissa P v k) := by
    rw [← logb_two_pow P]
    exact logb_le_logb_of_le (by norm_num) (by positivity) (by exact_mod_cast hlow)
  have htwo : logb 2 (SquaringLog.mantissa P v k) < P + 1 := by
    have hlt : logb 2 (SquaringLog.mantissa P v k) < logb 2 ((2 ^ (P + 1) : ℕ) : ℝ) :=
      logb_lt_logb (by norm_num) hpos (by exact_mod_cast hhigh)
    rw [logb_two_pow] at hlt
    exact_mod_cast hlt
  have hunit : (0 : ℝ) < 4 / 2 ^ P := by positivity
  constructor
  · linarith
  · nlinarith

end SquaringLog
