import Mathlib.Data.Nat.Size
import Sequentia.Crypto
import Sequentia.Lib.SquaringLog

/-!
# The exponential race

A staker's draw is turned into a score: the negative logarithm of the draw, divided by the
share of the staker in the total weight. The lowest score wins. Numbers have 32 bits behind the
point; `arith_uint256` and `uint64_t` are natural numbers that wrap around.
-/

namespace Sequentia

open SquaringLog

/-- An operation of `arith_uint256` wraps around. -/
def toUint256 (n : ℕ) : ℕ := n % 2 ^ 256

def posExpFrac : ℕ := 32

def posExpP : ℕ := 61

def posExpLn2Q32 : ℕ := 2977044472

def posVrfMaxSlot : ℕ := 2 ^ 20

/-- One round of the loop of `PosExpLog2Q32`, on the mantissa and the digits. -/
def posExpRound (st : ℕ × ℕ) (i : ℕ) : ℕ × ℕ :=
  let sq := toUint256 (st.1 * st.1) >>> posExpP
  let v := toUint64 sq
  if v >>> (posExpP + 1) ≠ 0 then (v >>> 1, st.2 ||| toUint64 (1 <<< (posExpFrac - i)))
  else (v, st.2)

/-- The mantissa that the loop starts with. -/
def posExpMantissa (beta n : ℕ) : ℕ :=
  toUint64 (if posExpP ≤ n then beta >>> (n - posExpP) else toUint256 (beta <<< (posExpP - n)))

/-- The loop of `PosExpLog2Q32` up to round `k`. -/
def posExpLoop (beta n k : ℕ) : ℕ × ℕ :=
  (List.range' 1 k).foldl posExpRound (posExpMantissa beta n, 0)

def posExpLog2Q32 (beta n : ℕ) : ℕ :=
  toUint64 (n <<< posExpFrac) ||| (posExpLoop beta n posExpFrac).2

def posExpScoreInf : ℕ := toUint256 ((posVrfMaxSlot + 1) <<< posExpFrac)

def posVrfScoreExp (beta : BitVec 256) (weight totalWeight : ℕ) : ℕ :=
  if weight = 0 ∨ totalWeight = 0 then posExpScoreInf
  else
    let bits := beta.toNat.size
    if bits = 0 then posExpScoreInf
    else
      let log2b := posExpLog2Q32 beta.toNat (bits - 1)
      let lc := toUint64 (256 <<< posExpFrac + 2 ^ 64 - log2b)
      let negLn := toUint256 (lc * posExpLn2Q32) >>> posExpFrac
      toUint256 (negLn * totalWeight) / weight

def posVrfSlotExp (beta : BitVec 256) (weight totalWeight : ℕ) : ℕ :=
  let slot := posVrfScoreExp beta weight totalWeight >>> posExpFrac
  if posVrfMaxSlot < slot then posVrfMaxSlot else toUint64 slot

section Loop

variable {beta n : ℕ}

theorem toUint256_of_lt {m : ℕ} (hlt : m < 2 ^ 256) : toUint256 m = m := Nat.mod_eq_of_lt hlt

/-- A number with `n + 1` bits, scaled to a mantissa. -/
theorem inRange_scaled (hlow : 2 ^ n ≤ beta) (hhigh : beta < 2 ^ (n + 1)) :
    InRange posExpP (beta * 2 ^ posExpP / 2 ^ n) := by
  constructor
  · rw [Nat.le_div_iff_mul_le (Nat.two_pow_pos n), Nat.mul_comm]
    exact Nat.mul_le_mul_right _ hlow
  · rw [Nat.div_lt_iff_lt_mul (Nat.two_pow_pos n)]
    calc beta * 2 ^ posExpP < 2 ^ (n + 1) * 2 ^ posExpP :=
          Nat.mul_lt_mul_of_pos_right hhigh (Nat.two_pow_pos _)
      _ = 2 ^ (posExpP + 1) * 2 ^ n := by ring

/-- The loop starts with the draw scaled to a mantissa. -/
theorem posExpMantissa_eq (hlow : 2 ^ n ≤ beta) (hhigh : beta < 2 ^ (n + 1)) :
    posExpMantissa beta n = beta * 2 ^ posExpP / 2 ^ n := by
  have hlt : beta * 2 ^ posExpP / 2 ^ n < 2 ^ 62 := (inRange_scaled hlow hhigh).2
  unfold posExpMantissa
  split
  · next hn =>
    have hshift : beta >>> (n - posExpP) = beta * 2 ^ posExpP / 2 ^ n := by
      rw [Nat.shiftRight_eq_div_pow, ← Nat.sub_add_cancel hn, Nat.pow_add, Nat.sub_add_cancel hn,
        Nat.mul_div_mul_right _ _ (Nat.two_pow_pos _)]
    rw [hshift, toUint64_of_lt (hlt.trans (by decide))]
  · next hn =>
    have hshift : beta <<< (posExpP - n) = beta * 2 ^ posExpP / 2 ^ n := by
      rw [Nat.shiftLeft_eq, ← Nat.sub_add_cancel (Nat.le_of_not_le hn), Nat.pow_add,
        Nat.add_sub_cancel, ← Nat.mul_assoc, Nat.mul_div_cancel _ (Nat.two_pow_pos _)]
    rw [hshift, toUint256_of_lt (hlt.trans (by decide)), toUint64_of_lt (hlt.trans (by decide))]

theorem posExpRound_eq {v F k : ℕ} (hv : InRange posExpP v) (hk : k < posExpFrac) :
    posExpRound (v, F * 2 ^ (posExpFrac - k)) (1 + k) =
      (next posExpP v, (2 * F + digit posExpP v) * 2 ^ (posExpFrac - (k + 1))) := by
  have hsquare : toUint256 (v * v) >>> posExpP = square posExpP v := by
    have hlt : v * v < 2 ^ 62 * 2 ^ 62 := Nat.mul_lt_mul'' hv.2 hv.2
    rw [toUint256_of_lt (hlt.trans (by decide)), Nat.shiftRight_eq_div_pow, square]
  have hword : toUint64 (square posExpP v) = square posExpP v :=
    toUint64_of_lt (hv.square.2.trans (by decide))
  obtain ⟨m, hm⟩ : ∃ m, posExpFrac - k = m + 1 := ⟨posExpFrac - k - 1, by omega⟩
  have hm' : posExpFrac - (1 + k) = m := by omega
  have hm'' : posExpFrac - (k + 1) = m := by omega
  have hbit : (square posExpP v >>> (posExpP + 1) ≠ 0) ↔ 2 ^ (posExpP + 1) ≤ square posExpP v := by
    rw [Nat.shiftRight_eq_div_pow, ← Nat.pos_iff_ne_zero, Nat.div_pos_iff]
    simp
  unfold posExpRound
  dsimp only
  rw [hsquare, hword, hm, hm', hm'']
  by_cases htwo : 2 ^ (posExpP + 1) ≤ square posExpP v
  · have hdigit : digit posExpP v = 1 := if_pos htwo
    have hsmall : 1 <<< m < 2 ^ 64 := by
      rw [Nat.one_shiftLeft]
      exact Nat.pow_lt_pow_right (by decide) (by simp only [posExpFrac] at hm; omega)
    have hor : F * 2 ^ (m + 1) ||| 1 <<< m = (2 * F + 1) * 2 ^ m := by
      rw [Nat.one_shiftLeft, Nat.mul_comm F,
        ← Nat.two_pow_add_eq_or_of_lt (Nat.pow_lt_pow_right (by decide) (Nat.lt_succ_self m)), Nat.pow_succ]
      ring
    rw [if_pos (hbit.mpr htwo), toUint64_of_lt hsmall, hor, next, hdigit, Nat.shiftRight_eq_div_pow]
  · have hdigit : digit posExpP v = 0 := if_neg htwo
    rw [if_neg (mt hbit.mp htwo), next, hdigit, Nat.pow_zero, Nat.div_one, Nat.add_zero,
      Nat.pow_succ]
    congr 1
    ring

theorem posExpLoop_eq (hv : InRange posExpP (posExpMantissa beta n)) {k : ℕ} (hk : k ≤ posExpFrac) :
    posExpLoop beta n k = (mantissa posExpP (posExpMantissa beta n) k,
      digits posExpP (posExpMantissa beta n) k * 2 ^ (posExpFrac - k)) := by
  induction k with
  | zero => simp [posExpLoop, mantissa, digits]
  | succ k ih =>
    rw [posExpLoop, List.range'_concat, List.foldl_append, ← posExpLoop, ih (by omega),
      List.foldl_cons, List.foldl_nil, Nat.one_mul, posExpRound_eq (hv.mantissa k) (by omega)]
    rfl

/-- The logarithm: its whole part and its digits. -/
theorem posExpLog2Q32_eq (hn : n < 256) (hlow : 2 ^ n ≤ beta) (hhigh : beta < 2 ^ (n + 1)) :
    posExpLog2Q32 beta n =
      2 ^ posExpFrac * n + digits posExpP (beta * 2 ^ posExpP / 2 ^ n) posExpFrac := by
  have hmantissa := posExpMantissa_eq hlow hhigh
  have hv : InRange posExpP (posExpMantissa beta n) := hmantissa ▸ inRange_scaled hlow hhigh
  have hwhole : n <<< posExpFrac < 2 ^ 64 := by
    rw [Nat.shiftLeft_eq]
    simp only [posExpFrac]
    omega
  rw [posExpLog2Q32, posExpLoop_eq hv (Nat.le_refl _), toUint64_of_lt hwhole, Nat.sub_self,
    Nat.pow_zero, Nat.mul_one, hmantissa, Nat.shiftLeft_eq, Nat.mul_comm n,
    ← Nat.two_pow_add_eq_or_of_lt (digits_lt _ _ _)]

end Loop

section Draws

open Real

variable {beta beta' : BitVec 256}

/-- The whole part of the logarithm of a draw. -/
def whole (beta : BitVec 256) : ℕ := beta.toNat.size - 1

/-- The logarithm of a draw as the node computes it, with 32 bits behind the point. -/
def drawLog (beta : BitVec 256) : ℕ := posExpLog2Q32 beta.toNat (whole beta)

variable (hbeta : beta ≠ 0)

include hbeta

theorem whole_spec :
    whole beta < 256 ∧ 2 ^ whole beta ≤ beta.toNat ∧ beta.toNat < 2 ^ (whole beta + 1) := by
  have hpos : beta.toNat ≠ 0 := fun h => hbeta (BitVec.eq_of_toNat_eq h)
  have hsize : 0 < beta.toNat.size := Nat.size_pos.mpr (Nat.pos_of_ne_zero hpos)
  have hbound : beta.toNat.size ≤ 256 := Nat.size_le.mpr beta.isLt
  refine ⟨by unfold whole; omega, Nat.lt_size.mp (by unfold whole; omega), ?_⟩
  rw [whole, Nat.sub_add_cancel hsize]
  exact Nat.lt_size_self _

theorem drawLog_eq : drawLog beta = 2 ^ 32 * whole beta +
      digits posExpP (beta.toNat * 2 ^ posExpP / 2 ^ whole beta) posExpFrac := by
  obtain ⟨hn, hlow, hhigh⟩ := whole_spec hbeta
  exact posExpLog2Q32_eq hn hlow hhigh

theorem drawLog_lt : drawLog beta < 2 ^ 40 := by
  have hdigits := digits_lt posExpP (beta.toNat * 2 ^ posExpP / 2 ^ whole beta) posExpFrac
  have hn := (whole_spec hbeta).1
  rw [drawLog_eq hbeta]
  simp only [posExpFrac] at hdigits ⊢
  omega

/-- A larger draw has a larger logarithm. -/
theorem drawLog_mono (hle : beta ≤ beta') : drawLog beta ≤ drawLog beta' := by
  have hle' : beta.toNat ≤ beta'.toNat := hle
  have hbeta' : beta' ≠ 0 := by
    rintro rfl
    exact hbeta (BitVec.eq_of_toNat_eq (Nat.le_zero.mp hle'))
  have hwhole : whole beta ≤ whole beta' := Nat.sub_le_sub_right (Nat.size_le_size hle') 1
  rw [drawLog_eq hbeta, drawLog_eq hbeta']
  rcases Nat.lt_or_eq_of_le hwhole with hlt | heq
  · have hdigits := digits_lt posExpP (beta.toNat * 2 ^ posExpP / 2 ^ whole beta) posExpFrac
    simp only [posExpFrac] at hdigits ⊢
    omega
  · rw [heq]
    refine Nat.add_le_add_left (digits_mono ?_ _) _
    exact Nat.div_le_div_right (Nat.mul_le_mul_right _ hle')

/-- The logarithm is bracketed within its last digit and a small part of it. -/
theorem drawLog_bracket : (drawLog beta : ℝ) ≤ 2 ^ 32 * logb 2 beta.toNat ∧
      2 ^ 32 * logb 2 beta.toNat < drawLog beta + 1 + 1 / 2 ^ 26 := by
  obtain ⟨-, hlow, hhigh⟩ := whole_spec hbeta
  have hv := inRange_scaled hlow hhigh
  obtain ⟨hle, hlt⟩ := hv.digits_bracket posExpFrac
  obtain ⟨hscale, hscale'⟩ := logb_div_bounds (Nat.two_pow_pos (whole beta)) hv.1
  have hbeta0 : (beta.toNat : ℝ) ≠ 0 := by
    have := (Nat.two_pow_pos (whole beta)).trans_le hlow
    exact_mod_cast this.ne'
  rw [logb_two_pow, Nat.cast_mul, logb_mul hbeta0 (by positivity), logb_two_pow] at hscale hscale'
  rw [drawLog_eq hbeta]
  push_cast
  simp only [posExpP, posExpFrac] at hle hlt hscale hscale' ⊢
  norm_num at hle hlt hscale hscale' ⊢
  constructor
  · linarith
  · linarith

omit hbeta

end Draws

section Scores

open Real

variable {beta beta' : BitVec 256} {weight totalWeight : ℕ}

/-- The negative natural logarithm of a draw, with 32 bits behind the point. -/
def drawNegLn (beta : BitVec 256) : ℕ := (2 ^ 40 - drawLog beta) * posExpLn2Q32 / 2 ^ 32

structure RaceSound (weight totalWeight : ℕ) : Prop where
  /-- The mantissa stays in `[1, 2)`. -/
  mantissa : ∀ beta : BitVec 256, beta ≠ 0 → ∀ k ≤ posExpFrac,
    InRange posExpP (posExpLoop beta.toNat (whole beta) k).1
  /-- The logarithm is bracketed within its last digit and the error of rounding. -/
  bracket : ∀ beta : BitVec 256, beta ≠ 0 →
    (drawLog beta : ℝ) ≤ 2 ^ 32 * logb 2 beta.toNat ∧
      2 ^ 32 * logb 2 beta.toNat < drawLog beta + 1 + 1 / 2 ^ 26
  /-- Neither the squares nor the subtraction nor the products wrap around. -/
  noOverflow : ∀ beta : BitVec 256, beta ≠ 0 →
    (∀ k ≤ posExpFrac, (posExpLoop beta.toNat (whole beta) k).1 ^ 2 < 2 ^ 124) ∧
      drawLog beta < 2 ^ 40 ∧ (2 ^ 40 - drawLog beta) * posExpLn2Q32 < 2 ^ 72 ∧
      drawNegLn beta * totalWeight < 2 ^ 104 ∧
      posVrfScoreExp beta weight totalWeight = drawNegLn beta * totalWeight / weight
  weightAnti : ∀ beta weight', weight ≤ weight' → weight' ≤ totalWeight →
    posVrfScoreExp beta weight' totalWeight ≤ posVrfScoreExp beta weight totalWeight
  totalMono : ∀ beta totalWeight', totalWeight ≤ totalWeight' → totalWeight' < 2 ^ 64 →
    posVrfScoreExp beta weight totalWeight ≤ posVrfScoreExp beta weight totalWeight'
  drawAnti : ∀ beta beta' : BitVec 256, beta ≤ beta' →
    posVrfScoreExp beta' weight totalWeight ≤ posVrfScoreExp beta weight totalWeight
  /-- The slot is within the cap. -/
  slot : ∀ beta, posVrfSlotExp beta weight totalWeight ≤ posVrfMaxSlot

theorem drawNegLn_le (beta : BitVec 256) : drawNegLn beta ≤ 762123384832 := by
  unfold drawNegLn posExpLn2Q32
  omega

theorem posVrfScoreExp_eq (hbeta : beta ≠ 0) (hweight : 0 < weight) (htotal : 0 < totalWeight)
    (hlt : totalWeight < 2 ^ 64) :
    posVrfScoreExp beta weight totalWeight = drawNegLn beta * totalWeight / weight := by
  have hlog := drawLog_lt hbeta
  have hbits : beta.toNat.size ≠ 0 := by
    have hpos : beta.toNat ≠ 0 := fun h => hbeta (BitVec.eq_of_toNat_eq h)
    exact (Nat.size_pos.mpr (Nat.pos_of_ne_zero hpos)).ne'
  have hlc : toUint64 (256 <<< posExpFrac + 2 ^ 64 - drawLog beta) = 2 ^ 40 - drawLog beta := by
    have hshift : 256 <<< posExpFrac = 2 ^ 40 := by decide
    rw [hshift, toUint64]
    omega
  have hneg : toUint256 ((2 ^ 40 - drawLog beta) * posExpLn2Q32) >>> posExpFrac =
      drawNegLn beta := by
    rw [toUint256_of_lt (by unfold posExpLn2Q32; omega), Nat.shiftRight_eq_div_pow]
    rfl
  have hproduct : toUint256 (drawNegLn beta * totalWeight) = drawNegLn beta * totalWeight := by
    refine toUint256_of_lt ?_
    calc drawNegLn beta * totalWeight < 2 ^ 40 * 2 ^ 64 :=
          Nat.mul_lt_mul'' ((drawNegLn_le beta).trans_lt (by decide)) hlt
      _ ≤ 2 ^ 256 := by decide
  unfold posVrfScoreExp
  rw [if_neg (by omega)]
  dsimp only
  rw [if_neg hbits]
  change toUint256 (toUint256 (toUint64 (256 <<< posExpFrac + 2 ^ 64 - drawLog beta) *
    posExpLn2Q32) >>> posExpFrac * totalWeight) / weight = _
  rw [hlc, hneg, hproduct]

theorem posVrfScoreExp_zero : posVrfScoreExp 0 weight totalWeight = posExpScoreInf := by
  unfold posVrfScoreExp
  split
  · rfl
  · rfl

/-- A larger draw has a smaller logarithm below one. -/
theorem drawNegLn_anti (hbeta : beta ≠ 0) (hle : beta ≤ beta') :
    drawNegLn beta' ≤ drawNegLn beta := by
  have hlog := drawLog_mono hbeta hle
  unfold drawNegLn
  exact Nat.div_le_div_right (Nat.mul_le_mul_right _ (Nat.sub_le_sub_left hlog _))

theorem drawNegLn_one : drawNegLn 1 = 762123384832 := by decide +kernel

/-- The race is sound for all draws exactly if the sentinel for the draw of zero is above the
score of the smallest other draw. -/
theorem raceSound_iff (hweight : 0 < weight) (hle : weight ≤ totalWeight)
    (hlt : totalWeight < 2 ^ 64) :
    RaceSound weight totalWeight ↔ 762123384832 * totalWeight / weight ≤ 1048577 * 2 ^ 32 := by
  have htotal : 0 < totalWeight := hweight.trans_le hle
  have hinf : posExpScoreInf = 1048577 * 2 ^ 32 := by decide
  constructor
  · intro hsound
    have hscore := hsound.drawAnti 0 1 (by decide)
    rwa [posVrfScoreExp_zero, posVrfScoreExp_eq (by decide) hweight htotal hlt, drawNegLn_one,
      hinf] at hscore
  · intro hsentinel
    have hloop : ∀ beta : BitVec 256, beta ≠ 0 → ∀ k ≤ posExpFrac,
        InRange posExpP (posExpLoop beta.toNat (whole beta) k).1 := by
      intro beta hbeta k hk
      obtain ⟨-, hlow, hhigh⟩ := whole_spec hbeta
      have hv : InRange posExpP (posExpMantissa beta.toNat (whole beta)) :=
        posExpMantissa_eq hlow hhigh ▸ inRange_scaled hlow hhigh
      rw [posExpLoop_eq hv hk]
      exact hv.mantissa k
    refine ⟨hloop, fun beta hbeta => drawLog_bracket hbeta, ?_, ?_, ?_, ?_, ?_⟩
    · intro beta hbeta
      refine ⟨fun k hk => ?_, drawLog_lt hbeta, ?_, ?_, posVrfScoreExp_eq hbeta hweight htotal hlt⟩
      · have hrange := (hloop beta hbeta k hk).2
        calc (posExpLoop beta.toNat (whole beta) k).1 ^ 2 < (2 ^ 62) ^ 2 :=
              Nat.pow_lt_pow_left hrange (by decide)
          _ = 2 ^ 124 := by decide
      · unfold posExpLn2Q32
        omega
      · calc drawNegLn beta * totalWeight < 2 ^ 40 * 2 ^ 64 :=
              Nat.mul_lt_mul'' ((drawNegLn_le beta).trans_lt (by decide)) hlt
          _ = 2 ^ 104 := by decide
    · intro beta weight' hweight' hle'
      by_cases hbeta : beta = 0
      · rw [hbeta, posVrfScoreExp_zero, posVrfScoreExp_zero]
      · rw [posVrfScoreExp_eq hbeta hweight htotal hlt,
          posVrfScoreExp_eq hbeta (hweight.trans_le hweight') htotal hlt]
        exact Nat.div_le_div_left hweight' hweight
    · intro beta totalWeight' hle' hlt'
      by_cases hbeta : beta = 0
      · rw [hbeta, posVrfScoreExp_zero, posVrfScoreExp_zero]
      · rw [posVrfScoreExp_eq hbeta hweight htotal hlt,
          posVrfScoreExp_eq hbeta hweight (htotal.trans_le hle') hlt']
        exact Nat.div_le_div_right (Nat.mul_le_mul_left _ hle')
    · intro beta beta' hdraw
      by_cases hbeta' : beta' = 0
      · have hbeta : beta = 0 := by
          subst hbeta'
          exact BitVec.eq_of_toNat_eq (Nat.le_zero.mp hdraw)
        rw [hbeta, hbeta']
      by_cases hbeta : beta = 0
      · rw [hbeta, posVrfScoreExp_zero, posVrfScoreExp_eq hbeta' hweight htotal hlt, hinf]
        exact (Nat.div_le_div_right (Nat.mul_le_mul_right _ (drawNegLn_le beta'))).trans hsentinel
      · rw [posVrfScoreExp_eq hbeta hweight htotal hlt, posVrfScoreExp_eq hbeta' hweight htotal hlt]
        exact Nat.div_le_div_right (Nat.mul_le_mul_right _ (drawNegLn_anti hbeta hdraw))
    · intro beta
      unfold posVrfSlotExp
      dsimp only
      split
      · exact Nat.le_refl _
      · next hslot => exact (Nat.mod_le _ _).trans (Nat.le_of_not_lt hslot)

/-- A sole staker races soundly. -/
theorem raceSound_sole : RaceSound 1 1 :=
  (raceSound_iff (by decide) (by decide) (by decide)).mpr (by decide)

/-- The draw of zero should lose against every other draw. With one ten-thousandth of the
weight, it wins against the draw of one. -/
theorem zero_draw_wins : posVrfScoreExp 0 1 10000 = 1048577 * 2 ^ 32 ∧
      posVrfScoreExp 1 1 10000 = 762123384832 * 10000 ∧
      posVrfScoreExp 0 1 10000 < posVrfScoreExp 1 1 10000 := by
  decide +kernel

end Scores

end Sequentia
