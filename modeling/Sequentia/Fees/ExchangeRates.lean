import Mathlib.Order.Basic
import Mathlib.Tactic.Linarith
import Sequentia.Transaction

/-!
# Exchange rates of fee assets

`ExchangeRateMap` prices fees paid in any asset: a rate is the number of reference atoms per
`exchange_rate_scale` atoms of the asset. One conversion floors and the other rounds up, both
over 128-bit unsigned products and both capped at the largest 64-bit signed number. The module
shows that the two are adjoint below the cap, so the amount quoted for a value is the least
amount worth it, and that the cap keeps them monotone.
-/

namespace Sequentia

/-- `std::numeric_limits<int64_t>::max()`. -/
def int64Max : ℤ := 2 ^ 63 - 1

def exchangeRateScale : ℤ := 100000000

/-- The conversion of an integer to `__uint128_t`. -/
def uint128 (x : ℤ) : ℤ := x % 2 ^ 128

structure CAssetExchangeRate where
  /-- `m_scaled_value`: atoms of the reference unit for `exchangeRateScale` atoms. -/
  scaledValue : ℤ
  scaledValue_le : scaledValue ≤ int64Max := by decide

/-- `ExchangeRateMap`: the rates of the listed assets. -/
abbrev ExchangeRateMap := CAsset → Option CAssetExchangeRate

/-- The cap of both conversions. -/
def capped (result : ℤ) : ℤ := if int64Max < result then int64Max else result

def convertAmountToValue (rates : ExchangeRateMap) (amount : ℤ) (asset : CAsset) : ℤ :=
  match rates asset with
  | none => 0
  | some rate =>
    if rate.scaledValue ≤ 0 then 0
    else capped (uint128 (uint128 amount * uint128 rate.scaledValue) / uint128 exchangeRateScale)

def convertValueToAmount (rates : ExchangeRateMap) (value : ℤ) (asset : CAsset) : ℤ :=
  match rates asset with
  | none => 0
  | some rate =>
    if rate.scaledValue ≤ 0 then 0
    else capped (uint128 (uint128 value * uint128 exchangeRateScale +
      uint128 rate.scaledValue - 1) / uint128 rate.scaledValue)

/-- `CFeeRate`: the fee in the reference unit for a number of bytes is given, since its
rounding is done in floating point. -/
structure CFeeRate where
  /-- `GetFee(num_bytes)`. -/
  getFee : ℕ → ℤ

/-- `CFeeRate::GetFee(num_bytes, asset)`. -/
def CFeeRate.getFeeIn (feeRate : CFeeRate) (anyAssetFees : Bool) (rates : ExchangeRateMap)
    (numBytes : ℕ) (asset : CAsset) : ℤ :=
  if anyAssetFees then convertValueToAmount rates (feeRate.getFee numBytes) asset
  else feeRate.getFee numBytes

/-- A number that fits 128 bits is converted to itself. -/
theorem uint128_of_lt {x : ℤ} (hx : 0 ≤ x) (hlt : x < 2 ^ 128) : uint128 x = x :=
  Int.emod_eq_of_lt hx hlt

theorem capped_eq (result : ℤ) : capped result = min int64Max result := by
  unfold capped
  split <;> omega

section Listed

variable {rates : ExchangeRateMap} {asset : CAsset} {rate : CAssetExchangeRate}

variable {amount value a b : ℤ}

/-- At a positive rate an amount is worth the floor of the exact quotient, up to the cap. -/
theorem convertAmountToValue_eq (hlisted : rates asset = some rate) (hrate : 0 < rate.scaledValue)
    (hamount : 0 ≤ amount) (hmax : amount ≤ int64Max) :
    convertAmountToValue rates amount asset =
      min int64Max (amount * rate.scaledValue / exchangeRateScale) := by
  have hle := rate.scaledValue_le
  unfold int64Max at hle hmax
  have hprod : amount * rate.scaledValue < 2 ^ 128 := by nlinarith
  rw [convertAmountToValue, hlisted]
  dsimp only
  rw [if_neg (by omega), capped_eq, uint128_of_lt hamount (by omega),
    uint128_of_lt hrate.le (by omega), uint128_of_lt (by positivity) hprod,
    uint128_of_lt (by decide) (by decide)]

/-- At a positive rate a value is quoted at the exact quotient rounded up, up to the cap. -/
theorem convertValueToAmount_eq (hlisted : rates asset = some rate) (hrate : 0 < rate.scaledValue)
    (hvalue : 0 ≤ value) (hmax : value ≤ int64Max) :
    convertValueToAmount rates value asset =
      min int64Max ((value * exchangeRateScale + rate.scaledValue - 1) / rate.scaledValue) := by
  have hle := rate.scaledValue_le
  unfold int64Max at hle hmax
  have hprod : 0 ≤ value * exchangeRateScale + rate.scaledValue - 1 ∧
      value * exchangeRateScale + rate.scaledValue - 1 < 2 ^ 128 := by
    unfold exchangeRateScale
    omega
  rw [convertValueToAmount, hlisted]
  dsimp only
  rw [if_neg (by omega), capped_eq, uint128_of_lt hvalue (by omega),
    uint128_of_lt hrate.le (by omega),
    uint128_of_lt (x := exchangeRateScale) (by decide) (by decide),
    uint128_of_lt hprod.1 hprod.2]

/-- Rounding a quotient up is adjoint to rounding the inverse quotient down. -/
theorem ceil_le_iff_le_floor {scale r : ℤ} (hscale : 0 < scale) (hr : 0 < r) (amount value : ℤ) :
    (value * scale + r - 1) / r ≤ amount ↔ value ≤ amount * r / scale := by
  have hceil : (value * scale + r - 1) / r ≤ amount ↔ value * scale ≤ amount * r := by
    rw [← Int.lt_add_one_iff, Int.ediv_lt_iff_lt_mul hr, add_mul, one_mul]
    omega
  rw [hceil, Int.le_ediv_iff_mul_le hscale]

/-- The amount a value is quoted at, before the cap, is a 64-bit number. -/
def Fits (rate : CAssetExchangeRate) (value : ℤ) : Prop :=
  value * exchangeRateScale ≤ int64Max * rate.scaledValue

theorem Fits.convertValueToAmount_eq (hfits : Fits rate value) (hlisted : rates asset = some rate)
    (hrate : 0 < rate.scaledValue) (hvalue : 0 ≤ value) (hmax : value ≤ int64Max) :
    convertValueToAmount rates value asset =
      (value * exchangeRateScale + rate.scaledValue - 1) / rate.scaledValue := by
  rw [Sequentia.convertValueToAmount_eq hlisted hrate hvalue hmax]
  refine min_eq_right ?_
  rw [ceil_le_iff_le_floor (by decide) hrate, Int.le_ediv_iff_mul_le (by decide)]
  exact hfits

variable (hlisted : rates asset = some rate)

include hlisted

theorem le_convertAmountToValue_iff
    (hrate : 0 < rate.scaledValue) (hamount : 0 ≤ amount) (hamountMax : amount ≤ int64Max)
    (hvalue : 0 ≤ value) (hvalueMax : value ≤ int64Max) (hfits : Fits rate value) :
    value ≤ convertAmountToValue rates amount asset ↔
      convertValueToAmount rates value asset ≤ amount := by
  rw [hfits.convertValueToAmount_eq hlisted hrate hvalue hvalueMax,
    convertAmountToValue_eq hlisted hrate hamount hamountMax,
    ceil_le_iff_le_floor (by decide) hrate, le_min_iff]
  exact ⟨And.right, fun h => ⟨hvalueMax, h⟩⟩

/-- The quote for a value is a non-negative 64-bit number. -/
theorem convertValueToAmount_bounds
    (hrate : 0 < rate.scaledValue) (hvalue : 0 ≤ value) (hmax : value ≤ int64Max) :
    0 ≤ convertValueToAmount rates value asset ∧
      convertValueToAmount rates value asset ≤ int64Max := by
  rw [convertValueToAmount_eq hlisted hrate hvalue hmax]
  refine ⟨le_min (by decide) (Int.ediv_nonneg ?_ hrate.le), min_le_left _ _⟩
  unfold exchangeRateScale
  omega

omit hlisted

end Listed

/-- The conversions of an accepted asset: an amount is worth a value exactly when it is at least
the quote for the value; the fee `GetFee` quotes is the least amount worth the fee asked; on all
non-negative 64-bit numbers both conversions are monotone and give the exact quotient or the
cap. -/
theorem conversions_adjoint (rates : ExchangeRateMap) (asset : CAsset) (rate : CAssetExchangeRate)
    (hlisted : rates asset = some rate) (hrate : 0 < rate.scaledValue) :
    (∀ amount value, 0 ≤ amount → amount ≤ int64Max → 0 ≤ value → value ≤ int64Max →
      Fits rate value →
      (value ≤ convertAmountToValue rates amount asset ↔
        convertValueToAmount rates value asset ≤ amount)) ∧
    (∀ (feeRate : CFeeRate) (numBytes : ℕ), 0 ≤ feeRate.getFee numBytes →
      feeRate.getFee numBytes ≤ int64Max → Fits rate (feeRate.getFee numBytes) →
      IsLeast {amount | 0 ≤ amount ∧ amount ≤ int64Max ∧
          feeRate.getFee numBytes ≤ convertAmountToValue rates amount asset}
        (feeRate.getFeeIn true rates numBytes asset)) ∧
    (∀ a b, 0 ≤ a → a ≤ b → b ≤ int64Max →
      convertAmountToValue rates a asset ≤ convertAmountToValue rates b asset ∧
        convertValueToAmount rates a asset ≤ convertValueToAmount rates b asset) ∧
    ∀ x, 0 ≤ x → x ≤ int64Max →
      convertAmountToValue rates x asset =
          min int64Max (x * rate.scaledValue / exchangeRateScale) ∧
        convertValueToAmount rates x asset =
          min int64Max ((x * exchangeRateScale + rate.scaledValue - 1) / rate.scaledValue) := by
  refine ⟨fun amount value => le_convertAmountToValue_iff hlisted hrate, ?_, ?_, ?_⟩
  · intro feeRate numBytes hfee hmax hfits
    have hbounds := convertValueToAmount_bounds hlisted hrate hfee hmax
    refine ⟨⟨hbounds.1, hbounds.2, ?_⟩, fun amount hamount => ?_⟩
    · exact (le_convertAmountToValue_iff hlisted hrate hbounds.1 hbounds.2 hfee hmax hfits).mpr
        le_rfl
    · obtain ⟨hnonneg, hle, hworth⟩ := hamount
      exact (le_convertAmountToValue_iff hlisted hrate hnonneg hle hfee hmax hfits).mp hworth
  · intro a b ha hab hb
    have hb' := hab.trans hb
    rw [convertAmountToValue_eq hlisted hrate ha hb', convertValueToAmount_eq hlisted hrate ha hb',
      convertAmountToValue_eq hlisted hrate (ha.trans hab) hb,
      convertValueToAmount_eq hlisted hrate (ha.trans hab) hb]
    refine ⟨min_le_min_left _ (Int.ediv_le_ediv (by decide) (by nlinarith)),
      min_le_min_left _ (Int.ediv_le_ediv hrate ?_)⟩
    unfold exchangeRateScale
    omega
  · intro x hx hmax
    exact ⟨convertAmountToValue_eq hlisted hrate hx hmax,
      convertValueToAmount_eq hlisted hrate hx hmax⟩

/-- An asset listed at a third of the reference unit: three hundred atoms are worth one hundred,
and a fee of one hundred is quoted at three hundred and one, as the rate is rounded down. -/
theorem conversions_adjoint_third :
    let rates : ExchangeRateMap := fun _ => some ⟨33333333, by decide⟩
    convertAmountToValue rates 301 1 = 100 ∧ convertAmountToValue rates 300 1 = 99 ∧
      convertValueToAmount rates 100 1 = 301 ∧
      (100 ≤ convertAmountToValue rates 301 1 ↔ convertValueToAmount rates 100 1 ≤ 301) :=
  ⟨by decide +kernel, by decide +kernel, by decide +kernel,
    (conversions_adjoint _ 1 ⟨33333333, by decide⟩ rfl (by decide)).1 301 100
      (by decide) (by decide) (by decide) (by decide) (by unfold Fits; decide)⟩

end Sequentia
