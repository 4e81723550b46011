import Mathlib.Tactic.Linarith
import Sequentia.Crypto
import Sequentia.Fees.ExchangeRates

/-!
# Which rewards are sold, and for what

The policy of reward auto-conversion: reward coins are gathered into one batch per asset, and a
batch is sold when the book's quote clears the floor and lands close enough to the reference
price. The distance is a number of basis points, computed with a 64-bit product of the shortfall;
the module shows that the limit means what it says exactly as far as that product fits.
-/

namespace Sequentia

structure RewardConvertSettings where
  enabled : Bool := false
  /-- `target`: the asset converted into; `none` is native Bitcoin. -/
  target : Option CAsset := none
  exclude : List CAsset := []
  /-- `min_receive`, in atoms of the target. -/
  minReceive : ℤ := 10000
  maxSlippageBp : ℤ := 200

def RewardConvertSettings.isTargetAsset (settings : RewardConvertSettings) (asset : CAsset) :
    Bool :=
  settings.target == some asset

structure RewardCoin where
  outpoint : COutPoint
  asset : CAsset
  amount : ℤ
  mature : Bool
  spent : Bool
  deriving DecidableEq

def RewardCoin.convertible (coin : RewardCoin) : Bool := coin.mature && !coin.spent

structure RewardBatch where
  asset : CAsset
  inputs : List COutPoint
  value : ℤ
  deriving DecidableEq

structure RewardQuote where
  receives : ℤ
  reference : ℤ
  deriving DecidableEq

/-- `RewardQuote::SlippageBp`. The product is a 64-bit one, and so is its wrapping. -/
def RewardQuote.slippageBp (quote : RewardQuote) : ℤ :=
  if quote.reference ≤ 0 ∨ quote.receives ≥ quote.reference then 0
  else
    let shortfall := quote.reference - quote.receives
    let bp := (Int.bmod (shortfall * 10000) (2 ^ 64)).tdiv quote.reference
    min bp 10000

inductive RewardDecisionKind
  | convert
  | disabled
  | notConverted
  | noMarket
  | tooSmallToPrice
  | belowFloor
  | slippageTooHigh
  deriving DecidableEq

structure RewardDecision where
  kind : RewardDecisionKind := .disabled
  receives : ℤ := 0
  floor : ℤ := 0
  slippageBp : ℤ := 0
  capBp : ℤ := 0
  deriving DecidableEq

def RewardDecision.converts (d : RewardDecision) : Bool := d.kind == .convert

/-- `RewardBatches`, before sorting: the eligible coins of one asset. -/
def RewardCoin.eligible (settings : RewardConvertSettings) (alreadyConverted : List COutPoint)
    (coin : RewardCoin) : Bool :=
  coin.convertible && !alreadyConverted.contains coin.outpoint &&
    !settings.isTargetAsset coin.asset && !settings.exclude.contains coin.asset

def batchOf (coins : List RewardCoin) (asset : CAsset) : RewardBatch :=
  let mine := coins.filter fun coin => coin.asset == asset
  ⟨asset, mine.map RewardCoin.outpoint, (mine.map RewardCoin.amount).sum⟩

/-- `RewardBatches`: one batch per asset, biggest first. -/
def rewardBatches (rewards : List RewardCoin) (settings : RewardConvertSettings)
    (alreadyConverted : List COutPoint) : List RewardBatch :=
  let coins := rewards.filter (RewardCoin.eligible settings alreadyConverted)
  ((coins.map RewardCoin.asset).eraseDups.map (batchOf coins)).mergeSort fun a b =>
    if a.value = b.value then (compare a.asset b.asset).isLE else b.value ≤ a.value

def decideRewardConversion (batch : RewardBatch) (quote : Option RewardQuote)
    (settings : RewardConvertSettings) : RewardDecision :=
  if !settings.enabled then { kind := .disabled }
  else if settings.isTargetAsset batch.asset || settings.exclude.contains batch.asset then
    { kind := .notConverted }
  else match quote with
    | none => { kind := .noMarket }
    | some quote =>
      if quote.receives ≤ 0 then
        { kind := if 0 < quote.reference then .tooSmallToPrice else .noMarket }
      else
        let slip := quote.slippageBp
        if settings.maxSlippageBp < slip then
          { kind := .slippageTooHigh, slippageBp := slip, capBp := settings.maxSlippageBp }
        else if quote.receives < settings.minReceive then
          { kind := .belowFloor, receives := quote.receives, floor := settings.minReceive }
        else { kind := .convert, receives := quote.receives }

def rewardSliceForWholeHtlc (offerAtoms batchAtoms : ℤ) : ℤ :=
  if offerAtoms ≤ 0 ∨ batchAtoms ≤ 0 then 0 else min offerAtoms batchAtoms

/-- The product of `SlippageBp`, where it is computed, is a 64-bit number. -/
def RewardQuote.SlippageFits (quote : RewardQuote) : Prop :=
  0 < quote.reference → quote.receives < quote.reference →
    (quote.reference - quote.receives) * 10000 ≤ int64Max

structure SaleAllowed (batch : RewardBatch) (quote : RewardQuote)
    (settings : RewardConvertSettings) : Prop where
  enabled : settings.enabled = true
  notExcluded : batch.asset ∉ settings.exclude
  notTarget : settings.target ≠ some batch.asset
  floor : settings.minReceive ≤ quote.receives
  close : (quote.reference - quote.receives) * 10000 <
    (settings.maxSlippageBp + 1) * quote.reference

theorem converts_imp {batch : RewardBatch} {quote : Option RewardQuote}
    {settings : RewardConvertSettings}
    (hconverts : (decideRewardConversion batch quote settings).converts = true) :
    ∃ q, quote = some q ∧ settings.enabled = true ∧ batch.asset ∉ settings.exclude ∧
      settings.target ≠ some batch.asset ∧ 0 < q.receives ∧
      q.slippageBp ≤ settings.maxSlippageBp ∧ settings.minReceive ≤ q.receives := by
  revert hconverts
  fun_cases decideRewardConversion batch quote settings <;> intro hconverts <;> try cases hconverts
  case case4 => split at hconverts <;> cases hconverts
  case case7 henabled hasset q hreceives _ hslip hfloor =>
    simp only [RewardConvertSettings.isTargetAsset, Bool.or_eq_true, beq_iff_eq,
      List.contains_iff_mem, not_or] at hasset
    exact ⟨q, rfl, by simpa using henabled, hasset.2, hasset.1, by omega, by omega, by omega⟩

/-- Where the product fits, the limit bounds the shortfall. -/
theorem RewardQuote.SlippageFits.close {quote : RewardQuote} {cap : ℤ}
    (hfits : quote.SlippageFits) (hreceives : 0 < quote.receives)
    (hreference : 0 ≤ quote.reference) (hcap : quote.slippageBp ≤ cap) :
    (quote.reference - quote.receives) * 10000 < (cap + 1) * quote.reference := by
  unfold slippageBp at hcap
  split at hcap
  · rcases eq_or_lt_of_le hreference with hzero | hpos
    · rw [← hzero]
      omega
    · have hgain : quote.reference - quote.receives ≤ 0 := by omega
      nlinarith
  · next hshort =>
    obtain ⟨hpos, hless⟩ := not_or.mp hshort
    have hproduct := hfits (by omega) (by omega)
    have hexact : Int.bmod ((quote.reference - quote.receives) * 10000) (2 ^ 64) =
        (quote.reference - quote.receives) * 10000 :=
      Int.bmod_eq_of_le (by omega) (by unfold int64Max at hproduct; omega)
    -- The quotient is below 10000, so the minimum does not matter.
    have hquotient : ((quote.reference - quote.receives) * 10000).tdiv quote.reference =
        (quote.reference - quote.receives) * 10000 / quote.reference :=
      Int.tdiv_eq_ediv_of_nonneg (by omega)
    have hbelow : (quote.reference - quote.receives) * 10000 / quote.reference < 10000 :=
      Int.ediv_lt_of_lt_mul (by omega) (by omega)
    dsimp only at hcap
    rw [hexact, hquotient, min_eq_left hbelow.le] at hcap
    exact (Int.ediv_lt_iff_lt_mul (by omega)).mp (Int.lt_add_one_iff.mpr hcap)

/-- A sale of a batch obeys the settings, and no product overflows, exactly when the shortfall of
the quote is at most a ten-thousandth of the largest 64-bit number. -/
theorem reward_decision_iff (maxMoney : ℤ) (batch : RewardBatch) (quote : Option RewardQuote)
    (settings : RewardConvertSettings)
    (hquote : ∀ q ∈ quote, (0 ≤ q.receives ∧ q.receives ≤ maxMoney) ∧
      0 ≤ q.reference ∧ q.reference ≤ maxMoney) :
    (((decideRewardConversion batch quote settings).converts = true →
        ∃ q ∈ quote, SaleAllowed batch q settings) ∧ ∀ q ∈ quote, q.SlippageFits) ↔
      ∀ q ∈ quote, q.reference - q.receives ≤ int64Max / 10000 := by
  have hiff : ∀ q ∈ quote, (q.SlippageFits ↔ q.reference - q.receives ≤ int64Max / 10000) := by
    intro q hq
    obtain ⟨⟨hreceives, -⟩, hreference, -⟩ := hquote q hq
    unfold RewardQuote.SlippageFits int64Max
    constructor
    · intro hfits
      by_cases hshort : q.receives < q.reference
      · have := hfits (by omega) hshort
        omega
      · omega
    · intro hle _ _
      omega
  constructor
  · rintro ⟨-, hfits⟩ q hq
    exact (hiff q hq).mp (hfits q hq)
  · intro hshort
    have hfits : ∀ q ∈ quote, q.SlippageFits := fun q hq => (hiff q hq).mpr (hshort q hq)
    refine ⟨fun hconverts => ?_, hfits⟩
    obtain ⟨q, hq, henabled, hexclude, htarget, hreceives, hslip, hfloor⟩ :=
      converts_imp hconverts
    refine ⟨q, hq, henabled, hexclude, htarget, hfloor, ?_⟩
    exact (hfits q hq).close hreceives (hquote q hq).2.1 hslip

/-- A batch quoted one and a half percent below the reference is converted within the limit. -/
theorem reward_decision_close : (decideRewardConversion ⟨1, [], 500⟩ (some ⟨985000, 1000000⟩)
        { enabled := true }).converts = true ∧
      SaleAllowed ⟨1, [], 500⟩ ⟨985000, 1000000⟩ { enabled := true } := by
  have hconverts : (decideRewardConversion ⟨1, [], 500⟩ (some ⟨985000, 1000000⟩)
      { enabled := true }).converts = true := by decide +kernel
  have hiff := reward_decision_iff 2100000000000000 ⟨1, [], 500⟩ (some ⟨985000, 1000000⟩)
    { enabled := true } (by simp)
  obtain ⟨q, hq, hallowed⟩ := (hiff.mpr (by simp [int64Max])).1 hconverts
  obtain rfl := Option.some.inj hq
  exact ⟨hconverts, hallowed⟩

/-- A batch worth fifteen million coins at the reference price is sold for ten thousand atoms: the
product wraps to a negative number, which is below every limit. -/
theorem reward_decision_wrapped :
    let quote : RewardQuote := ⟨10000, 1500000000000000⟩
    (decideRewardConversion ⟨1, [], 500⟩ (some quote) { enabled := true }).converts = true ∧
      quote.slippageBp = -2297 ∧ ¬ SaleAllowed ⟨1, [], 500⟩ quote { enabled := true } := by
  refine ⟨by decide +kernel, by decide +kernel, fun hallowed => ?_⟩
  exact absurd hallowed.close (by decide +kernel)

end Sequentia
