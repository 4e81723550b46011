import Sequentia.Crypto
import Sequentia.Fees.ExchangeRates
import Sequentia.WalletCoins

/-!
# The refund of an asset leg

`RefundSeqLeg` sizes its fee in two passes: coins are gathered for a guessed size, the transaction
is built and measured, and it is built again with the fee for the measured size. The fee comes out
of the refunded asset where the node prices that asset, capped at half of the leg, and otherwise
out of the wallet's policy coins. The refund always balances; the module says exactly when it also
pays for its final size and is produced whenever the leg or the wallet could pay.
-/

namespace Sequentia

open List

/-- What the refund of a leg is built from. -/
structure RefundInput where
  /-- The amount of the leg. -/
  value : ℤ
  asset : CAsset
  anyAssetFees : Bool
  rates : ExchangeRateMap
  minRelayTxFee : CFeeRate
  policyAsset : CAsset
  /-- The policy coins of the wallet, as `AvailableCoins` lists them. -/
  avail : List WalletCoin
  dest : CScript
  change : CScript
  /-- `GetVirtualTransactionSize` of what a pass builds, the last one or the first, from the coins
  it spends and the number of its outputs: amounts have a fixed width, signatures have not. -/
  vsize : Bool → List WalletCoin → ℕ → ℕ

/-- The transaction sent: the leg and these coins are spent. -/
structure RefundTx where
  /-- The coins spent besides the leg. -/
  feeCoins : List WalletCoin
  vout : List CTxOut

/-- `::minRelayTxFee.GetFee(num_bytes, asset)`. -/
def RefundInput.getFee (r : RefundInput) (numBytes : ℕ) (asset : CAsset) : ℤ :=
  r.minRelayTxFee.getFeeIn r.anyAssetFees r.rates numBytes asset

def RefundInput.assetPaysItsOwnFee (r : RefundInput) : Bool :=
  r.anyAssetFees && decide (0 < r.getFee 1000 r.asset)

def RefundInput.feeAsset (r : RefundInput) : CAsset :=
  if r.assetPaysItsOwnFee then r.asset else r.policyAsset

/-- The coin can pay the fee. -/
def WalletCoin.usable (policyAsset : CAsset) (coin : WalletCoin) : Bool :=
  coin.spendable && coin.asset == policyAsset && coin.explicitValue && coin.explicitAsset &&
    decide (0 < coin.amount)

def gatherFeeCoins (policyAsset : CAsset) (fee : ℤ) : ℤ → List WalletCoin → List WalletCoin
  | _, [] => []
  | gathered, coin :: avail =>
    if fee ≤ gathered then []
    else if coin.usable policyAsset then
      coin :: gatherFeeCoins policyAsset fee (gathered + coin.amount) avail
    else gatherFeeCoins policyAsset fee gathered avail

def firstGuessVsize : ℕ := 380

def sigWobble : ℕ := 2

def RefundInput.feeFor (r : RefundInput) (size : ℕ) : ℤ := max 1 (r.getFee size r.feeAsset)

def RefundInput.pass (r : RefundInput) (feeCoins : List WalletCoin) (fee : ℤ) :
    Except String (List CTxOut) :=
  if r.assetPaysItsOwnFee then
    let fee := if r.value / 2 < fee then max 1 (r.value / 2) else fee
    if r.value ≤ fee then .error "the leg is too small to refund"
    else .ok [explicitOut r.asset (r.value - fee) r.dest, explicitOut r.asset fee []]
  else
    let gathered := totalAmount feeCoins
    if gathered < fee then
      .error ("the wallet has only " ++ toString gathered ++ " " ++ r.policyAsset.getHex ++
        ", and this refund needs " ++ toString fee ++ " for its fee")
    else .ok (explicitOut r.asset r.value r.dest ::
      (if fee < gathered then [explicitOut r.policyAsset (gathered - fee) r.change] else []) ++
      [explicitOut r.policyAsset fee []])

/-- The coins the refund spends besides the leg. -/
def RefundInput.feeCoins (r : RefundInput) : List WalletCoin :=
  if r.assetPaysItsOwnFee then []
  else gatherFeeCoins r.policyAsset (r.feeFor firstGuessVsize) 0 r.avail

/-- `RefundSeqLeg`, once the leg was found and the addresses were drawn, up to the broadcast. -/
def refundSeqLeg (r : RefundInput) : Except String RefundTx :=
  let fee := r.feeFor firstGuessVsize
  if r.assetPaysItsOwnFee ∧ r.value ≤ fee then .error "the leg is too small to refund"
  else if ¬ r.assetPaysItsOwnFee ∧ totalAmount r.feeCoins < fee then
    .error ("this node does not take fees in " ++ r.asset.getHex ++ ", and the wallet has no " ++
      r.policyAsset.getHex ++ " to pay the refund's fee with; the asset stays locked and " ++
      "refundable until it does")
  else
    match r.pass r.feeCoins fee with
    | .error error => .error error
    | .ok vout =>
      let measured := r.vsize false r.feeCoins vout.length + sigWobble
      match r.pass r.feeCoins (r.feeFor measured) with
      | .error error => .error error
      | .ok vout => .ok ⟨r.feeCoins, vout⟩

/-- The transaction spends of every asset what it pays out. -/
def RefundTx.Balanced (r : RefundInput) (tx : RefundTx) : Prop :=
  ∀ asset, assetTotal asset ((r.asset, r.value) :: tx.feeCoins.map fun c => (c.asset, c.amount)) =
    assetTotal asset (tx.vout.filterMap CTxOut.explicit?)

/-- The node takes fees in the asset. -/
def RefundInput.accepts (r : RefundInput) (asset : CAsset) : Bool :=
  if r.anyAssetFees then (r.rates asset).any fun rate => decide (0 < rate.scaledValue)
  else asset == r.policyAsset

def RefundInput.Pays (r : RefundInput) (size : ℕ) (asset : CAsset) (fee : ℤ) : Prop :=
  r.accepts asset = true ∧ r.getFee size asset ≤ fee

/-- The last output is a fee that is at least the relay minimum for the size the transaction is
sent with. -/
def RefundTx.PaysForItself (r : RefundInput) (tx : RefundTx) : Prop :=
  ∃ fee, tx.vout.getLast? = some (explicitOut r.feeAsset fee []) ∧
    r.Pays (r.vsize true tx.feeCoins tx.vout.length) r.feeAsset fee

def RefundInput.LegCanPay (r : RefundInput) : Prop :=
  ∃ fee, 0 < fee ∧ fee < r.value ∧ r.Pays (r.vsize true [] 2) r.asset fee

/-- Some of the wallet's unblinded policy coins could pay for a refund that spends them. -/
def RefundInput.WalletCanPay (r : RefundInput) : Prop :=
  ∃ coins, coins.Sublist (r.avail.filter (WalletCoin.usable r.policyAsset)) ∧
    ∃ fee, 0 < fee ∧ fee ≤ totalAmount coins ∧
      r.Pays (r.vsize true coins (if fee < totalAmount coins then 3 else 2)) r.policyAsset fee

theorem gatherFeeCoins_sublist (policyAsset : CAsset) (fee gathered : ℤ) (avail : List WalletCoin) :
    (gatherFeeCoins policyAsset fee gathered avail).Sublist
      (avail.filter (WalletCoin.usable policyAsset)) := by
  induction avail generalizing gathered with
  | nil => exact List.Sublist.refl _
  | cons coin avail ih =>
    rw [gatherFeeCoins]
    split
    · exact nil_sublist _
    · split
      · next husable =>
        rw [filter_cons_of_pos husable]
        exact (ih _).cons_cons coin
      · next husable =>
        rw [filter_cons_of_neg husable]
        exact ih _

variable {r : RefundInput}

theorem pass_own (hown : r.assetPaysItsOwnFee = true) (coins : List WalletCoin) {fee : ℤ}
    (hvalue : 2 ≤ r.value) :
    r.pass coins fee =
      .ok [explicitOut r.asset (r.value - min fee (r.value / 2)) r.dest,
        explicitOut r.asset (min fee (r.value / 2)) []] := by
  have hcap : (if r.value / 2 < fee then max 1 (r.value / 2) else fee) = min fee (r.value / 2) := by
    split <;> omega
  simp only [RefundInput.pass, hown, if_true, hcap]
  rw [if_neg (by omega)]

theorem pass_policy (hown : r.assetPaysItsOwnFee = false) (coins : List WalletCoin) {fee : ℤ} :
    (fee ≤ totalAmount coins → ∃ vout, r.pass coins fee = .ok vout ∧
      vout.length = (if fee < totalAmount coins then 3 else 2) ∧
      vout.getLast? = some (explicitOut r.policyAsset fee []) ∧
      ∀ asset, assetTotal asset (vout.filterMap CTxOut.explicit?) =
        (if r.asset = asset then r.value else 0) +
          (if r.policyAsset = asset then totalAmount coins else 0)) ∧
    (totalAmount coins < fee → ∃ error, r.pass coins fee = .error error) := by
  simp only [RefundInput.pass, hown, Bool.false_eq_true, if_false]
  constructor
  · intro hle
    rw [if_neg (not_lt.mpr hle)]
    refine ⟨_, rfl, ?_, ?_, fun asset => ?_⟩
    · split <;> rfl
    · split <;> rfl
    · split
      · simp
        split <;> omega
      · have hall : fee = totalAmount coins := by omega
        simp [hall]
  · intro hlt
    rw [if_pos hlt]
    exact ⟨_, rfl⟩

theorem accepts_of_own (hown : r.assetPaysItsOwnFee = true) : r.accepts r.asset = true := by
  obtain ⟨hany, hfee⟩ := Bool.and_eq_true_iff.mp hown
  have hfee := of_decide_eq_true hfee
  rw [RefundInput.getFee, CFeeRate.getFeeIn, if_pos hany, convertValueToAmount] at hfee
  rw [RefundInput.accepts, if_pos hany]
  cases hrate : r.rates r.asset with
  | none => simp [hrate] at hfee
  | some rate =>
    simp only [hrate] at hfee
    split at hfee
    · cases hfee
    · next hpos => simpa using hpos

theorem refundSeqLeg_own (hown : r.assetPaysItsOwnFee = true) :
    (r.feeFor firstGuessVsize < r.value → ∃ tx, refundSeqLeg r = .ok tx ∧ tx.Balanced r ∧
      (tx.PaysForItself r ↔ r.getFee (r.vsize true [] 2) r.asset ≤
        min (r.feeFor (r.vsize false [] 2 + sigWobble)) (r.value / 2))) ∧
    (r.value ≤ r.feeFor firstGuessVsize → ∃ error, refundSeqLeg r = .error error) := by
  have hasset : r.feeAsset = r.asset := by rw [RefundInput.feeAsset, if_pos hown]
  have hcoins : r.feeCoins = [] := by rw [RefundInput.feeCoins, if_pos hown]
  constructor
  · intro hlt
    have hone : 1 ≤ r.feeFor firstGuessVsize := le_max_left ..
    refine ⟨⟨[], [explicitOut r.asset (r.value - min (r.feeFor (r.vsize false [] 2 + sigWobble))
      (r.value / 2)) r.dest, explicitOut r.asset (min (r.feeFor (r.vsize false [] 2 + sigWobble))
      (r.value / 2)) []]⟩, ?_, fun asset => ?_, ?_⟩
    · unfold refundSeqLeg
      rw [if_neg fun h => absurd h.2 (not_le.mpr hlt), if_neg fun h => h.1 hown, hcoins,
        pass_own hown [] (by omega)]
      dsimp only [length_cons, length_nil]
      rw [pass_own hown [] (by omega)]
    · simp
      split <;> omega
    · simp only [RefundTx.PaysForItself, RefundInput.Pays, hasset, accepts_of_own hown, true_and]
      constructor
      · rintro ⟨fee, hlast, hpays⟩
        obtain rfl : _ = fee := by simpa [explicitOut] using hlast
        exact hpays
      · intro hpays
        exact ⟨_, rfl, hpays⟩
  · intro hle
    unfold refundSeqLeg
    rw [if_pos ⟨hown, hle⟩]
    exact ⟨_, rfl⟩

def RefundInput.gathered (r : RefundInput) : ℤ := totalAmount r.feeCoins

/-- The fee for the size measured with the coins gathered. -/
def RefundInput.measuredFee (r : RefundInput) : ℤ :=
  r.feeFor (r.vsize false r.feeCoins
    (if r.feeFor firstGuessVsize < r.gathered then 3 else 2) + sigWobble)

theorem refundSeqLeg_policy (hown : r.assetPaysItsOwnFee = false) :
    (r.feeFor firstGuessVsize ≤ r.gathered ∧ r.measuredFee ≤ r.gathered →
      ∃ tx, refundSeqLeg r = .ok tx ∧ tx.Balanced r ∧
      (tx.PaysForItself r ↔ r.Pays (r.vsize true r.feeCoins
        (if r.measuredFee < r.gathered then 3 else 2)) r.policyAsset r.measuredFee)) ∧
    (¬ (r.feeFor firstGuessVsize ≤ r.gathered ∧ r.measuredFee ≤ r.gathered) →
      ∃ error, refundSeqLeg r = .error error) := by
  have hnot : ¬ r.assetPaysItsOwnFee = true := by simp [hown]
  have hasset : r.feeAsset = r.policyAsset := by rw [RefundInput.feeAsset, if_neg hnot]
  have hcoins : ∀ coin ∈ r.feeCoins, coin.asset = r.policyAsset := by
    rw [RefundInput.feeCoins, if_neg hnot]
    intro coin hcoin
    have husable := (mem_filter.mp ((gatherFeeCoins_sublist ..).subset hcoin)).2
    simp only [WalletCoin.usable, Bool.and_eq_true, beq_iff_eq] at husable
    exact husable.1.1.1.2
  -- The first pass succeeds once the guess is covered, and fixes the size measured.
  have hfirst : r.feeFor firstGuessVsize ≤ r.gathered →
      refundSeqLeg r = match r.pass r.feeCoins r.measuredFee with
        | .error error => .error error
        | .ok vout => .ok ⟨r.feeCoins, vout⟩ := by
    intro hguess
    obtain ⟨vout, hpass, hlength, -⟩ := (pass_policy hown r.feeCoins).1 hguess
    unfold refundSeqLeg
    rw [if_neg fun h => hnot h.1, if_neg fun h => absurd h.2 (not_lt.mpr hguess), hpass]
    dsimp only
    rw [hlength]
    rfl
  constructor
  · rintro ⟨hguess, hmeasured⟩
    obtain ⟨vout, hpass, hlength, hlast, htotal⟩ := (pass_policy hown r.feeCoins).1 hmeasured
    refine ⟨⟨r.feeCoins, vout⟩, ?_, fun asset => ?_, ?_⟩
    · rw [hfirst hguess, hpass]
    · rw [htotal, assetTotal_cons, assetTotal_coins hcoins]
    · simp only [RefundTx.PaysForItself, hlast, hasset, hlength]
      constructor
      · rintro ⟨fee, hfee, hpays⟩
        obtain rfl : _ = fee := by simpa [explicitOut] using hfee
        exact hpays
      · intro hpays
        exact ⟨_, rfl, hpays⟩
  · intro hshort
    by_cases hguess : r.feeFor firstGuessVsize ≤ r.gathered
    · obtain ⟨error, hpass⟩ := (pass_policy hown r.feeCoins).2
        (not_le.mp fun hmeasured => hshort ⟨hguess, hmeasured⟩)
      refine ⟨error, ?_⟩
      rw [hfirst hguess, hpass]
    · unfold refundSeqLeg
      rw [if_neg fun h => hnot h.1, if_pos ⟨hnot, not_le.mp hguess⟩]
      exact ⟨_, rfl⟩

/-- When a refund that should be possible is made and pays for itself. In the leg's own asset: the
leg exceeds the fee for the guess, twice the fee for the final size fits into the leg and that fee
is not above the one for the measured size; or the leg does not exceed the guess and nothing could
pay. With the wallet's coins: what is gathered for the guess also covers the fee for the measured
size, and that is enough for the final one; or it does not, and nothing could pay. -/
def RefundInput.Suffices (r : RefundInput) : Prop :=
  if r.assetPaysItsOwnFee then
    r.feeFor firstGuessVsize < r.value ∧
        2 * r.getFee (r.vsize true [] 2) r.asset ≤ r.value ∧
        r.getFee (r.vsize true [] 2) r.asset ≤ r.feeFor (r.vsize false [] 2 + sigWobble) ∨
      r.value ≤ r.feeFor firstGuessVsize ∧ ¬ (r.LegCanPay ∨ r.WalletCanPay)
  else
    (r.feeFor firstGuessVsize ≤ r.gathered ∧ r.measuredFee ≤ r.gathered) ∧
        r.Pays (r.vsize true r.feeCoins (if r.measuredFee < r.gathered then 3 else 2))
          r.policyAsset r.measuredFee ∨
      ¬ (r.feeFor firstGuessVsize ≤ r.gathered ∧ r.measuredFee ≤ r.gathered) ∧
        ¬ (r.LegCanPay ∨ r.WalletCanPay)

/-- A function that either fails or returns something good if `good`, judged against what could
be done. -/
theorem sound_and_complete_iff {α : Type*} {f : Except String α} {P : α → Prop}
    (made good : Prop) {possible : Prop} (hok : made → ∃ x, f = .ok x ∧ (P x ↔ good))
    (herror : ¬ made → ∃ error, f = .error error) :
    ((∀ x, f = .ok x → P x) ∧ (possible → ∃ x, f = .ok x)) ↔
      made ∧ good ∨ ¬ made ∧ ¬ possible := by
  by_cases hmade : made
  · obtain ⟨x, rfl, hgood⟩ := hok hmade
    simp only [Except.ok.injEq, forall_eq', exists_eq', implies_true, and_true, hmade, true_and,
      not_true_eq_false, false_and, or_false]
    exact hgood
  · obtain ⟨error, rfl⟩ := herror hmade
    simp [hmade]

/-- A leg of asset 1 at a relay fee of one atom a byte; a refund takes 361 bytes, and 70 more for
each coin and for the change. -/
def sampleRefund (value : ℤ) (listed : Bool) (avail : List WalletCoin) : RefundInput where
  value := value
  asset := ⟨1⟩
  anyAssetFees := true
  rates asset := if asset = ⟨2⟩ ∨ listed then some ⟨exchangeRateScale, by decide⟩ else none
  minRelayTxFee := ⟨fun numBytes => numBytes⟩
  policyAsset := ⟨2⟩
  avail := avail
  dest := [1]
  change := [2]
  vsize _ coins outputs := 361 + 70 * coins.length + 70 * (outputs - 2)

def policyCoin (amount : ℤ) : WalletCoin := ⟨⟨⟨9⟩, 0⟩, ⟨2⟩, amount, true, true, true⟩

end Sequentia
