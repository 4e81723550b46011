import Mathlib.Algebra.BigOperators.Group.List.Basic
import Sequentia.Transaction

/-!
# Coins of the wallet

The wallet's own transactions, the refund of a swap and the fill of an offer, are assembled by hand
from the coins `AvailableCoins` lists. The module has what both need of amounts: totals of coins and
of explicit outputs by asset.
-/

namespace Sequentia

/-- A coin that `AvailableCoins` returns. -/
structure WalletCoin where
  outpoint : COutPoint
  /-- `GetOutputAsset`. -/
  asset : CAsset
  /-- `GetOutputValueOut`. -/
  amount : ℤ
  /-- `fSpendable`. -/
  spendable : Bool
  /-- `nValue.IsExplicit()`. -/
  explicitValue : Bool
  /-- `nAsset.IsExplicit()`. -/
  explicitAsset : Bool

/-- What coins hold together. -/
def totalAmount (coins : List WalletCoin) : ℤ := (coins.map WalletCoin.amount).sum

def explicitOut (asset : CAsset) (amount : ℤ) (script : CScript) : CTxOut :=
  ⟨.explicit asset, .explicit amount, script⟩

def assetTotal (asset : CAsset) (amounts : List (CAsset × ℤ)) : ℤ :=
  (amounts.map fun p => if p.1 = asset then p.2 else 0).sum

@[simp]
theorem assetTotal_nil (asset : CAsset) : assetTotal asset [] = 0 := rfl

@[simp]
theorem assetTotal_cons (asset : CAsset) (p : CAsset × ℤ) (amounts : List (CAsset × ℤ)) :
    assetTotal asset (p :: amounts) = (if p.1 = asset then p.2 else 0) + assetTotal asset amounts :=
  List.sum_cons

@[simp]
theorem explicit?_explicitOut (asset : CAsset) (amount : ℤ) (script : CScript) :
    (explicitOut asset amount script).explicit? = some (asset, amount) := rfl

theorem assetTotal_coins {policyAsset asset : CAsset} {coins : List WalletCoin}
    (hcoins : ∀ coin ∈ coins, coin.asset = policyAsset) :
    assetTotal asset (coins.map fun c => (c.asset, c.amount)) =
      if policyAsset = asset then totalAmount coins else 0 := by
  induction coins with
  | nil => simp [totalAmount]
  | cons coin coins ih =>
    rw [List.map_cons, assetTotal_cons, ih fun c hc => hcoins c (List.mem_cons_of_mem _ hc),
      hcoins coin List.mem_cons_self]
    split
    · simp [totalAmount]
    · rfl

end Sequentia
