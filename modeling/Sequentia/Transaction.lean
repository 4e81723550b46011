import Sequentia.Script
import Std.Data.ExtTreeMap.Lemmas

/-!
# Transactions, coins and blocks

The data the block-connection code reads: outputs whose asset and value are explicit
or committed, inputs that may carry an issuance, the coins of the UTXO set and the
undo data a connected block leaves. Fields that no modelled function reads (nonces,
sequence numbers, lock times) are left out.
-/

namespace Sequentia

/-- A 256-bit hash or identifier. The value is read in the order of the bytes, so the
numerical order is the byte order that `std::map` uses. -/
structure Uint256 where
  /-- The 32 bytes, most significant first. -/
  val : BitVec 256
  deriving DecidableEq

instance (n : ℕ) : OfNat Uint256 n := ⟨⟨BitVec.ofNat 256 n⟩⟩

instance : Inhabited Uint256 := ⟨0⟩

instance : Ord Uint256 := ⟨compareOn fun h => h.val.toNat⟩

instance : Std.TransOrd Uint256 :=
  inferInstanceAs (Std.TransCmp (compareOn fun h : Uint256 => h.val.toNat))

instance : Std.LawfulEqOrd Uint256 where
  eq_of_compare {a b} h := by
    cases a
    cases b
    exact congrArg Uint256.mk
      (BitVec.eq_of_toNat_eq (Std.LawfulEqOrd.eq_of_compare (α := ℕ) h))

def Uint256.isNull (h : Uint256) : Bool := h == 0

/-- An asset identifier, `CAsset`. -/
abbrev CAsset := Uint256

/-- `COutPoint`: a transaction and the index of one of its outputs. -/
structure COutPoint where
  /-- The transaction. -/
  hash : Uint256
  /-- The output index. -/
  n : ℕ
  deriving DecidableEq, Inhabited

def COutPoint.nullIndex : ℕ := 0xffffffff

def COutPoint.isNull (outpoint : COutPoint) : Bool :=
  outpoint.hash.isNull && outpoint.n == COutPoint.nullIndex

instance : Ord COutPoint := ⟨compareLex (compareOn COutPoint.hash) (compareOn COutPoint.n)⟩

instance : Std.TransOrd COutPoint :=
  inferInstanceAs (Std.TransCmp (compareLex (compareOn COutPoint.hash) (compareOn COutPoint.n)))

instance : Std.LawfulEqOrd COutPoint where
  eq_of_compare {a b} h := by
    obtain ⟨ha, hn⟩ := compareLex_eq_eq.mp h
    cases a
    cases b
    exact congr (congrArg COutPoint.mk (Std.LawfulEqOrd.eq_of_compare (α := Uint256) ha))
      (Std.LawfulEqOrd.eq_of_compare (α := ℕ) hn)

/-- `CConfidentialAsset`: absent, readable, or a commitment. -/
inductive CConfidentialAsset where
  | null
  | explicit (asset : CAsset)
  | commitment (bytes : Bytes)
  deriving DecidableEq, Inhabited

def CConfidentialAsset.isExplicit : CConfidentialAsset → Bool
  | .explicit _ => true
  | _ => false

/-- `CConfidentialValue`: absent, a readable amount, or a commitment. -/
inductive CConfidentialValue where
  | null
  | explicit (amount : ℤ)
  | commitment (bytes : Bytes)
  deriving DecidableEq, Inhabited

def CConfidentialValue.isExplicit : CConfidentialValue → Bool
  | .explicit _ => true
  | _ => false

def CConfidentialValue.isCommitment : CConfidentialValue → Bool
  | .commitment _ => true
  | _ => false

structure CTxOut where
  /-- The asset the output carries. -/
  nAsset : CConfidentialAsset
  /-- The amount of it. -/
  nValue : CConfidentialValue
  /-- The spending condition. -/
  scriptPubKey : CScript
  deriving DecidableEq, Inhabited

def CTxOut.isNull (out : CTxOut) : Bool :=
  out.nAsset == .null && out.nValue == .null && out.scriptPubKey.isEmpty

def CTxOut.isFee (out : CTxOut) : Bool :=
  out.scriptPubKey.isEmpty && out.nValue.isExplicit && out.nAsset.isExplicit

/-- The asset and amount of an output that hides neither. -/
def CTxOut.explicit? (out : CTxOut) : Option (CAsset × ℤ) :=
  match out.nAsset, out.nValue with
  | .explicit asset, .explicit amount => some (asset, amount)
  | _, _ => none

theorem CTxOut.explicit?_eq_some {out : CTxOut} {a : CAsset} {v : ℤ}
    (hexplicit : out.explicit? = some (a, v)) :
    out.nAsset = .explicit a ∧ out.nValue = .explicit v := by
  revert hexplicit
  fun_cases CTxOut.explicit? out <;> rintro ⟨⟩
  next hasset hvalue => exact ⟨hasset, hvalue⟩

structure CAssetIssuance where
  assetBlindingNonce : Uint256
  assetEntropy : Uint256
  nAmount : CConfidentialValue
  /-- The number of reissuance tokens created. -/
  nInflationKeys : CConfidentialValue
  deriving DecidableEq, Inhabited

def CAssetIssuance.isNull (issuance : CAssetIssuance) : Bool :=
  issuance.nAmount == .null && issuance.nInflationKeys == .null

/-- `CTxIn` with the witness of the input. -/
structure CTxIn where
  /-- The output spent. -/
  prevout : COutPoint
  scriptSig : CScript := []
  assetIssuance : CAssetIssuance := default
  /-- Whether the input is a peg-in claim and spends no coin. -/
  isPegin : Bool := false
  scriptWitness : List Bytes := []
  vchIssuanceAmountRangeproof : Bytes := []
  /-- The range proof of a blinded amount of reissuance tokens. -/
  vchInflationKeysRangeproof : Bytes := []
  deriving DecidableEq

/-- `CTxOutWitness`: the proofs of a blinded output, empty when there are none. -/
structure CTxOutWitness where
  /-- The proof that ties the asset to the inputs. -/
  vchSurjectionproof : Bytes := []
  /-- The proof that bounds the amount. -/
  vchRangeproof : Bytes := []
  deriving DecidableEq, Inhabited

/-- `CTransaction` with its hash. -/
structure CTransaction where
  /-- The transaction identifier, `GetHash()`. -/
  txid : Uint256
  vin : List CTxIn
  vout : List CTxOut
  /-- `witness.vtxoutwit`; an output beyond the list has no proofs. -/
  vtxoutwit : List CTxOutWitness := []
  deriving DecidableEq

def CTransaction.isCoinBase (tx : CTransaction) : Bool :=
  match tx.vin with
  | [input] => input.prevout.isNull
  | _ => false

/-- `Coin`: an unspent output with the height and kind of the transaction that made it. -/
structure Coin where
  out : CTxOut
  nHeight : ℕ
  /-- Whether a coinbase made it. -/
  fCoinBase : Bool
  deriving DecidableEq, Inhabited

/-- The empty coin that stands in the undo data of a peg-in input. -/
def Coin.null : Coin := ⟨⟨.null, .null, []⟩, 0, false⟩

def Coin.isSpent (coin : Coin) : Bool := coin.out.isNull

/-- `CBlock`. Distinct transactions have distinct identifiers; the block carries this
as a fact about the hash. -/
structure CBlock where
  /-- The transactions, the coinbase first. -/
  vtx : List CTransaction
  txids_nodup : (vtx.map CTransaction.txid).Nodup

/-- `CTxUndo`: the coins a transaction spent, one for each input. -/
abbrev CTxUndo := List Coin

/-- `CBlockUndo`: the undo data of every transaction but the coinbase. -/
abbrev CBlockUndo := List CTxUndo

/-- `ValidationState::Invalid`: a reject reason with its debug message. -/
structure Invalid where
  reason : String
  debug : String

end Sequentia
