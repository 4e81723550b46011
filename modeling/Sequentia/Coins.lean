import Sequentia.Transaction
import Sequentia.Lib.KeyedMap

/-!
# The UTXO set and its change by a block

Connecting a block spends the inputs of every transaction and adds its outputs, one
transaction at a time. The undo data keeps the coins spent.
-/

namespace Sequentia

open Std

/-- The coins view: unspent outputs by outpoint. -/
abbrev CCoinsView := ExtTreeMap COutPoint Coin

/-- The input half of `UpdateCoins`: spend the inputs in order and collect the coins for
the undo data. A peg-in input spends no coin and leaves an empty undo entry. `none` when
an input is missing or spent already. -/
def spendInputs (view : CCoinsView) : List CTxIn → Option (CCoinsView × CTxUndo)
  | [] => some (view, [])
  | txin :: vin =>
    if txin.isPegin then
      (spendInputs view vin).map fun (view, undo) => (view, Coin.null :: undo)
    else
      match view[txin.prevout]? with
      | none => none
      | some coin =>
        (spendInputs (view.erase txin.prevout) vin).map fun (view, undo) => (view, coin :: undo)

def outputCoins (nHeight : ℕ) (tx : CTransaction) : List (COutPoint × Coin) :=
  tx.vout.zipIdx.map fun (out, n) => (⟨tx.txid, n⟩, ⟨out, nHeight, tx.isCoinBase⟩)

/-- `CCoinsViewCache::AddCoin`. An unspendable output is not added; `none` stands for
the exception when an unspent coin would be overwritten. -/
def addCoin (possibleOverwrite : Bool) (view : CCoinsView) (entry : COutPoint × Coin) :
    Option CCoinsView :=
  if isUnspendable entry.2.out.scriptPubKey then some view
  else if !possibleOverwrite && view.contains entry.1 then none
  else some (view.insert entry.1 entry.2)

def addCoins (view : CCoinsView) (tx : CTransaction) (nHeight : ℕ) : Option CCoinsView :=
  (outputCoins nHeight tx).foldlM (addCoin tx.isCoinBase) view

/-- `UpdateCoins` behind the check for missing inputs. -/
def updateCoins (view : CCoinsView) (tx : CTransaction) (nHeight : ℕ) :
    Except String (CCoinsView × CTxUndo) :=
  match (if tx.isCoinBase then some (view, []) else spendInputs view tx.vin) with
  | none => .error "bad-txns-inputs-missingorspent"
  | some (view, undo) =>
    match addCoins view tx nHeight with
    | none => .error "Attempted to overwrite an unspent coin (when possible_overwrite is false)"
    | some view => .ok (view, undo)

/-- The transaction loop of `ConnectBlock`, as far as the coins go. -/
def connectTxs (nHeight : ℕ) : CCoinsView → List CTransaction →
    Except String (CCoinsView × List CTxUndo)
  | view, [] => .ok (view, [])
  | view, tx :: txs =>
    match updateCoins view tx nHeight with
    | .error reason => .error reason
    | .ok (view, undo) =>
      match connectTxs nHeight view txs with
      | .error reason => .error reason
      | .ok (view, undos) => .ok (view, undo :: undos)

/-- Some output of the block would overwrite an unspent coin. -/
def overwritesCoin (view : CCoinsView) (nHeight : ℕ) (vtx : List CTransaction) : Bool :=
  vtx.any fun tx => (outputCoins nHeight tx).any fun entry => view.contains entry.1

/-- The coin side of connecting a block: the coinbase checks of `CheckBlock`, the
duplicate check and the transaction loop. The undo data leaves out the coinbase. -/
def connectCoins (view : CCoinsView) (nHeight : ℕ) (block : CBlock) :
    Except String (CCoinsView × CBlockUndo) :=
  match block.vtx with
  | [] => .error "bad-cb-missing"
  | coinbase :: txs =>
    if !coinbase.isCoinBase then .error "bad-cb-missing"
    else if txs.any CTransaction.isCoinBase then .error "bad-cb-multiple"
    else if overwritesCoin view nHeight block.vtx then .error "bad-txns-BIP30"
    else
      match connectTxs nHeight view block.vtx with
      | .error reason => .error reason
      | .ok (view, undos) => .ok (view, undos.tail)

/-- Transactions with their undo data, where missing undo data counts as empty. -/
def pairUndo : List CTransaction → List CTxUndo → List (CTransaction × CTxUndo)
  | [], _ => []
  | tx :: txs, [] => (tx, []) :: pairUndo txs []
  | tx :: txs, undo :: undos => (tx, undo) :: pairUndo txs undos

/-- The transactions of a block, each with the coins it spent; the coinbase spends none. -/
def CBlock.spends (block : CBlock) (undo : CBlockUndo) : List (CTransaction × CTxUndo) :=
  pairUndo block.vtx ([] :: undo)

def inputCoins (tx : CTransaction) (undo : CTxUndo) : List (COutPoint × Coin) :=
  (tx.vin.zip undo).map fun p => (p.1.prevout, p.2)

def spentEntries (tx : CTransaction) (undo : CTxUndo) : List (COutPoint × Coin) :=
  ((tx.vin.zip undo).filter fun p => !p.1.isPegin).map fun p => (p.1.prevout, p.2)

/-- The coins a transaction adds to the UTXO set. -/
def createdEntries (nHeight : ℕ) (tx : CTransaction) : List (COutPoint × Coin) :=
  (outputCoins nHeight tx).filter fun entry => !isUnspendable entry.2.out.scriptPubKey

def CBlock.spentEntries (block : CBlock) (undo : CBlockUndo) : List (COutPoint × Coin) :=
  (block.spends undo).flatMap fun (tx, spent) => Sequentia.spentEntries tx spent

def CBlock.createdEntries (block : CBlock) (nHeight : ℕ) : List (COutPoint × Coin) :=
  block.vtx.flatMap (Sequentia.createdEntries nHeight)

end Sequentia
