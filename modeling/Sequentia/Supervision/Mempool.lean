import Sequentia.Lib.Replay
import Sequentia.Supervision.Connect

/-!
# The mempool under supervision

Transactions wait in the mempool until a block confirms them. They were checked for the next
block when they came in; a tip change can invalidate them without spending any of their
inputs, because the registry has changed. What the node does about it: it removes what a block
with records invalidates, and after blocks were disconnected it checks their transactions
again.
-/

namespace Sequentia

open Std

/-- `CTxMemPool`, as the list of its transactions. -/
abbrev CTxMemPool := List CTransaction

namespace CTxMemPool

variable (pool : CTxMemPool)

/-- The height given to coins of the mempool, `MEMPOOL_HEIGHT`. -/
def mempoolHeight : ℕ := 0x7fffffff

/-- `CCoinsViewMemPool::GetCoin`: the coins of the tip behind the outputs of the mempool. -/
def getCoin (coins : CCoinsView) (prevout : COutPoint) : Option Coin :=
  match pool.find? fun tx => tx.txid == prevout.hash with
  | some tx => (tx.vout[prevout.n]?).map fun out => ⟨out, mempoolHeight, false⟩
  | none => coins[prevout]?

/-- One step of the search for descendants: an entry is dropped that is named or that spends
an output of a dropped one. -/
def dropStep (dropped : List Uint256) (tx : CTransaction) : Option (List Uint256) :=
  if dropped.contains tx.txid || tx.vin.any fun txin => dropped.contains txin.prevout.hash then
    some (tx.txid :: dropped)
  else none

/-- `removeRecursive` for several transactions, which need not be in the mempool themselves:
they go with all their descendants. -/
def removeRecursive (txids : List Uint256) : CTxMemPool :=
  (Replay.passes dropStep pool.length txids pool).2

/-- The entries that spend an input of a transaction. -/
def conflicts (tx : CTransaction) : List CTransaction :=
  pool.filter fun t => t.txid != tx.txid &&
    t.vin.any fun txin => (tx.vin.map CTxIn.prevout).contains txin.prevout

/-- `removeForBlock`: the transactions of a block leave the mempool, and so does what conflicts
with them. -/
def removeForBlock (vtx : List CTransaction) : CTxMemPool :=
  vtx.foldl (fun (pool : CTxMemPool) tx =>
    let pool : CTxMemPool := pool.filter fun t => t.txid != tx.txid
    pool.removeRecursive ((pool.conflicts tx).map CTransaction.txid)) pool

end CTxMemPool

section Checks

variable (env : ChainEnv) (registry : SupervisionRegistry)

/-- The coins that the inputs spend, where peg-ins and missing coins are empty. -/
def spentCoins (getCoin : COutPoint → Option Coin) (tx : CTransaction) : List Coin :=
  tx.vin.map fun txin =>
    if txin.isPegin then Coin.null else (getCoin txin.prevout).getD Coin.null

/-- The part of `CheckTxInputs` that is about supervision. -/
def checkSupervisionPart (nSpendHeight : ℕ) (tx : CTransaction) (spent : List Coin) :
    Except Invalid Unit := do
  forM (tx.vin.zip spent).zipIdx fun p =>
    if p.1.1.isPegin then .ok ()
    else checkSupervisedSpend env registry nSpendHeight p.2 p.1.1 p.1.2
  let _ ← checkSupervision env registry nSpendHeight tx spent
  .ok ()

/-- The registry no longer allows an input to spend a coin: an unfreeze by a retired key, or a
frozen output of a single owner. -/
def invalidatesSpend (txin : CTxIn) (out : CTxOut) : Bool :=
  !(checkSupervisionRecordSpend env.crypto registry txin out).isOk ||
    match out.nAsset with
    | .explicit asset =>
      registry.isFrozen asset (supervisionTargetHash env.crypto out.scriptPubKey) &&
        isSingleOwnerSpend txin out.scriptPubKey
    | _ => false

def supervisionInvalidates (getCoin : COutPoint → Option Coin) (tx : CTransaction) : Bool :=
  !registry.isEmpty &&
    (!(checkSupervisionRecords env.crypto registry tx).isOk ||
      tx.vin.any fun txin => !txin.isPegin &&
        match getCoin txin.prevout with
        | some coin => invalidatesSpend env registry txin coin.out
        | none => false)

end Checks

/-- The chain with the blocks that were connected, newest first and each with the state before
it, the mempool, and the transactions of disconnected blocks, oldest first. -/
structure MempoolState where
  /-- The tip. -/
  chain : SupervisedState
  history : List (SupervisedState × CBlock × CBlockUndo)
  pool : CTxMemPool
  disconnectpool : List CTransaction

section Steps

variable (env : ChainEnv) (s : MempoolState)

def MempoolState.getCoin : COutPoint → Option Coin := s.pool.getCoin s.chain.coins

/-- `AcceptToMemoryPool`, as far as coins, amounts and supervision go. An output whose script
fails wherever it is run cannot be spent. -/
def acceptToMemoryPool (tx : CTransaction) : Bool :=
  !tx.isCoinBase && !(s.pool.any fun t => t.txid == tx.txid) && (s.pool.conflicts tx).isEmpty &&
    (tx.vin.all fun txin => txin.isPegin || (s.getCoin txin.prevout).isSome) &&
    ((spentCoins s.getCoin tx).all fun coin => !isUnspendable coin.out.scriptPubKey &&
      (parseSupervisionScript coin.out.scriptPubKey).isNone) &&
    (checkTxInputs env s.chain.registry (s.chain.height + 1) ∅ tx
      (spentCoins s.getCoin tx)).isOk

def CBlock.carriesRecords (block : CBlock) : Bool :=
  block.vtx.any fun tx => tx.vout.any fun out =>
    (parseSupervisionRecordScript out.scriptPubKey).isSome

def removeStaleSupervision (pool : CTxMemPool) (chain : SupervisedState) : CTxMemPool :=
  if chain.registry.isEmpty then pool
  else pool.removeRecursive ((pool.filter (supervisionInvalidates env chain.registry
    (pool.getCoin chain.coins))).map CTransaction.txid)

def connectTip (block : CBlock) : Except Invalid MempoolState := do
  let (chain, undo) ← s.chain.connectBlock env block
  let pool := s.pool.removeForBlock block.vtx
  .ok
    { chain
      history := (s.chain, block, undo) :: s.history
      pool := if env.params.supervisionActive chain.height && block.carriesRecords then
          removeStaleSupervision env pool chain
        else pool
      disconnectpool := s.disconnectpool.filter fun tx =>
        !(block.vtx.map CTransaction.txid).contains tx.txid }

/-- `DisconnectTip`; `none` if there is no block to disconnect. The coins are as they were
before the block, and the registry is reverted. -/
def disconnectTip : Option MempoolState :=
  match s.history with
  | [] => none
  | (before, block, undo) :: history => some
    { chain :=
        { before with
          registry := if env.params.supervisionActive s.chain.height then
              supervisionRevertBlock s.chain.registry block undo
            else s.chain.registry }
      history
      pool := s.pool
      disconnectpool := block.vtx ++ s.disconnectpool }

/-- The filter of `removeForReorg`: declarations and peg-ins leave the mempool. -/
def removedForReorg (tx : CTransaction) : Bool :=
  (match supervisionFromTx tx with
    | .ok declaration => declaration.isSome
    | .error () => true) || tx.vin.any CTxIn.isPegin

/-- `MaybeUpdateMempoolForReorg`: the transactions of the disconnected blocks are accepted
again, or else they and their descendants go. `policy` stands for the other rules of
`AcceptToMemoryPool`, and `stale` for the other filters of `removeForReorg`. -/
def updateMempoolForReorg (policy stale : CTransaction → Bool) : MempoolState :=
  let pool := s.disconnectpool.foldl (fun (pool : CTxMemPool) tx =>
    if policy tx && acceptToMemoryPool env { s with pool } tx then pool ++ [tx]
    else pool.removeRecursive [tx.txid]) s.pool
  { s with
    pool := pool.removeRecursive
      ((pool.filter fun tx => removedForReorg tx || stale tx).map CTransaction.txid)
    disconnectpool := [] }

end Steps

/-- What happens to the mempool. -/
inductive MempoolEvent where
  | accept (tx : CTransaction)
  /-- Entries go with their descendants: they are replaced, expire, or give way to others. -/
  | remove (txids : List Uint256)
  | connect (block : CBlock)
  | disconnect
  /-- Blocks have been disconnected, and the mempool is brought up to date. -/
  | update (policy stale : CTransaction → Bool)

/-- An event, if it can happen. Transactions come in only between reorganisations. -/
def MempoolState.step (env : ChainEnv) (s : MempoolState) : MempoolEvent → Option MempoolState
  | .accept tx =>
    if s.disconnectpool.isEmpty && acceptToMemoryPool env s tx then
      some { s with pool := s.pool ++ [tx] }
    else none
  | .remove txids => some { s with pool := s.pool.removeRecursive txids }
  | .connect block => (connectTip env s block).toOption
  | .disconnect => disconnectTip env s
  | .update policy stale => some (updateMempoolForReorg env s policy stale)

/-- The entry would be rejected by the supervision part of the input checks in the next
block. -/
def MempoolState.rejects (env : ChainEnv) (s : MempoolState) (tx : CTransaction) : Bool :=
  !(checkSupervisionPart env s.chain.registry (s.chain.height + 1) tx
    (spentCoins s.getCoin tx)).isOk

end Sequentia
