import Sequentia.Coins
import Sequentia.Stake.Registry

/-!
# Applying a block to the stake registry, reverting it, and rebuilding

`PosApplyBlockStake` runs after a block has connected: it first adds the weight and the
pots of every output, then subtracts those of every spent coin, and then goes through the
delegation and payout records one transaction at a time. `PosRevertBlockStake` undoes
this with the undo data, and `RebuildUtxoStake` derives the same layers from a scan of
the UTXO set.
-/

namespace Sequentia

open Std KeyedMap

section Items

variable (params : Params)

def stakeItem (entry : COutPoint × Coin) : Option StakeItem :=
  match stakeFromTxOut params entry.2.out with
  | none => none
  | some (pubkey, amount) =>
    let bls := match parseStakeBlsRegistration entry.2.out.scriptPubKey with
      | some registration => registration.1
      | none => []
    some ⟨pubkey, amount, entry.2.nHeight, bls⟩

def potItem (entry : COutPoint × Coin) : Option PotItem :=
  match potFromTxOut entry.2.out with
  | none => none
  | some pot =>
    some ⟨pot.signer, entry.1, pot.asset, pot.value, entry.2.nHeight, entry.2.fCoinBase, none⟩

/-- The round of a coin, recognised from the second generation of records on. -/
def roundItem (entry : COutPoint × Coin) : Option PotItem :=
  match roundFromTxOut params entry.2.out with
  | none => none
  | some round =>
    if params.posSplitV2Coin entry.2.nHeight then
      some ⟨round.signer, entry.1, round.asset, round.value, entry.2.nHeight, false,
        some round.round⟩
    else none

end Items

namespace StakeRegistry

variable (params : Params)

/-- A coin's stake, pot and round enter the registry. -/
def addOutput (r : StakeRegistry) (entry : COutPoint × Coin) : StakeRegistry :=
  let r := match stakeItem params entry with
    | some item => { r with stake := r.stake.add item }
    | none => r
  let r := match potItem entry with
    | some item => { r with potUtxo := addUtxoPot r.potUtxo item }
    | none => r
  match roundItem params entry with
  | some item => { r with potUtxo := addUtxoPot r.potUtxo item }
  | none => r

/-- A coin's stake, pot and round leave the registry. -/
def subOutput (r : StakeRegistry) (entry : COutPoint × Coin) : StakeRegistry :=
  let r := match stakeItem params entry with
    | some item => { r with stake := r.stake.sub item }
    | none => r
  let r := match potItem entry with
    | some item => { r with potUtxo := subUtxoPot r.potUtxo item }
    | none => r
  match roundItem params entry with
  | some item => { r with potUtxo := subUtxoPot r.potUtxo item }
  | none => r

/-- A coin's delegation or payout record enters the registry. -/
def addRecord (r : StakeRegistry) (entry : COutPoint × Coin) : StakeRegistry :=
  let r := match delegationFromTxOut entry.2.out with
    | some (controller, signer) =>
      { r with deleg := r.deleg.add controller signer entry.2.nHeight }
    | none => r
  match payoutFromTxOut entry.2.out with
  | some (signer, policy) =>
    if payoutRecordRecognized params policy entry.2.nHeight then
      { r with payoutUtxo := addUtxoPayout r.payoutUtxo signer policy }
    else r
  | none => r

/-- A coin's delegation or payout record leaves the registry. -/
def subRecord (r : StakeRegistry) (entry : COutPoint × Coin) : StakeRegistry :=
  let r := match delegationFromTxOut entry.2.out with
    | some (controller, signer) => { r with deleg := r.deleg.sub controller signer }
    | none => r
  match payoutFromTxOut entry.2.out with
  | some (signer, policy) =>
    if payoutRecordRecognized params policy entry.2.nHeight then
      { r with payoutUtxo := subUtxoPayout r.payoutUtxo signer policy }
    else r
  | none => r

def posApplyBlockStake (r : StakeRegistry) (block : CBlock) (undo : CBlockUndo) (height : ℕ) :
    StakeRegistry :=
  let txs := block.spends undo
  let r := txs.foldl (fun r p => (outputCoins height p.1).foldl (addOutput params) r) r
  let r := txs.foldl (fun r p => (inputCoins p.1 p.2).foldl (subOutput params) r) r
  -- Records go one transaction at a time, each removing before adding.
  txs.foldl (fun r p => (outputCoins height p.1).foldl (addRecord params)
    ((inputCoins p.1 p.2).foldl (subRecord params) r)) r

def posRevertBlockStake (r : StakeRegistry) (block : CBlock) (undo : CBlockUndo) (height : ℕ) :
    StakeRegistry :=
  let txs := block.spends undo
  let r := txs.reverse.foldl (fun r p => (inputCoins p.1 p.2).foldl (addRecord params)
    ((outputCoins height p.1).foldl (subRecord params) r)) r
  let r := txs.foldl (fun r p => (inputCoins p.1 p.2).foldl (addOutput params) r) r
  txs.foldl (fun r p => (outputCoins height p.1).foldl (subOutput params) r) r

/-- `SetUtxoStake`: replace the derived layers. Registrations without output counts mean
one output each, and weights without tranches count from height zero. -/
def setUtxoStake (r layers : StakeRegistry) : StakeRegistry where
  config := r.config
  bls := r.bls
  stake := { layers.stake with
    blsUtxoOutputs :=
      if layers.stake.blsUtxoOutputs.isEmpty then
        layers.stake.blsUtxo.toList.foldl (fun m e => m.insert e.1 1) ∅
      else layers.stake.blsUtxoOutputs
    tranches :=
      if layers.stake.tranches.isEmpty then
        layers.stake.utxo.toList.foldl
          (fun m e => rowInsert m e.1 fun row => row.insert 0 e.2) ∅
      else layers.stake.tranches }
  deleg := layers.deleg
  payoutUtxo := layers.payoutUtxo
  potUtxo := layers.potUtxo

def empty : StakeRegistry := ⟨∅, ∅, ⟨∅, ∅, ∅, ∅⟩, ⟨∅, ∅⟩, ∅, ∅⟩

/-- `RebuildUtxoStake`: scan the coins in the order the cursor gives them. -/
def rebuildUtxoStake (r : StakeRegistry) (cursor : List (COutPoint × Coin)) : StakeRegistry :=
  setUtxoStake r (cursor.foldl (fun layers entry => addRecord params (addOutput params layers entry)
    entry) empty)

end StakeRegistry

end Sequentia
