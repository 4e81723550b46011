import Sequentia.Lib.KeyedMap
import Sequentia.Stake.PotRecords

/-!
# The stake registry

`StakeRegistry` keeps a configuration layer and several layers derived from the UTXO set:
stake weights with their height tranches and committee keys, delegations, payout policies
and pots. The derived layers are changed by one operation for every output that enters or
leaves the UTXO set.

Weights and output counts of the derived layers are unbounded naturals here: they sum
amounts of one asset that are all in the UTXO set, and the supply keeps such sums far
below the range of their machine types.
-/

namespace Sequentia

open Std KeyedMap

/-- The weights that staking outputs add, and the committee keys they register. -/
structure UtxoStake where
  /-- `m_utxo`: weight by staker. -/
  utxo : ExtTreeMap CPubKey ℕ
  /-- `m_utxo_tranches`: weight by staker and creation height. -/
  tranches : ExtTreeMap CPubKey (ExtTreeMap ℕ ℕ)
  /-- `m_bls_utxo`: the committee key registered by a staker's outputs. -/
  blsUtxo : ExtTreeMap CPubKey Bytes
  /-- `m_bls_utxo_outputs`: how many unspent outputs carry it. -/
  blsUtxoOutputs : ExtTreeMap CPubKey ℕ

/-- The delegations in force. -/
structure UtxoDeleg where
  /-- `m_deleg_utxo`: the signer of a controller. -/
  delegUtxo : ExtTreeMap CPubKey CPubKey
  /-- `m_deleg_height`: the height of the record. -/
  delegHeight : ExtTreeMap CPubKey ℕ

/-- `PosPotRef`: an unspent pot or round output. -/
structure PosPotRef where
  asset : CAsset
  value : ℤ
  height : ℕ
  /-- Whether a coinbase created it. -/
  coinbase : Bool
  round : Option PosRound
  deriving DecidableEq

/-- `m_payout_utxo`: policies by signer and activation height. -/
abbrev UtxoPayout := ExtTreeMap CPubKey (ExtTreeMap ℕ PosPayoutPolicy)

/-- `m_pot_utxo`: pots by signer and outpoint. -/
abbrev UtxoPot := ExtTreeMap CPubKey (ExtTreeMap COutPoint PosPotRef)

structure StakeRegistry where
  /-- `m_config`: configured weights. -/
  config : ExtTreeMap CPubKey ℕ
  /-- `m_bls`: configured committee keys. -/
  bls : ExtTreeMap CPubKey Bytes
  stake : UtxoStake
  deleg : UtxoDeleg
  payoutUtxo : UtxoPayout
  potUtxo : UtxoPot

/-- A staking output as the registry counts it. -/
structure StakeItem where
  pubkey : CPubKey
  /-- The weight. -/
  amount : ℕ
  height : ℕ
  /-- The committee key, empty when the output registers none. -/
  bls : Bytes
  deriving DecidableEq

/-- `AddUtxoStake`. -/
def UtxoStake.add (s : UtxoStake) (item : StakeItem) : UtxoStake where
  utxo := addAt s.utxo item.pubkey item.amount
  tranches := rowInsert s.tranches item.pubkey fun row => addAt row item.height item.amount
  blsUtxo := if item.bls.isEmpty then s.blsUtxo else s.blsUtxo.insert item.pubkey item.bls
  blsUtxoOutputs :=
    if item.bls.isEmpty then s.blsUtxoOutputs else addAt s.blsUtxoOutputs item.pubkey 1

/-- The subtraction against the height bucket an output was created in. -/
def subTranche (row : ExtTreeMap ℕ ℕ) (height amount : ℕ) : ExtTreeMap ℕ ℕ :=
  match row[height]? with
  | none => row
  | some w => if w - amount = 0 then row.erase height else row.insert height (w - amount)

/-- One output less carries the committee key of a staker; the key goes with the last. -/
def UtxoStake.subBls (s : UtxoStake) (pubkey : CPubKey) : UtxoStake :=
  match s.blsUtxoOutputs[pubkey]? with
  | none => s
  | some n =>
    if n = 1 then
      { s with
        blsUtxoOutputs := s.blsUtxoOutputs.erase pubkey
        blsUtxo := s.blsUtxo.erase pubkey }
    else { s with blsUtxoOutputs := s.blsUtxoOutputs.insert pubkey (n - 1) }

/-- `SubUtxoStake`. A weight that is missing or too small leaves everything untouched. -/
def UtxoStake.sub (s : UtxoStake) (item : StakeItem) : UtxoStake :=
  match s.utxo[item.pubkey]? with
  | none => s
  | some w =>
    if w < item.amount then s
    else
      let tranches := rowUpdate s.tranches item.pubkey fun row =>
        subTranche row item.height item.amount
      let s := if item.bls.isEmpty then s else s.subBls item.pubkey
      if w - item.amount = 0 then
        { utxo := s.utxo.erase item.pubkey
          tranches := tranches
          blsUtxo := s.blsUtxo.erase item.pubkey
          blsUtxoOutputs := s.blsUtxoOutputs.erase item.pubkey }
      else { s with utxo := s.utxo.insert item.pubkey (w - item.amount), tranches := tranches }

/-- `AddUtxoDelegation`. -/
def UtxoDeleg.add (d : UtxoDeleg) (controller signer : CPubKey) (height : ℕ) : UtxoDeleg where
  delegUtxo := d.delegUtxo.insert controller signer
  delegHeight := d.delegHeight.insert controller height

/-- `SubUtxoDelegation`: erase only the record in force. -/
def UtxoDeleg.sub (d : UtxoDeleg) (controller signer : CPubKey) : UtxoDeleg :=
  if d.delegUtxo[controller]? = some signer then
    ⟨d.delegUtxo.erase controller, d.delegHeight.erase controller⟩
  else d

def addUtxoPayout (m : UtxoPayout) (signer : CPubKey) (policy : PosPayoutPolicy) : UtxoPayout :=
  rowInsert m signer fun row => row.insert policy.activation policy

/-- `SubUtxoPayout`: erase only the exact policy. -/
def subUtxoPayout (m : UtxoPayout) (signer : CPubKey) (policy : PosPayoutPolicy) : UtxoPayout :=
  rowUpdate m signer fun row =>
    if row[policy.activation]? = some policy then row.erase policy.activation else row

/-- A pot or round output as the registry counts it. -/
structure PotItem where
  /-- The pool. -/
  signer : CPubKey
  outpoint : COutPoint
  /-- What the registry keeps of it. -/
  ref : PosPotRef

def addUtxoPot (m : UtxoPot) (item : PotItem) : UtxoPot :=
  rowInsert m item.signer fun row => row.insert item.outpoint item.ref

def subUtxoPot (m : UtxoPot) (item : PotItem) : UtxoPot :=
  rowUpdate m item.signer fun row => row.erase item.outpoint

namespace StakeRegistry

variable (r : StakeRegistry)

/-- `GetBls`: the committee key of a staker, the configured one first. -/
def getBls (pubkey : CPubKey) : Bytes :=
  match r.bls[pubkey]? with
  | some key => key
  | none => r.stake.blsUtxo.getD pubkey []

def hasBls (pubkey : CPubKey) : Bool :=
  r.bls.contains pubkey || r.stake.blsUtxo.contains pubkey

def hasDelegation (controller : CPubKey) : Bool := r.deleg.delegUtxo.contains controller

/-- `SignerForLocked`. -/
def signerFor (controller : CPubKey) : CPubKey := r.deleg.delegUtxo.getD controller controller

def hasPayoutAt (signer : CPubKey) (activation : ℕ) : Bool :=
  (cell r.payoutUtxo signer activation).isSome

/-- `PayoutFor`: the policy with the greatest activation height not above `height`. -/
def payoutFor (signer : CPubKey) (height : ℕ) : Option PosPayoutPolicy :=
  (((r.payoutUtxo.getD signer ∅).toList.filter fun e => e.1 ≤ height).getLast?).map Prod.snd

end StakeRegistry

def posPayoutInForce (r : StakeRegistry) (signer : CPubKey) (policy : PosPayoutPolicy)
    (height : ℕ) : Bool :=
  r.payoutFor signer height == some policy

end Sequentia
