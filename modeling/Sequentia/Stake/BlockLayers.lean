import Sequentia.CoinsReaders
import Sequentia.Stake.ApplyBlock
import Sequentia.Stake.PotLayer
import Sequentia.Stake.RecordLayers
import Sequentia.Stake.Spendable
import Sequentia.Stake.StakeLayer

/-!
# The layers of the registry, one by one

Applying, reverting and rebuilding work on four independent layers. This file reads off
what each of them does to each layer: the stake and pot layers see a batch of additions
and subtractions, the record layers see a list of steps.
-/

namespace Sequentia

open Std KeyedMap List

def recordSteps {κ ν η : Type} (g : COutPoint × Coin → List (Slots.Entry COutPoint κ ν η))
    (block : CBlock) (undo : CBlockUndo) (height : ℕ) : List (Slots.Step COutPoint κ ν η) :=
  (block.spends undo).map fun p =>
    ⟨(inputCoins p.1 p.2).flatMap g, (outputCoins height p.1).flatMap g⟩

section Readers

variable (params : Params)

def stakeItems (entry : COutPoint × Coin) : List StakeItem := (stakeItem params entry).toList

def potItems (entry : COutPoint × Coin) : List PotItem :=
  (potItem entry).toList ++ (roundItem params entry).toList

def delegEntries (entry : COutPoint × Coin) : List DelegEntry :=
  match delegationFromTxOut entry.2.out with
  | some (controller, signer) => [⟨entry.1, controller, signer, entry.2.nHeight⟩]
  | none => []

/-- The payout record a coin contributes, if it is recognised. -/
def payoutEntries (entry : COutPoint × Coin) : List PayoutEntry :=
  match payoutFromTxOut entry.2.out with
  | some (signer, policy) =>
    if payoutRecordRecognized params policy entry.2.nHeight then
      [⟨entry.1, (signer, policy.activation), policy, ()⟩]
    else []
  | none => []

variable {params} {entry : COutPoint × Coin}

variable (hunspendable : isUnspendable entry.2.out.scriptPubKey = true)

include hunspendable

theorem stakeItems_of_unspendable :
    stakeItems params entry = [] := by
  unfold stakeItems stakeItem
  cases hstake : stakeFromTxOut params entry.2.out with
  | none => rfl
  | some stake => simp [isUnspendable_of_stakeFromTxOut hstake] at hunspendable

theorem potItems_of_unspendable :
    potItems params entry = [] := by
  unfold potItems potItem roundItem
  cases hpot : potFromTxOut entry.2.out with
  | some pot => simp [isUnspendable_of_potFromTxOut hpot] at hunspendable
  | none =>
    cases hround : roundFromTxOut params entry.2.out with
    | none => rfl
    | some round => simp [isUnspendable_of_roundFromTxOut hround] at hunspendable

theorem delegEntries_of_unspendable : delegEntries entry = [] := by
  unfold delegEntries
  cases hdeleg : delegationFromTxOut entry.2.out with
  | none => rfl
  | some deleg => simp [isUnspendable_of_delegationFromTxOut hdeleg] at hunspendable

theorem payoutEntries_of_unspendable :
    payoutEntries params entry = [] := by
  unfold payoutEntries
  cases hpayout : payoutFromTxOut entry.2.out with
  | none => rfl
  | some payout => simp [isUnspendable_of_payoutFromTxOut hpayout] at hunspendable

omit hunspendable

end Readers

namespace StakeRegistry

variable {params : Params} {r : StakeRegistry} {entry : COutPoint × Coin}

theorem addOutput_eq : addOutput params r entry =
    { r with
      stake := (stakeItems params entry).foldl UtxoStake.add r.stake
      potUtxo := (potItems params entry).foldl addUtxoPot r.potUtxo } := by
  unfold addOutput stakeItems potItems
  cases stakeItem params entry <;> cases potItem entry <;> cases roundItem params entry <;> rfl

theorem subOutput_eq : subOutput params r entry =
    { r with
      stake := (stakeItems params entry).foldl UtxoStake.sub r.stake
      potUtxo := (potItems params entry).foldl subUtxoPot r.potUtxo } := by
  unfold subOutput stakeItems potItems
  cases stakeItem params entry <;> cases potItem entry <;> cases roundItem params entry <;> rfl

theorem addRecord_eq : addRecord params r entry =
    { r with
      deleg := (delegEntries entry).foldl UtxoDeleg.addEntry r.deleg
      payoutUtxo := (payoutEntries params entry).foldl addPayoutEntry r.payoutUtxo } := by
  unfold addRecord delegEntries payoutEntries
  cases payoutFromTxOut entry.2.out with
  | none => cases delegationFromTxOut entry.2.out <;> rfl
  | some payout =>
    by_cases hrecognized : payoutRecordRecognized params payout.2 entry.2.nHeight = true <;>
      simp only [hrecognized, if_true, if_false, Bool.false_eq_true] <;>
      cases delegationFromTxOut entry.2.out <;> rfl

theorem subRecord_eq : subRecord params r entry =
    { r with
      deleg := (delegEntries entry).foldl UtxoDeleg.subEntry r.deleg
      payoutUtxo := (payoutEntries params entry).foldl subPayoutEntry r.payoutUtxo } := by
  unfold subRecord delegEntries payoutEntries
  cases payoutFromTxOut entry.2.out with
  | none => cases delegationFromTxOut entry.2.out <;> rfl
  | some payout =>
    by_cases hrecognized : payoutRecordRecognized params payout.2 entry.2.nHeight = true <;>
      simp only [hrecognized, if_true, if_false, Bool.false_eq_true] <;>
      cases delegationFromTxOut entry.2.out <;> rfl

section Coins

variable (l : List (COutPoint × Coin)) (r : StakeRegistry)

theorem foldl_addOutput : l.foldl (addOutput params) r =
    { r with
      stake := (l.flatMap (stakeItems params)).foldl UtxoStake.add r.stake
      potUtxo := (l.flatMap (potItems params)).foldl addUtxoPot r.potUtxo } := by
  induction l generalizing r with
  | nil => rfl
  | cons e l ih => simp only [foldl_cons, ih, addOutput_eq, flatMap_cons, foldl_append]

theorem foldl_subOutput : l.foldl (subOutput params) r =
    { r with
      stake := (l.flatMap (stakeItems params)).foldl UtxoStake.sub r.stake
      potUtxo := (l.flatMap (potItems params)).foldl subUtxoPot r.potUtxo } := by
  induction l generalizing r with
  | nil => rfl
  | cons e l ih => simp only [foldl_cons, ih, subOutput_eq, flatMap_cons, foldl_append]

theorem foldl_addRecord : l.foldl (addRecord params) r =
    { r with
      deleg := (l.flatMap delegEntries).foldl UtxoDeleg.addEntry r.deleg
      payoutUtxo := (l.flatMap (payoutEntries params)).foldl addPayoutEntry r.payoutUtxo } := by
  induction l generalizing r with
  | nil => rfl
  | cons e l ih => simp only [foldl_cons, ih, addRecord_eq, flatMap_cons, foldl_append]

theorem foldl_subRecord : l.foldl (subRecord params) r =
    { r with
      deleg := (l.flatMap delegEntries).foldl UtxoDeleg.subEntry r.deleg
      payoutUtxo := (l.flatMap (payoutEntries params)).foldl subPayoutEntry r.payoutUtxo } := by
  induction l generalizing r with
  | nil => rfl
  | cons e l ih => simp only [foldl_cons, ih, subRecord_eq, flatMap_cons, foldl_append]

end Coins

/-- Records go and come one transaction at a time. -/
theorem foldl_records {τ : Type} (gone came : τ → List (COutPoint × Coin)) (txs : List τ)
    (r : StakeRegistry) :
    txs.foldl (fun r p => (came p).foldl (addRecord params)
      ((gone p).foldl (subRecord params) r)) r =
    { r with
      deleg := txs.foldl (fun d p => ((came p).flatMap delegEntries).foldl UtxoDeleg.addEntry
        (((gone p).flatMap delegEntries).foldl UtxoDeleg.subEntry d)) r.deleg
      payoutUtxo := txs.foldl (fun m p =>
        ((came p).flatMap (payoutEntries params)).foldl addPayoutEntry
          (((gone p).flatMap (payoutEntries params)).foldl subPayoutEntry m)) r.payoutUtxo } := by
  induction txs generalizing r with
  | nil => rfl
  | cons p txs ih =>
    rw [foldl_cons, ih, foldl_addRecord, foldl_subRecord]
    rfl

variable {block : CBlock} {undo : CBlockUndo} {height : ℕ}

theorem posApplyBlockStake_eq : posApplyBlockStake params r block undo height =
    { r with
      stake := (block.spentItems (stakeItems params) undo).foldl UtxoStake.sub
        ((block.createdItems (stakeItems params) undo height).foldl UtxoStake.add r.stake)
      potUtxo := (block.spentItems (potItems params) undo).foldl subUtxoPot
        ((block.createdItems (potItems params) undo height).foldl addUtxoPot r.potUtxo)
      deleg := r.deleg.applySteps (recordSteps delegEntries block undo height)
      payoutUtxo :=
        applyPayoutSteps r.payoutUtxo (recordSteps (payoutEntries params) block undo height) } := by
  simp only [UtxoDeleg.applySteps, applyPayoutSteps, recordSteps, foldl_map]
  simp only [posApplyBlockStake, foldl_records, ← foldl_flatMap]
  simp only [foldl_addOutput, foldl_subOutput, flatMap_assoc]
  rfl

theorem posRevertBlockStake_eq : posRevertBlockStake params r block undo height =
    { r with
      stake := (block.createdItems (stakeItems params) undo height).foldl UtxoStake.sub
        ((block.spentItems (stakeItems params) undo).foldl UtxoStake.add r.stake)
      potUtxo := (block.createdItems (potItems params) undo height).foldl subUtxoPot
        ((block.spentItems (potItems params) undo).foldl addUtxoPot r.potUtxo)
      deleg := r.deleg.revertSteps (recordSteps delegEntries block undo height)
      payoutUtxo :=
        revertPayoutSteps r.payoutUtxo (recordSteps (payoutEntries params) block undo height) } := by
  simp only [UtxoDeleg.revertSteps, revertPayoutSteps, recordSteps, ← map_reverse, foldl_map]
  simp only [posRevertBlockStake, foldl_records, ← foldl_flatMap]
  simp only [foldl_addOutput, foldl_subOutput, flatMap_assoc]
  rfl

theorem foldl_scan_eq (cursor : List (COutPoint × Coin)) (r : StakeRegistry) :
    cursor.foldl (fun layers entry => addRecord params (addOutput params layers entry) entry) r =
      { r with
        stake := (cursor.flatMap (stakeItems params)).foldl UtxoStake.add r.stake
        potUtxo := (cursor.flatMap (potItems params)).foldl addUtxoPot r.potUtxo
        deleg := (cursor.flatMap delegEntries).foldl UtxoDeleg.addEntry r.deleg
        payoutUtxo :=
          (cursor.flatMap (payoutEntries params)).foldl addPayoutEntry r.payoutUtxo } := by
  induction cursor generalizing r with
  | nil => rfl
  | cons e cursor ih =>
    rw [foldl_cons, ih]
    simp only [addRecord_eq, addOutput_eq, flatMap_cons, foldl_append]

end StakeRegistry

end Sequentia
