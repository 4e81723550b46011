import Sequentia.Fees.ExchangeRates
import Sequentia.Lib.FilteredSums

/-!
# The fees the mempool keeps

Every entry of the mempool caches the reference value of its fee, the value with the operator's
delta, and the sums of such modified fees over its ancestors and over its descendants; the mempool
caches the sum of all fee values. Each operation moves these numbers by differences. The module
has the operations as the code runs them, and says what the caches should hold.
-/

namespace Sequentia

variable {Txid : Type} [DecidableEq Txid]

/-- `SaturatingAdd` for `int64_t`. -/
def saturatingAdd (i j : ℤ) : ℤ :=
  if 0 < i ∧ int64Max - i < j then int64Max
  else if i < 0 ∧ j < -int64Max - 1 - i then -int64Max - 1
  else i + j

/-- What a transaction says by itself: the fee it pays, the asset it pays it in, and the
transactions it descends from. -/
structure TxGraph (Txid : Type) where
  maxMoney : ℤ
  maxMoney_le : maxMoney ≤ int64Max
  /-- `GetFee`, in atoms of the fee asset. -/
  fee : Txid → ℤ
  /-- `GetFeeAsset`. -/
  feeAsset : Txid → CAsset
  /-- The transactions whose outputs it spends, and theirs, and so on. -/
  ancestors : Txid → Finset Txid
  /-- `HasValidFee`: a fee output pays something. -/
  fee_pos : ∀ x, 0 < fee x
  /-- `HasValidFee`: the fee is in the money range. -/
  fee_le : ∀ x, fee x ≤ maxMoney
  trans : ∀ {x y z}, x ∈ ancestors y → y ∈ ancestors z → x ∈ ancestors z
  irrefl : ∀ x, x ∉ ancestors x

/-- The fee fields of `CTxMemPoolEntry`. -/
structure FeeEntry where
  nFeeValue : ℤ
  modifiedFee : ℤ
  nModFeesWithAncestors : ℤ
  nModFeesWithDescendants : ℤ

namespace FeeEntry

/-- The constructor of `CTxMemPoolEntry`. -/
def ofValue (feeValue : ℤ) : FeeEntry := ⟨feeValue, feeValue, feeValue, feeValue⟩

def updateModifiedFee (feeDiff : ℤ) (e : FeeEntry) : FeeEntry :=
  { e with
    nModFeesWithDescendants := e.nModFeesWithDescendants + feeDiff
    nModFeesWithAncestors := e.nModFeesWithAncestors + feeDiff
    modifiedFee := saturatingAdd e.modifiedFee feeDiff }

def updateFeeValue (newFeeValue : ℤ) (e : FeeEntry) : FeeEntry where
  nModFeesWithDescendants := e.nModFeesWithDescendants + (newFeeValue - e.nFeeValue)
  nModFeesWithAncestors := e.nModFeesWithAncestors + (newFeeValue - e.nFeeValue)
  modifiedFee := saturatingAdd e.modifiedFee (newFeeValue - e.nFeeValue)
  nFeeValue := newFeeValue

def updateDescendantState (modifyFee : ℤ) (e : FeeEntry) : FeeEntry :=
  { e with nModFeesWithDescendants := e.nModFeesWithDescendants + modifyFee }

def updateAncestorState (modifyFee : ℤ) (e : FeeEntry) : FeeEntry :=
  { e with nModFeesWithAncestors := e.nModFeesWithAncestors + modifyFee }

end FeeEntry

/-- `CTxMemPool` as far as fees go, with the exchange rates. -/
structure FeePool (Txid : Type) where
  /-- The rates of `ExchangeRateMap`. -/
  rates : ExchangeRateMap
  /-- The transactions of `mapTx`. -/
  mapTx : Finset Txid
  entry : Txid → FeeEntry
  /-- `mapDeltas`, 0 for what is not in it. -/
  mapDeltas : Txid → ℤ
  totalFee : ℤ
  /-- `vHashUpdate`: the transactions of disconnected blocks added back so far, newest first. -/
  vHashUpdate : List Txid
  /-- Those of them whose earlier children have not been linked to them yet. -/
  unlinked : List Txid

namespace TxGraph

variable (G : TxGraph Txid) (s : FeePool Txid)

/-- `ConvertAmountToValue` of a transaction's fee at the given rates. -/
def feeValue (rates : ExchangeRateMap) (x : Txid) : ℤ :=
  convertAmountToValue rates (G.fee x) (G.feeAsset x)

/-- The links of the mempool lead from `y` down to `x`. A transaction added back from a block is
at first linked only to what was added back with it. -/
def Linked (y x : Txid) : Prop := y ∈ G.ancestors x ∧ (y ∈ s.unlinked → x ∈ s.vHashUpdate)

instance (y x : Txid) : Decidable (G.Linked s y x) :=
  inferInstanceAs (Decidable (y ∈ G.ancestors x ∧ (y ∈ s.unlinked → x ∈ s.vHashUpdate)))

def calculateMemPoolAncestors (x : Txid) : Finset Txid := {y ∈ s.mapTx | G.Linked s y x}

/-- `CalculateDescendants` of several transactions, themselves included. -/
def calculateDescendants (roots : Finset Txid) : Finset Txid :=
  {z ∈ s.mapTx | ∃ x ∈ roots, z = x ∨ G.Linked s x z}

end TxGraph

namespace FeePool

variable (G : TxGraph Txid) (s : FeePool Txid)

/-- `mapTx.modify` for each of a set of entries. -/
def modify (set : Finset Txid) (update : FeeEntry → FeeEntry) : FeePool Txid :=
  { s with entry := fun z => if z ∈ set then update (s.entry z) else s.entry z }

/-- The two loops that pass a change of one entry's modified fee on to its ancestors and to its
descendants. -/
def updateRelatives (x : Txid) (feeDelta : ℤ) : FeePool Txid :=
  (s.modify (G.calculateMemPoolAncestors s x) (.updateDescendantState feeDelta)).modify
    ((G.calculateDescendants s {x}).erase x) (.updateAncestorState feeDelta)

/-- `addUnchecked`, for an entry with the given fee value. -/
def addUnchecked (x : Txid) (feeValue : ℤ) : FeePool Txid :=
  let setAncestors := G.calculateMemPoolAncestors s x
  let delta := s.mapDeltas x
  let new := FeeEntry.ofValue feeValue
  let new := if delta ≠ 0 then new.updateModifiedFee delta else new
  let s := s.modify setAncestors (.updateDescendantState new.modifiedFee)
  let new := new.updateAncestorState (∑ y ∈ setAncestors, (s.entry y).modifiedFee)
  { s with
    mapTx := insert x s.mapTx
    entry := Function.update s.entry x new
    totalFee := s.totalFee + feeValue }

def removeStaged (stage : Finset Txid) (updateDescendants : Bool) : FeePool Txid :=
  { s with
    mapTx := s.mapTx \ stage
    entry := fun z =>
      let e := s.entry z
      let e := if updateDescendants then
          e.updateAncestorState (-∑ y ∈ stage with G.Linked s y z, (s.entry y).modifiedFee)
        else e
      e.updateDescendantState (-∑ y ∈ stage with G.Linked s z y, (s.entry y).modifiedFee)
    totalFee := s.totalFee - ∑ y ∈ stage, (s.entry y).nFeeValue }

/-- `removeRecursive` and every pass that collects transactions with their descendants and removes
them. -/
def removeRecursive (roots : Finset Txid) : FeePool Txid :=
  s.removeStaged G (G.calculateDescendants s roots) false

def clearPrioritisation (x : Txid) : FeePool Txid :=
  { s with mapDeltas := Function.update s.mapDeltas x 0 }

/-- `removeConflicts` for one conflicting transaction. -/
def removeConflict (x : Txid) : FeePool Txid := (s.clearPrioritisation x).removeRecursive G {x}

/-- `removeForBlock` for one transaction of the block; what conflicts with it goes by
`removeConflict`. -/
def removeForBlock (x : Txid) : FeePool Txid :=
  (if x ∈ s.mapTx then s.removeStaged G {x} true else s).clearPrioritisation x

def prioritiseTransaction (x : Txid) (feeDelta : ℤ) : FeePool Txid :=
  let s := { s with
    mapDeltas := Function.update s.mapDeltas x (saturatingAdd (s.mapDeltas x) feeDelta) }
  if x ∈ s.mapTx then
    (s.modify {x} (.updateModifiedFee feeDelta)).updateRelatives G x feeDelta
  else s

/-- `RecomputeFees` evicts a transaction whose fee has become worthless. -/
def Worthless (x : Txid) : Prop := 0 < G.fee x ∧ G.feeValue s.rates x ≤ 0

instance (x : Txid) : Decidable (s.Worthless G x) :=
  inferInstanceAs (Decidable (0 < G.fee x ∧ G.feeValue s.rates x ≤ 0))

/-- One round of the loop of `RecomputeFees`. -/
def recomputeFee (x : Txid) : FeePool Txid :=
  if x ∈ s.mapTx then
    let newFeeValue := G.feeValue s.rates x
    if s.Worthless G x then s
    else
      let feeValueDelta := newFeeValue - (s.entry x).nFeeValue
      if feeValueDelta ≠ 0 then
        let s := s.modify {x} (.updateFeeValue newFeeValue)
        let s := { s with totalFee := s.totalFee + feeValueDelta }
        s.updateRelatives G x feeValueDelta
      else s
  else s

/-- The loop of `RecomputeFees` that evicts what the pass has collected. -/
def evict (s : FeePool Txid) (evicted : List Txid) : FeePool Txid :=
  evicted.foldl (fun s x => if x ∈ s.mapTx then s.removeRecursive G {x} else s) s

/-- `RecomputeFees`, with the transactions in the order of the snapshot. -/
def recomputeFees (hashes : List Txid) : FeePool Txid :=
  (hashes.foldl (recomputeFee G) s).evict G (hashes.filter fun x => x ∈ s.mapTx ∧ s.Worthless G x)

/-- `setfeeexchangerates`: where the rates cannot be saved, the call ends in an error after they
were replaced. -/
def setFeeExchangeRates (rates : ExchangeRateMap) (hashes : List Txid) (saved : Bool) :
    FeePool Txid :=
  let s := { s with rates }
  if saved then s.recomputeFees G hashes else s

/-- `UpdateForDescendants` for one transaction added back: its descendants that were in the
mempool before are linked to it. -/
def updateForDescendants (x : Txid) : FeePool Txid :=
  let s' :=
    if x ∈ s.mapTx then
      let descendants := {z ∈ s.mapTx | x ∈ G.ancestors z ∧ z ∉ s.vHashUpdate}
      (s.modify descendants (.updateAncestorState (s.entry x).modifiedFee)).modify {x}
        (.updateDescendantState (∑ z ∈ descendants, (s.entry z).modifiedFee))
    else s
  { s' with unlinked := s.unlinked.erase x }

/-- `UpdateTransactionsFromBlock`: the loop over the transactions added back, newest first, and
the removal of the descendants that then exceed a limit. -/
def updateTransactionsFromBlock (descendantsToRemove : List Txid) : FeePool Txid :=
  let s := s.vHashUpdate.foldl (updateForDescendants G) s
  { s with vHashUpdate := [] }.evict G descendantsToRemove

/-- The cached fees are exact: modified fees include the deltas, and every total is the sum over
the linked entries. -/
structure Consistent : Prop where
  modified : ∀ x ∈ s.mapTx, (s.entry x).modifiedFee = (s.entry x).nFeeValue + s.mapDeltas x
  withAncestors : ∀ x ∈ s.mapTx, (s.entry x).nModFeesWithAncestors =
    ∑ y ∈ s.mapTx with y = x ∨ G.Linked s y x, (s.entry y).modifiedFee
  withDescendants : ∀ x ∈ s.mapTx, (s.entry x).nModFeesWithDescendants =
    ∑ y ∈ s.mapTx with y = x ∨ G.Linked s x y, (s.entry y).modifiedFee
  total : s.totalFee = ∑ x ∈ s.mapTx, (s.entry x).nFeeValue

end FeePool

end Sequentia
