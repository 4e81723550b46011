import Sequentia.Coins
import Sequentia.Lib.KeyedMap
import Sequentia.Supervision.Records

/-!
# The supervision registry

For every supervised asset the registry keeps the terms it was issued under, the current
keys, and how many unspent records freeze each target. A block changes it by what the
outputs created and the coins spent say; disconnecting the block changes it back; and a
node that starts builds it from the UTXO set.
-/

namespace Sequentia

open Std KeyedMap

/-- `SupervisionRegistry::Entry`. -/
@[ext]
structure SupervisionEntry where
  /-- The terms, which never change. -/
  descriptor : SupervisionDescriptor
  operational : XOnlyPubKey
  recovery : XOnlyPubKey
  /-- How many unspent records freeze a target. -/
  frozen : ExtTreeMap Uint256 ℕ

/-- `SupervisionRegistry`: the supervised assets. -/
abbrev SupervisionRegistry := ExtTreeMap CAsset SupervisionEntry

def supervisionPauseTarget : Uint256 := 0

namespace SupervisionEntry

variable (entry : SupervisionEntry)

/-- The key in one of the two roles. -/
def key (operationalRole : Bool) : XOnlyPubKey :=
  if operationalRole then entry.operational else entry.recovery

/-- Replace the key in one of the two roles. -/
def setKey (operationalRole : Bool) (newKey : XOnlyPubKey) : SupervisionEntry :=
  if operationalRole then { entry with operational := newKey }
  else { entry with recovery := newKey }

def rotate (operationalRole : Bool) (expectOld newKey : XOnlyPubKey) : Option SupervisionEntry :=
  if entry.key operationalRole = expectOld then some (entry.setKey operationalRole newKey)
  else none

def addFreeze (target : Uint256) : SupervisionEntry :=
  { entry with frozen := addAt entry.frozen target 1 }

def subFreeze (target : Uint256) : SupervisionEntry :=
  { entry with frozen := decAt entry.frozen target }

end SupervisionEntry

namespace SupervisionRegistry

variable (r : SupervisionRegistry)

/-- `AddAsset`: an entry that is there keeps its freezes. -/
def addAsset (decl : SupervisionDeclaration) : SupervisionRegistry :=
  r.insert decl.asset
    { descriptor := decl.descriptor
      operational := decl.descriptor.operationalKey
      recovery := decl.descriptor.recoveryKey
      frozen := (r[decl.asset]?.map SupervisionEntry.frozen).getD ∅ }

def removeAsset (asset : CAsset) : SupervisionRegistry := r.erase asset

def isSupervised (asset : CAsset) : Bool := r.contains asset

/-- `OperationalKey` and `RecoveryKey`. -/
def currentKey (asset : CAsset) (operationalRole : Bool) : Option XOnlyPubKey :=
  r[asset]?.map fun entry => entry.key operationalRole

def anyFrozen : Bool := r.toList.any fun e => !e.2.frozen.isEmpty

/-- `IsFrozen`. A pause freezes every target. -/
def isFrozen (asset : CAsset) (target : Uint256) : Bool :=
  match r[asset]? with
  | none => false
  | some entry => entry.frozen.contains supervisionPauseTarget || entry.frozen.contains target

def pauseAllowed (asset : CAsset) : Bool :=
  match r[asset]? with
  | none => false
  | some entry => entry.descriptor.featureBits &&& supervisionFeaturePause != 0

def addFreeze (asset : CAsset) (target : Uint256) : SupervisionRegistry :=
  r.modify asset fun entry => entry.addFreeze target

def subFreeze (asset : CAsset) (target : Uint256) : SupervisionRegistry :=
  r.modify asset fun entry => entry.subFreeze target

/-- `Rotate`; `none` when it returns false. -/
def rotate (asset : CAsset) (operationalRole : Bool) (expectOld newKey : XOnlyPubKey) :
    Option SupervisionRegistry :=
  (r[asset]?.bind fun entry => entry.rotate operationalRole expectOld newKey).map
    fun entry => r.insert asset entry

end SupervisionRegistry

/-- The operations that a block asks of the registry. -/
inductive SupervisionAction where
  /-- `AddAsset`. -/
  | declare (decl : SupervisionDeclaration)
  /-- `RemoveAsset`. -/
  | remove (asset : CAsset)
  /-- `AddFreeze`. -/
  | freeze (asset : CAsset) (target : Uint256)
  /-- `SubFreeze`. -/
  | unfreeze (asset : CAsset) (target : Uint256)
  | rotate (asset : CAsset) (operationalRole : Bool) (expectOld newKey : XOnlyPubKey)

/-- Carry out an operation. A rotation that fails changes nothing. -/
def SupervisionRegistry.act (r : SupervisionRegistry) : SupervisionAction → SupervisionRegistry
  | .declare decl => r.addAsset decl
  | .remove asset => r.removeAsset asset
  | .freeze asset target => r.addFreeze asset target
  | .unfreeze asset target => r.subFreeze asset target
  | .rotate asset operationalRole expectOld newKey =>
    (r.rotate asset operationalRole expectOld newKey).getD r

/-- What an output asks when it is created. -/
def createAction (script : CScript) : Option SupervisionAction :=
  match parseSupervisionScript script with
  | some decl => some (.declare decl)
  | none =>
    match parseSupervisionRecordScript script with
    | none => none
    | some record =>
      match record.kind with
      | .freeze => some (.freeze record.asset record.target)
      | .rotateOperational | .rotateRecovery =>
        some (.rotate record.asset record.operationalRole record.oldKey record.newKey)

/-- What an output asks when its creation is undone. -/
def uncreateAction (script : CScript) : Option SupervisionAction :=
  match parseSupervisionScript script with
  | some decl => some (.remove decl.asset)
  | none =>
    match parseSupervisionRecordScript script with
    | none => none
    | some record =>
      match record.kind with
      | .freeze => some (.unfreeze record.asset record.target)
      | .rotateOperational | .rotateRecovery =>
        some (.rotate record.asset record.operationalRole record.newKey record.oldKey)

def freezeOf (script : CScript) : Option (CAsset × Uint256) :=
  match parseSupervisionRecordScript script with
  | none => none
  | some record =>
    match record.kind with
    | .freeze => some (record.asset, record.target)
    | .rotateOperational | .rotateRecovery => none

/-- What a coin asks when it is spent. -/
def spendAction (script : CScript) : Option SupervisionAction :=
  (freezeOf script).map fun p => .unfreeze p.1 p.2

/-- What a coin asks when its spending is undone. -/
def unspendAction (script : CScript) : Option SupervisionAction :=
  (freezeOf script).map fun p => .freeze p.1 p.2

def CBlock.outputScripts (block : CBlock) : List CScript :=
  block.vtx.flatMap fun tx => tx.vout.map CTxOut.scriptPubKey

def spentScripts (undo : CBlockUndo) : List CScript :=
  undo.flatten.map fun coin => coin.out.scriptPubKey

/-- `SupervisionApplyBlock`: the outputs created first, then the coins spent. -/
def supervisionApplyBlock (r : SupervisionRegistry) (block : CBlock) (undo : CBlockUndo) :
    SupervisionRegistry :=
  let r := (block.outputScripts.filterMap createAction).foldl SupervisionRegistry.act r
  ((spentScripts undo).filterMap spendAction).foldl SupervisionRegistry.act r

/-- `SupervisionRevertBlock`: the coins spent first, then the outputs created. -/
def supervisionRevertBlock (r : SupervisionRegistry) (block : CBlock) (undo : CBlockUndo) :
    SupervisionRegistry :=
  let r := ((spentScripts undo).filterMap unspendAction).foldl SupervisionRegistry.act r
  (block.outputScripts.filterMap uncreateAction).foldl SupervisionRegistry.act r

/-- One pass over the rotations: those that fit are carried out, the others are kept. -/
def rotatePass (r : SupervisionRegistry) :
    List SupervisionRecord → SupervisionRegistry × List SupervisionRecord
  | [] => (r, [])
  | record :: records =>
    match r.rotate record.asset record.operationalRole record.oldKey record.newKey with
    | some r' => rotatePass r' records
    | none =>
      let (r', left) := rotatePass r records
      (r', record :: left)

/-- Passes until one makes no progress. A pass that makes some has fewer rotations left, so
there are at most as many passes as rotations. -/
def rotateAll : ℕ → SupervisionRegistry → List SupervisionRecord →
    SupervisionRegistry × List SupervisionRecord
  | 0, r, rotations => (r, rotations)
  | passes + 1, r, rotations =>
    let (r', left) := rotatePass r rotations
    if left.length = rotations.length then (r', left) else rotateAll passes r' left

/-- The scripts that a rebuild looks at, in the order of the cursor. -/
def liveScripts (params : Params) (cursor : List (COutPoint × Coin)) : List CScript :=
  (cursor.filter fun e => !e.2.isSpent && params.supervisionActive e.2.nHeight).map
    fun e => e.2.out.scriptPubKey

/-- `RebuildSupervisionRegistry`; `none` when it returns false. -/
def rebuildSupervisionRegistry (params : Params) (cursor : List (COutPoint × Coin)) :
    Option SupervisionRegistry :=
  let scripts := liveScripts params cursor
  let r := (scripts.filterMap parseSupervisionScript).foldl SupervisionRegistry.addAsset ∅
  let records := (scripts.filter fun script => (parseSupervisionScript script).isNone).filterMap
    parseSupervisionRecordScript
  let r := (records.filter fun record => !record.isRotation).foldl
    (fun r record => r.addFreeze record.asset record.target) r
  let rotations := records.filter SupervisionRecord.isRotation
  let (r, left) := rotateAll rotations.length r rotations
  if left = [] then some r else none

end Sequentia
