import Sequentia.Crypto
import Sequentia.Stake.Spendable

/-!
# Declarations and records of supervised assets

A supervised asset is declared in an output of the transaction that issues it. Freezes
and key rotations are records in outputs as well. Both kinds of script start with a
marker and are read token by token; a declaration ends with `OP_RETURN`, so that nothing
can spend it, and a record with `OP_TRUE`.
-/

namespace Sequentia

open ScriptReader

/-- `XOnlyPubKey`: 32 bytes. -/
abbrev XOnlyPubKey := Uint256

def XOnlyPubKey.isFullyValid (key : XOnlyPubKey) : Bool :=
  decide (key.val.toNat < secpPrime) && geSetXo key.val.toNat

def supervisionVersion : ℕ := 1

def supervisionFeaturePause : ℕ := 2

def supervisionFeatureImplemented : ℕ := supervisionFeaturePause

structure SupervisionDescriptor where
  version : ℕ
  featureBits : ℕ
  operationalKey : XOnlyPubKey
  /-- The key that signs rotations. -/
  recoveryKey : XOnlyPubKey
  deriving DecidableEq

def supervisionDescriptorSize : ℕ := 1 + 2 + 32 + 32

def SupervisionDescriptor.serialize (desc : SupervisionDescriptor) : Bytes :=
  leBytes 1 desc.version ++ leBytes 2 desc.featureBits ++ desc.operationalKey.bytes ++
    desc.recoveryKey.bytes

/-- The descriptor in a vector of the right size. -/
def SupervisionDescriptor.deserialize (data : Bytes) : SupervisionDescriptor where
  version := leNat (data.take 1)
  featureBits := leNat ((data.drop 1).take 2)
  operationalKey := .ofBytes ((data.drop 3).take 32)
  recoveryKey := .ofBytes ((data.drop 35).take 32)

structure SupervisionDeclaration where
  asset : CAsset
  descriptor : SupervisionDescriptor
  deriving DecidableEq

def supervisionMarker : Bytes := charBytes ['S', 'E', 'Q', 'S', 'U', 'P']

def buildSupervisionScript (asset : CAsset) (desc : SupervisionDescriptor) : CScript :=
  pushBytes supervisionMarker ++ [opDrop] ++ pushBytes asset.bytes ++ [opDrop] ++
    pushBytes desc.serialize ++ [opDrop] ++ [opReturn]

/-- A token that pushes an asset other than the null one. -/
def getAsset : ScriptReader CAsset :=
  token fun _ data =>
    if data.length = 32 then
      if (Uint256.ofBytes data).isNull then none else some (.ofBytes data)
    else none

def parseSupervisionScript (script : CScript) : Option SupervisionDeclaration :=
  parse (do
    expectData supervisionMarker
    expectOp opDrop
    let asset ← getAsset
    expectOp opDrop
    let payload ← getPush supervisionDescriptorSize
    expectOp opDrop
    expectOp opReturn
    pure ⟨asset, .deserialize payload⟩) script

def validateSupervisionDescriptor (desc : SupervisionDescriptor) : Except String Unit :=
  let reserved := desc.featureBits - (desc.featureBits &&& supervisionFeatureImplemented)
  if desc.version ≠ supervisionVersion then
    .error ("unknown supervision version " ++ toString desc.version)
  else if reserved ≠ 0 then
    .error ("supervision feature bits 0x" ++ hexDigits 4 reserved ++
      " are reserved and not implemented")
  else if !desc.operationalKey.isFullyValid then
    .error "operational key is not a valid x-only public key"
  else if !desc.recoveryKey.isFullyValid then
    .error "recovery key is not a valid x-only public key"
  else if desc.operationalKey = desc.recoveryKey then
    .error "operational and recovery keys must differ"
  else .ok ()

def supervisionDescriptorHash (crypto : Crypto) (desc : SupervisionDescriptor) : Uint256 :=
  crypto.hash desc.serialize

def CTransaction.declarations (tx : CTransaction) : List SupervisionDeclaration :=
  tx.vout.filterMap fun out => parseSupervisionScript out.scriptPubKey

/-- `SupervisionFromTx`; the failure stands for the flag `malformed`. -/
def supervisionFromTx (tx : CTransaction) : Except Unit (Option SupervisionDeclaration) :=
  match tx.declarations with
  | [] => .ok none
  | [decl] => .ok (some decl)
  | _ => .error ()

inductive SupervisionRecordKind where
  /-- Freeze one script for one asset. -/
  | freeze
  | rotateOperational
  /-- Replace the recovery key. -/
  | rotateRecovery
  deriving DecidableEq

/-- The number of a kind in a script. -/
def SupervisionRecordKind.toNat : SupervisionRecordKind → ℕ
  | .freeze => 1
  | .rotateOperational => 2
  | .rotateRecovery => 3

def SupervisionRecordKind.ofNat? : ℕ → Option SupervisionRecordKind
  | 1 => some .freeze
  | 2 => some .rotateOperational
  | 3 => some .rotateRecovery
  | _ => none

structure SupervisionRecord where
  kind : SupervisionRecordKind
  asset : CAsset
  /-- The hash of the frozen script, or the key a rotation installs. -/
  target : Uint256
  /-- The key a rotation replaces; null in a freeze. -/
  oldKey : XOnlyPubKey
  signature : Bytes
  deriving DecidableEq

def SupervisionRecord.isRotation (record : SupervisionRecord) : Bool :=
  match record.kind with
  | .freeze => false
  | .rotateOperational | .rotateRecovery => true

/-- Whether a rotation replaces the operational key. -/
def SupervisionRecord.operationalRole (record : SupervisionRecord) : Bool :=
  record.kind == .rotateOperational

def SupervisionRecord.newKey (record : SupervisionRecord) : XOnlyPubKey := record.target

def supervisionRecordMarker : Bytes := charBytes ['S', 'E', 'Q', 'F', 'R', 'Z']

def supervisionSigSize : ℕ := 64

def buildSupervisionRecordScript (record : SupervisionRecord) : CScript :=
  pushBytes supervisionRecordMarker ++ [opDrop] ++
    [UInt8.ofNat (0x50 + record.kind.toNat), opDrop] ++
    pushBytes record.asset.bytes ++ [opDrop] ++ pushBytes record.target.bytes ++ [opDrop] ++
    (if record.isRotation then pushBytes record.oldKey.bytes ++ [opDrop] else []) ++
    pushBytes record.signature ++ [op2Drop] ++ [op1]

/-- A small integer opcode that is the number of a kind. -/
def getKind : ScriptReader SupervisionRecordKind :=
  token fun opcode _ =>
    if op1 ≤ opcode ∧ opcode ≤ op16 then SupervisionRecordKind.ofNat? (opcode.toNat - 0x50)
    else none

def getOldKey (kind : SupervisionRecordKind) : ScriptReader XOnlyPubKey :=
  match kind with
  | .freeze => pure 0
  | .rotateOperational | .rotateRecovery => do
    let data ← getPush 32
    expectOp opDrop
    pure (.ofBytes data)

def parseSupervisionRecordScript (script : CScript) : Option SupervisionRecord :=
  parse (do
    expectData supervisionRecordMarker
    expectOp opDrop
    let kind ← getKind
    expectOp opDrop
    let asset ← getAsset
    expectOp opDrop
    let target ← getPush 32
    expectOp opDrop
    let oldKey ← getOldKey kind
    let signature ← getPush supervisionSigSize
    expectOp op2Drop
    expectOp op1
    pure ⟨kind, asset, .ofBytes target, oldKey, signature⟩) script

def COutPoint.serialize (outpoint : COutPoint) : Bytes :=
  outpoint.hash.bytes ++ leBytes 4 outpoint.n

/-- `TaggedHash` and `GetSHA256` of what is written after it. -/
def Crypto.taggedHash (crypto : Crypto) (tag : List Char) (bs : Bytes) : Uint256 :=
  let taghash := crypto.sha256 (charBytes tag)
  crypto.sha256Single (taghash ++ taghash ++ bs)

def supervisionRecordSigHash (crypto : Crypto) (record : SupervisionRecord)
    (firstInput : COutPoint) : Uint256 :=
  crypto.taggedHash "Sequentia/SupervisionRecord".toList
    (leBytes 1 record.kind.toNat ++ record.asset.bytes ++ record.target.bytes ++
      (if record.isRotation then record.oldKey.bytes else []) ++ firstInput.serialize)

def supervisionUnfreezeSigHash (crypto : Crypto) (recordOutpoint : COutPoint) (asset : CAsset)
    (target : Uint256) : Uint256 :=
  crypto.taggedHash "Sequentia/SupervisionUnfreeze".toList
    (recordOutpoint.serialize ++ asset.bytes ++ target.bytes)

def supervisionTargetHash (crypto : Crypto) (script : CScript) : Uint256 := crypto.hash script

variable {script : CScript} {decl : SupervisionDeclaration}

theorem parseSupervisionRecordScript_of_declaration
    (hdecl : parseSupervisionScript script = some decl) :
    parseSupervisionRecordScript script = none := by
  by_contra hne
  obtain ⟨record, hrecord⟩ := Option.ne_none_iff_exists'.mp hne
  obtain ⟨opcode, pc, hop⟩ := getScriptOp_of_parse hdecl
  obtain ⟨opcode', pc', hop'⟩ := getScriptOp_of_parse hrecord
  rw [hop] at hop'
  have hmarker : supervisionMarker = supervisionRecordMarker := by
    simpa using congrArg (fun p => p.2.1) (Option.some.inj hop')
  exact absurd hmarker (by decide)

theorem consumes_getAsset : Consumes (5 + 32) getAsset := by
  refine consumes_token fun opcode data a haccept _ => ?_
  split at haccept
  · next hlength => exact Nat.le_of_eq hlength
  · cases haccept

theorem consumes_getKind : Consumes (5 + 0) getKind := by
  refine consumes_token fun opcode data a haccept hdata => ?_
  split at haccept
  · next hsmall => simp [hdata (pushesNothing_of_op1_le hsmall.1)]
  · cases haccept

theorem consumes_getOldKey (kind : SupervisionRecordKind) : Consumes 42 (getOldKey kind) := by
  cases kind with
  | freeze => exact (consumes_pure _).mono (by decide)
  | rotateOperational | rotateRecovery =>
    exact ((consumes_getPush 32).bind fun _ =>
      Consumes.op <| consumes_pure _).mono (by decide)

/-- A declaration stays in the UTXO set. -/
theorem isUnspendable_of_declaration (hdecl : parseSupervisionScript script = some decl) :
    isUnspendable script = false := by
  refine isUnspendable_of_parse ?_ (by decide) (by decide) hdecl (n := 11 + (5 + (37 + (5 +
    (5 + supervisionDescriptorSize + (5 + (5 + 0)))))))
  exact (consumes_expectData _).bind fun _ => Consumes.op <|
    consumes_getAsset.bind fun _ => Consumes.op <|
      (consumes_getPush _).bind fun _ => Consumes.op <|
        Consumes.op <| consumes_pure _

/-- A record stays in the UTXO set. -/
theorem isUnspendable_of_record {record : SupervisionRecord}
    (hrecord : parseSupervisionRecordScript script = some record) :
    isUnspendable script = false := by
  refine isUnspendable_of_parse ?_ (by decide) (by decide) hrecord (n := 11 + (5 + (5 + (5 +
    (37 + (5 + (37 + (5 + (42 + (69 + (5 + (5 + 0))))))))))))
  exact (consumes_expectData _).bind fun _ => Consumes.op <|
    consumes_getKind.bind fun _ => Consumes.op <|
      consumes_getAsset.bind fun _ => Consumes.op <|
        (consumes_getPush 32).bind fun _ => Consumes.op <|
          (consumes_getOldKey _).bind fun _ => (consumes_getPush 64).bind fun _ =>
            Consumes.op <|
              Consumes.op <| consumes_pure _

end Sequentia
