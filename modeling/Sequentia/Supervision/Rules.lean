import Sequentia.Solver
import Sequentia.Supervision.Issuance
import Sequentia.Supervision.Registry

/-!
# The rules for supervised assets

What a transaction that declares, freezes, rotates or unfreezes has to satisfy. All the
rules read the registry as the parent block left it.
-/

namespace Sequentia

open ScriptReader

section Issuance

variable (crypto : Crypto) (decl : SupervisionDeclaration)

/-- One input of a transaction with a declaration; `found` is the entropy of the issuance
met so far. -/
def checkIssuanceInput (found : Option Uint256) (txin : CTxIn) :
    Except String (Option Uint256) :=
  if !txin.isNewIssuance then .ok found
  else if found.isSome then .error "supervision declaration covers more than one issuance"
  else if txin.assetIssuance.nAmount.isCommitment then
    .error "supervised issuance amount may not be blinded"
  else
    match txin.assetIssuance.nInflationKeys with
    | .explicit amount =>
      let entropy := generateSupervisedAssetEntropy crypto txin.prevout
        txin.assetIssuance.assetEntropy decl.descriptor
      if amount ≤ 0 then .error "supervised issuance must create reissuance tokens"
      else if calculateAsset crypto entropy ≠ decl.asset then
        .error "supervision declaration names an asset the issuance does not create"
      else .ok (some entropy)
    | _ => .error "supervised reissuance token amount must be explicit"

/-- One output of a transaction with a declaration. -/
def checkIssuanceOutput (out : CTxOut) : Except String Unit :=
  if !out.nAsset.isExplicit then
    .error "a supervised issuance may not create blinded-asset outputs"
  else if !out.nValue.isExplicit then
    .error "a supervised issuance may not create blinded-value outputs"
  else if (parseSupervisionScript out.scriptPubKey).isNone then .ok ()
  else if out.explicit? ≠ some (decl.asset, 0) then
    .error "declaration output must carry zero of the declared asset"
  else .ok ()

/-- `CheckSupervisedIssuance`: the entropy of the issuance. -/
def checkSupervisedIssuance (tx : CTransaction) : Except String Uint256 := do
  validateSupervisionDescriptor decl.descriptor
  let found ← tx.vin.foldlM (checkIssuanceInput crypto decl) none
  match found with
  | none => .error "supervision declaration without an issuance"
  | some entropy =>
    forM tx.vout (checkIssuanceOutput decl)
    .ok entropy

end Issuance

section Records

variable (crypto : Crypto) (registry : SupervisionRegistry)

/-- What a rotation has to satisfy: it names the key it replaces, and installs another
one, which is not the key in the other role. -/
def checkRotation (record : SupervisionRecord) : Except String Unit :=
  if !record.isRotation then .ok ()
  else if registry.currentKey record.asset record.operationalRole ≠ some record.oldKey then
    .error "rotation record does not name the key it replaces"
  else if !record.newKey.isFullyValid then .error "rotation record installs an invalid key"
  else if record.newKey = record.oldKey then
    .error "rotation record installs the key it replaces"
  else if registry.currentKey record.asset (!record.operationalRole) = some record.newKey then
    .error "rotation would make the operational and recovery keys equal"
  else .ok ()

/-- One output of a transaction that may create records. -/
def checkSupervisionRecord (firstInput : COutPoint) (out : CTxOut) : Except String Unit :=
  match parseSupervisionRecordScript out.scriptPubKey with
  | none => .ok ()
  | some record =>
    if !registry.isSupervised record.asset then
      .error ("supervision record names unsupervised asset " ++ record.asset.getHex)
    else
      -- Freezes are signed by the operational key, rotations by the recovery key.
      match registry.currentKey record.asset (!record.isRotation) with
      | none => .error "supervision record names an asset with no current key"
      | some signer => do
        checkRotation registry record
        if record.kind = .freeze ∧ record.target = supervisionPauseTarget ∧
            !registry.pauseAllowed record.asset then
          .error "asset was not issued with the pause capability"
        else if !crypto.verifySchnorr signer (supervisionRecordSigHash crypto record firstInput)
            record.signature then
          .error "supervision record is not signed by the asset's current key"
        else if out.explicit? ≠ some (record.asset, 0) then
          .error "supervision record must carry zero of the asset it governs"
        else .ok ()

def checkSupervisionRecords (tx : CTransaction) : Except String Unit :=
  match tx.vin with
  | [] => .error "supervision record in a transaction with no inputs"
  | first :: _ => forM tx.vout (checkSupervisionRecord crypto registry first.prevout)

def checkSupervisionRecordSpend (txin : CTxIn) (recordOut : CTxOut) : Except String Unit :=
  match parseSupervisionRecordScript recordOut.scriptPubKey with
  | none => .ok ()
  | some record =>
    if record.isRotation then .error "a rotation record cannot be spent"
    else
      match registry.currentKey record.asset true with
      | none => .error "freeze record names an asset that is no longer supervised"
      | some operational =>
        match parse (getPush supervisionSigSize) txin.scriptSig with
        | none => .error "unfreeze must carry exactly one signature"
        | some sig =>
          if !crypto.verifySchnorr operational
              (supervisionUnfreezeSigHash crypto txin.prevout record.asset record.target) sig then
            .error "unfreeze is not signed by the asset's current operational key"
          else .ok ()

end Records

/-- `IsSingleOwnerSpend`: only one party can satisfy the script, as the input shows. -/
def isSingleOwnerSpend (txin : CTxIn) (scriptPubKey : CScript) : Bool :=
  let stack := txin.scriptWitness
  match solver scriptPubKey with
  | .pubkey | .pubkeyHash => true
  | .witnessV0KeyHash => stack.length == 2
  | .witnessV1Taproot =>
    -- A key-path spend is one element, beside an optional annex.
    let hasAnnex := decide (2 ≤ stack.length) && (stack.getLast?.bind List.head?) == some 0x50
    (if hasAnnex then stack.length - 1 else stack.length) == 1
  | .scriptHash =>
    -- Only the wrapped form of a witness key hash is single-owner.
    stack.length == 2 &&
      match parse getOp txin.scriptSig with
      | none => false
      | some (_, redeem) =>
        match isWitnessProgram redeem with
        | some (version, program) => version == 0 && program.length == 20
        | none => false
  | .other => false

/-- `IsSupervisionOutput`: a declaration or record in the asset it names. -/
def isSupervisionOutput (out : CTxOut) : Bool :=
  match out.nAsset with
  | .explicit asset =>
    match parseSupervisionScript out.scriptPubKey with
    | some decl => asset == decl.asset
    | none =>
      match parseSupervisionRecordScript out.scriptPubKey with
      | some record => asset == record.asset
      | none => false
  | _ => false

end Sequentia
