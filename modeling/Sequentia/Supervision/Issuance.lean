import Sequentia.Supervision.Records

/-!
# The identifiers of issued assets

An asset and its reissuance token are named by hashes of an entropy, which commits to the
output spent by the issuance, to a contract, and for a supervised asset to its descriptor.
-/

namespace Sequentia

section Identifiers

variable (crypto : Crypto)

def generateAssetEntropy (prevout : COutPoint) (contracthash : Uint256) : Uint256 :=
  crypto.fastMerkleRoot [crypto.hash prevout.serialize, contracthash]

def generateSupervisedAssetEntropy (prevout : COutPoint) (contracthash : Uint256)
    (desc : SupervisionDescriptor) : Uint256 :=
  crypto.fastMerkleRoot
    [crypto.hash prevout.serialize, contracthash, supervisionDescriptorHash crypto desc]

def calculateAsset (entropy : Uint256) : CAsset := crypto.fastMerkleRoot [entropy, 0]

/-- The leaves `0x..01` and `0x..02` that `CalculateReissuanceToken` hashes; the hexadecimal
notation lists the bytes backwards. -/
def tokenLeaf (fConfidential : Bool) : Uint256 :=
  Uint256.ofBytes ((if fConfidential then 2 else 1) :: List.replicate 31 0)

def calculateReissuanceToken (entropy : Uint256) (fConfidential : Bool) : CAsset :=
  crypto.fastMerkleRoot [entropy, tokenLeaf fConfidential]

/-- The entropy behind the issuance on an input: quoted by a reissuance, and derived
otherwise, over the descriptor if there is one. -/
def issuanceEntropy (supervision : Option SupervisionDescriptor) (txin : CTxIn) : Uint256 :=
  if txin.assetIssuance.assetBlindingNonce.isNull then
    match supervision with
    | some desc =>
      generateSupervisedAssetEntropy crypto txin.prevout txin.assetIssuance.assetEntropy desc
    | none => generateAssetEntropy crypto txin.prevout txin.assetIssuance.assetEntropy
  else txin.assetIssuance.assetEntropy

def issuedAsset (supervision : Option SupervisionDescriptor) (txin : CTxIn) : CAsset :=
  calculateAsset crypto (issuanceEntropy crypto supervision txin)

def issuedToken (supervision : Option SupervisionDescriptor) (txin : CTxIn) : CAsset :=
  calculateReissuanceToken crypto (issuanceEntropy crypto supervision txin)
    txin.assetIssuance.nAmount.isCommitment

end Identifiers

/-- The input makes a new issuance, not a reissuance. -/
def CTxIn.isNewIssuance (txin : CTxIn) : Bool :=
  !txin.assetIssuance.isNull && txin.assetIssuance.assetBlindingNonce.isNull

/-- The input issues an asset again. -/
def CTxIn.isReissuance (txin : CTxIn) : Bool :=
  !txin.assetIssuance.isNull && !txin.assetIssuance.assetBlindingNonce.isNull

end Sequentia
