import Sequentia.Lib.Tally
import Sequentia.Supervision.Rules

/-!
# The amounts of a transaction

Amounts and assets are readable or hidden in commitments. `VerifyAmounts` turns inputs,
issuances and outputs into commitments and checks that they balance, that hidden amounts
are in range, and that hidden assets are among those that come in. The primitives on
commitments are parameters.
-/

namespace Sequentia

open Std KeyedMap

/-- The primitives on commitments. -/
structure AmountCrypto where
  Generator : Type
  Commitment : Type
  /-- `secp256k1_generator_generate`. -/
  generatorGenerate : CAsset → Generator
  /-- `secp256k1_generator_generate_blinded`; `none` when it fails. -/
  generatorGenerateBlinded : CAsset → Uint256 → Option Generator
  /-- `secp256k1_generator_serialize`. -/
  generatorSerialize : Generator → Bytes
  /-- `secp256k1_generator_parse`. -/
  generatorParse : Bytes → Option Generator
  /-- `secp256k1_pedersen_commit` of a positive amount, without blinding. -/
  pedersenCommit : ℤ → Generator → Commitment
  /-- `secp256k1_pedersen_commitment_parse`. -/
  commitmentParse : Bytes → Option Commitment
  /-- `secp256k1_pedersen_verify_tally`. -/
  verifyTally : List Commitment → List Commitment → Bool
  /-- `secp256k1_rangeproof_verify` of a proof over a script: the least amount proved. -/
  rangeproofVerify : Bytes → Commitment → Generator → CScript → Option ℕ
  /-- `secp256k1_surjectionproof_parse` and `secp256k1_surjectionproof_verify`. -/
  surjectionproofVerify : Bytes → List Generator → Generator → Bool

/-- `CConfidentialAsset::nCommittedSize`. -/
def committedSize : ℕ := 33

section Verify

variable (params : Params) (crypto : Crypto) (amounts : AmountCrypto)

/-- `CachingRangeProofChecker::VerifyRangeProof`. The least amount is zero only where
nothing can be spent. -/
def verifyRangeProof (proof valueCommitment assetCommitment : Bytes) (script : CScript) : Bool :=
  match amounts.commitmentParse valueCommitment, amounts.generatorParse assetCommitment with
  | some commit, some tag =>
    match amounts.rangeproofVerify proof commit tag script with
    | some minValue => !proof.isEmpty && (minValue != 0 || isUnspendable script)
    | none => false
  | _, _ => false

def assetGenerator : CConfidentialAsset → Option amounts.Generator
  | .null => none
  | .explicit asset => some (amounts.generatorGenerate asset)
  | .commitment bytes => amounts.generatorParse bytes

/-- `VerifyIssuanceAmount`: the commitment to an issued amount. -/
def verifyIssuanceAmount (asset : CAsset) (value : CConfidentialValue) (rangeproof : Bytes) :
    Option amounts.Commitment :=
  match value with
  | .explicit amount =>
    if asset = params.peggedAsset ∧ !params.moneyRange amount ∨ amount ≤ 0 then none
    else if rangeproof ≠ [] then none
    else some (amounts.pedersenCommit amount (amounts.generatorGenerate asset))
  | .commitment bytes =>
    if !verifyRangeProof amounts rangeproof bytes
        (amounts.generatorSerialize (amounts.generatorGenerate asset)) [] then none
    else amounts.commitmentParse bytes
  | .null => none

/-- The output spent by a reissuance carries the reissuance token. -/
def spendsToken (asset : CConfidentialAsset) (assetTokenID : CAsset) (nonce : Uint256) : Bool :=
  match asset with
  | .explicit spent => spent == assetTokenID
  | .commitment bytes =>
    match amounts.generatorGenerateBlinded assetTokenID nonce with
    | some gen => bytes == amounts.generatorSerialize gen
    | none => false
  | .null => false

/-- An amount that is absent counts as nothing, and another one as a pseudo-input. -/
def pseudoInput (asset : CAsset) (value : CConfidentialValue) (rangeproof : Bytes) :
    Option (List (amounts.Generator × amounts.Commitment)) :=
  match value with
  | .null => some []
  | _ => (verifyIssuanceAmount params amounts asset value rangeproof).map
    fun commit => [(amounts.generatorGenerate asset, commit)]

def issuanceInputs (supervision : Option SupervisionDescriptor) (txin : CTxIn)
    (spent : CConfidentialAsset) : Option (List (amounts.Generator × amounts.Commitment)) :=
  let issuance := txin.assetIssuance
  let token := issuedToken crypto supervision txin
  if issuance.isNull then some []
  else if txin.isReissuance && !spendsToken amounts spent token issuance.assetBlindingNonce then
    none
  -- Only an initial issuance can have reissuance tokens.
  else if txin.isReissuance && issuance.nInflationKeys != .null then none
  else do
    let asset ← pseudoInput params amounts (issuedAsset crypto supervision txin)
      issuance.nAmount txin.vchIssuanceAmountRangeproof
    let tokens ← pseudoInput params amounts token
      issuance.nInflationKeys txin.vchInflationKeysRangeproof
    some (asset ++ tokens)

/-- The generators and commitments of an input. A supervision output of zero is skipped,
together with the issuance on its input. -/
def inputTerms (supervisionActive : Bool) (supervision : Option SupervisionDescriptor)
    (txin : CTxIn) (spent : CTxOut) : Option (List (amounts.Generator × amounts.Commitment)) :=
  match assetGenerator amounts spent.nAsset, spent.nValue with
  | some gen, .explicit amount =>
    if !params.moneyRange amount then none
    else if amount = 0 then
      if supervisionActive && isSupervisionOutput spent then some [] else none
    else (issuanceInputs params crypto amounts supervision txin spent.nAsset).map
      fun issued => (gen, amounts.pedersenCommit amount gen) :: issued
  | some gen, .commitment bytes =>
    match amounts.commitmentParse bytes with
    | none => none
    | some commit => (issuanceInputs params crypto amounts supervision txin spent.nAsset).map
      fun issued => (gen, commit) :: issued
  | _, _ => none

/-- The commitment of an output, absent where the amount is zero. Nothing that can be spent
is worth zero, with the exception of supervision outputs. -/
def outputTerm (supervisionActive : Bool) (out : CTxOut) : Option (List amounts.Commitment) :=
  match assetGenerator amounts out.nAsset, out.nValue with
  | some gen, .explicit amount =>
    if !params.moneyRange amount then none
    else if amount = 0 then
      if isUnspendable out.scriptPubKey || supervisionActive && isSupervisionOutput out then some []
      else none
    else some [amounts.pedersenCommit amount gen]
  | some _, .commitment bytes => (amounts.commitmentParse bytes).map fun commit => [commit]
  | _, _ => none

def outputRangeProof (out : CTxOut) (witness : CTxOutWitness) : Bool :=
  match out.nValue, out.nAsset with
  | .explicit _, _ => witness.vchRangeproof.isEmpty
  | .commitment value, .explicit asset =>
    verifyRangeProof amounts witness.vchRangeproof value
      (amounts.generatorSerialize (amounts.generatorGenerate asset)) out.scriptPubKey
  | .commitment value, .commitment bytes =>
    verifyRangeProof amounts witness.vchRangeproof value bytes out.scriptPubKey
  | _, _ => false

def outputSurjectionProof (targets : List amounts.Generator) (out : CTxOut)
    (witness : CTxOutWitness) : Bool :=
  match out.nAsset with
  | .explicit _ => witness.vchSurjectionproof.isEmpty
  | .commitment bytes =>
    bytes.length == committedSize && !witness.vchSurjectionproof.isEmpty &&
      match amounts.generatorParse bytes with
      | some gen => amounts.surjectionproofVerify witness.vchSurjectionproof targets gen
      | none => false
  | .null => false

def CTransaction.witnessedOutputs (tx : CTransaction) : List (CTxOut × CTxOutWitness) :=
  tx.vout.zipIdx.map fun (out, i) => (out, (tx.vtxoutwit[i]?).getD {})

def verifyAmounts (inputs : List CTxOut) (tx : CTransaction) (supervisionActive : Bool)
    (supervision : Option SupervisionDescriptor) : Bool :=
  match (tx.vin.zip inputs).mapM fun p =>
      inputTerms params crypto amounts supervisionActive supervision p.1 p.2,
    tx.vout.mapM (outputTerm params amounts supervisionActive) with
  | some terms, some commits =>
    amounts.verifyTally (terms.flatten.map Prod.snd) commits.flatten &&
      (tx.witnessedOutputs.all fun p => outputRangeProof amounts p.1 p.2) &&
      (tx.witnessedOutputs.all fun p =>
        outputSurjectionProof amounts (terms.flatten.map Prod.fst) p.1 p.2)
  | _, _ => false

end Verify

abbrev CAmountMap := ExtTreeMap CAsset ℤ

section Fees

variable (params : Params)

/-- `MoneyRange` of a map. -/
def CAmountMap.moneyRange (m : CAmountMap) : Bool := m.toList.all fun e => params.moneyRange e.2

/-- The fee that an output pays. -/
def CTxOut.fee? (out : CTxOut) : Option (CAsset × ℤ) :=
  if out.isFee then out.explicit? else none

def hasValidFee (tx : CTransaction) : Bool :=
  let totals := (tx.vout.filterMap CTxOut.fee?).foldlM (fun (totals : CAmountMap) p =>
    let totals' := tally totals p.1 p.2
    if p.2 = 0 || !params.moneyRange p.2 || !CAmountMap.moneyRange params totals' then none
    else some totals') ∅
  totals.isSome

/-- `fee_map += GetFeeMap(tx)`. -/
def addFeeMap (feeMap : CAmountMap) (tx : CTransaction) : CAmountMap :=
  (tx.vout.filterMap CTxOut.fee?).foldl (fun m p => tally m p.1 p.2) feeMap

/-- An output of the coinbase is readable, in range, and not a spendable zero. -/
def coinbaseOutput (out : CTxOut) : Bool :=
  match out.explicit? with
  | some (_, amount) => params.moneyRange amount &&
      !(amount == 0 && !isUnspendable out.scriptPubKey)
  | none => false

def verifyCoinbaseAmount (tx : CTransaction) (mapFees : CAmountMap) : Bool :=
  (tx.vtxoutwit.all fun outwit => outwit == {}) && tx.vout.all (coinbaseOutput params) &&
    CAmountMap.moneyRange params ((tx.vout.filterMap CTxOut.explicit?).foldl
      (fun (m : CAmountMap) p => tally m p.1 (-p.2)) mapFees)

/-- One output in `CheckTransaction`; `total` is the sum of the readable amounts so far. -/
def checkOutputAmount (total : ℤ) (out : CTxOut) : Except Invalid ℤ :=
  match out.nValue with
  | .explicit amount =>
    if amount < 0 then .error ⟨"bad-txns-vout-negative", ""⟩
    else if params.maxMoney < amount then .error ⟨"bad-txns-vout-toolarge", ""⟩
    else if !params.moneyRange (total + amount) then
      .error ⟨"bad-txns-txouttotal-toolarge", ""⟩
    else .ok (total + amount)
  | _ => .ok total

/-- `CheckTransaction`, without the limit on the size. -/
def checkTransaction (tx : CTransaction) : Except Invalid Unit :=
  if tx.vin = [] then .error ⟨"bad-txns-vin-empty", ""⟩
  else if tx.vout = [] then .error ⟨"bad-txns-vout-empty", ""⟩
  else do
    let _ ← tx.vout.foldlM (checkOutputAmount params) 0
    if ¬ (tx.vin.map CTxIn.prevout).Nodup then .error ⟨"bad-txns-inputs-duplicate", ""⟩
    else if tx.isCoinBase then
      match tx.vin.head? with
      | some txin =>
        if txin.scriptSig.length < 2 ∨ 100 < txin.scriptSig.length then
          .error ⟨"bad-cb-length", ""⟩
        else if tx.vout.any CTxOut.isFee then .error ⟨"bad-cb-fee", ""⟩
        else .ok ()
      | none => .ok ()
    else if tx.vin.any fun txin => txin.prevout.isNull then
      .error ⟨"bad-txns-prevout-null", ""⟩
    else .ok ()

end Fees

end Sequentia
