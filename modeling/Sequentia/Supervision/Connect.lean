import Sequentia.Amounts.Verify

/-!
# Connecting blocks with supervised assets

`CheckTxInputs` is the gate of every transaction, in the mempool and in a block: it reads
the coins spent and the supervision registry of the parent block. From the hardening
height on a block has to pass three more rules. The registry changes after the block has
been accepted.
-/

namespace Sequentia

open Std KeyedMap

/-- What the rules on amounts and supervision depend on beside the chain itself. -/
structure ChainEnv where
  params : Params
  /-- Hashes and signatures. -/
  crypto : Crypto
  amounts : AmountCrypto
  /-- The amount of the pegged asset that a valid peg-in witness claims. -/
  peginValue : CTxIn → Option ℤ
  coinbaseMaturityAt : ℕ → ℕ

variable (env : ChainEnv)

/-- A failed check refuses the transaction under a reject reason. -/
def rejectAs {α : Type} (reason : String) : Except String α → Except Invalid Unit
  | .error err => .error ⟨reason, err⟩
  | .ok _ => .ok ()

section Inputs

variable (registry : SupervisionRegistry) (nSpendHeight : ℕ)

/-- The output that an input spends, which a peg-in brings along. -/
def ChainEnv.spentOutput (txin : CTxIn) (coin : Coin) : Option CTxOut :=
  if txin.isPegin then
    (env.peginValue txin).map fun amount =>
      ⟨.explicit env.params.peggedAsset, .explicit amount, coin.out.scriptPubKey⟩
  else some coin.out

/-- The spend side of supervision for one coin: an unfreeze is signed by the current key,
and a frozen output of a single owner stays. -/
def checkSupervisedSpend (i : ℕ) (txin : CTxIn) (coin : Coin) : Except Invalid Unit :=
  if !env.params.supervisionActive nSpendHeight || registry.isEmpty then .ok ()
  else do
    rejectAs "bad-txns-supervision-unfreeze"
      (checkSupervisionRecordSpend env.crypto registry txin coin.out)
    match coin.out.nAsset with
    | .explicit asset =>
      if registry.anyFrozen &&
          registry.isFrozen asset (supervisionTargetHash env.crypto coin.out.scriptPubKey) &&
          isSingleOwnerSpend txin coin.out.scriptPubKey then
        .error ⟨"bad-txns-asset-frozen",
          "input " ++ toString i ++ " spends frozen " ++ asset.getHex⟩
      else .ok ()
    | _ => .ok ()

/-- One input in `CheckTxInputs`. -/
def checkInput (p : (CTxIn × Coin) × ℕ) : Except Invalid Unit :=
  let ((txin, coin), i) := p
  if txin.isPegin then
    match env.peginValue txin with
    | none => .error ⟨"bad-pegin-witness", ""⟩
    | some amount =>
      if !env.params.moneyRange amount then .error ⟨"bad-txns-inputvalues-outofrange", ""⟩
      else .ok ()
  else if coin.fCoinBase ∧ nSpendHeight < coin.nHeight + env.coinbaseMaturityAt nSpendHeight then
    .error ⟨"bad-txns-premature-spend-of-coinbase",
      "tried to spend coinbase at depth " ++ toString (nSpendHeight - coin.nHeight)⟩
  else checkSupervisedSpend env registry nSpendHeight i txin coin

def spendsSupervised (txin : CTxIn) (coin : Coin) : Bool :=
  !txin.isPegin &&
    match coin.out.nAsset with
    | .explicit asset => registry.isSupervised asset
    | _ => false

def reissuesSupervised (txin : CTxIn) : Bool :=
  txin.isReissuance &&
    registry.isSupervised (calculateAsset env.crypto txin.assetIssuance.assetEntropy)

/-- The flag `touches_supervised`. -/
def touchesSupervised (tx : CTransaction) (spent : List Coin) : Bool :=
  ((tx.vin.zip spent).any fun p => spendsSupervised registry p.1 p.2) ||
    tx.vin.any (reissuesSupervised env registry)

/-- The supervision part of `CheckTxInputs` beyond single inputs: the declaration, the
records, and that a transaction which touches a supervised asset hides nothing. The
descriptor goes into the amounts. -/
def checkSupervision (tx : CTransaction) (spent : List Coin) :
    Except Invalid (Option SupervisionDescriptor) :=
  if !env.params.supervisionActive nSpendHeight then .ok none
  else
    match supervisionFromTx tx with
    | .error () => .error ⟨"bad-txns-supervision-multiple-declarations", ""⟩
    | .ok declaration => do
      forM declaration.toList fun decl => rejectAs "bad-txns-supervision-declaration"
        (checkSupervisedIssuance env.crypto decl tx)
      rejectAs "bad-txns-supervision-record" (checkSupervisionRecords env.crypto registry tx)
      if tx.vin.any fun txin => reissuesSupervised env registry txin &&
          !txin.assetIssuance.nAmount.isExplicit then
        .error ⟨"bad-txns-supervised-blinded",
          "a supervised asset may not be reissued into a blinded amount"⟩
      else if touchesSupervised env registry tx spent &&
          tx.vout.any fun out => !out.nAsset.isExplicit || !out.nValue.isExplicit then
        .error ⟨"bad-txns-supervised-blinded",
          "a transaction moving a supervised asset must keep every output explicit"⟩
      else .ok (declaration.map SupervisionDeclaration.descriptor)

/-- `Consensus::CheckTxInputs` of a transaction that spends the given coins; the fees are
added to those of the block. -/
def checkTxInputs (feeMap : CAmountMap) (tx : CTransaction) (spent : List Coin) :
    Except Invalid CAmountMap := do
  forM (tx.vin.zip spent).zipIdx (checkInput env registry nSpendHeight)
  if !hasValidFee env.params tx then .error ⟨"bad-txns-fee-outofrange", ""⟩
  else
    let supervision ← checkSupervision env registry nSpendHeight tx spent
    let inputs := (tx.vin.zip spent).filterMap fun p => env.spentOutput p.1 p.2
    if !verifyAmounts env.params env.crypto env.amounts inputs tx
        (env.params.supervisionActive nSpendHeight) supervision then
      .error ⟨"bad-txns-in-ne-out", "value in != value out"⟩
    else if !CAmountMap.moneyRange env.params (addFeeMap feeMap tx) then
      .error ⟨"bad-block-total-fee-outofrange", ""⟩
    else .ok (addFeeMap feeMap tx)

end Inputs

/-- The script of a declaration ends with `OP_RETURN`, so that no input can spend it. -/
def checkDeclarationSpend (undo : CBlockUndo) : Except Invalid Unit :=
  if undo.flatten.any fun coin => (parseSupervisionScript coin.out.scriptPubKey).isSome then
    .error ⟨"mandatory-script-verify-flag-failed (OP_RETURN was encountered)", ""⟩
  else .ok ()

def rotationSlot (script : CScript) : Option (CAsset × Bool) :=
  match parseSupervisionRecordScript script with
  | none => none
  | some record =>
    if record.isRotation then some (record.asset, record.operationalRole) else none

/-- The hardening rules of `ConnectBlock` for supervision: no issuance on an input that
spends a record, no declaration or record in the coinbase, and one rotation for each
asset and role. -/
def checkSupervisionHardening (block : CBlock) (undo : CBlockUndo) : Except Invalid Unit :=
  if (block.vtx.tail.zip undo).any fun q => (q.1.vin.zip q.2).any fun p =>
      !p.1.assetIssuance.isNull && (parseSupervisionRecordScript p.2.out.scriptPubKey).isSome then
    .error ⟨"bad-issuance-on-supervision-record",
      "an issuance on an input spending a supervision record"⟩
  else if (block.vtx.take 1).any fun tx => tx.vout.any fun out =>
      (parseSupervisionScript out.scriptPubKey).isSome ||
        (parseSupervisionRecordScript out.scriptPubKey).isSome then
    .error ⟨"bad-cb-supervision", "a supervision declaration or record in a coinbase"⟩
  else if ¬ (block.outputScripts.filterMap rotationSlot).Nodup then
    .error ⟨"bad-supervision-rotation-conflict",
      "two key rotations for one asset and role in a block"⟩
  else .ok ()

def ChainEnv.blockReward (feeMap : CAmountMap) (height : ℕ) : CAmountMap :=
  tally feeMap env.params.subsidyAsset (env.params.blockSubsidy height)

def checkCoinbase (block : CBlock) (feeMap : CAmountMap) (height : ℕ) : Except Invalid Unit :=
  let reward := env.blockReward feeMap height
  if !CAmountMap.moneyRange env.params reward then .error ⟨"bad-blockreward-outofrange", ""⟩
  else if !(block.vtx.take 1).all fun tx => verifyCoinbaseAmount env.params tx reward then
    .error ⟨"bad-cb-amount", ""⟩
  else .ok ()

/-- The tip of the chain: its height, the coins and the registry it left. -/
structure SupervisedState where
  height : ℕ
  /-- The UTXO set. -/
  coins : CCoinsView
  registry : SupervisionRegistry

def ChainEnv.applySupervision (registry : SupervisionRegistry) (block : CBlock)
    (undo : CBlockUndo) (height : ℕ) : SupervisionRegistry :=
  if env.params.supervisionActive height then supervisionApplyBlock registry block undo
  else registry

def SupervisedState.connectBlock (st : SupervisedState) (block : CBlock) :
    Except Invalid (SupervisedState × CBlockUndo) := do
  let height := st.height + 1
  forM block.vtx (checkTransaction env.params)
  match connectCoins st.coins height block with
  | .error reason => .error ⟨reason, ""⟩
  | .ok (coins, undo) =>
    let feeMap ← (block.vtx.tail.zip undo).foldlM (fun feeMap p =>
      checkTxInputs env st.registry height feeMap p.1 p.2) ∅
    checkDeclarationSpend undo
    if env.params.posHardeningActiveAt height then checkSupervisionHardening block undo
    checkCoinbase env block feeMap height
    .ok (⟨height, coins, env.applySupervision st.registry block undo height⟩, undo)

end Sequentia
