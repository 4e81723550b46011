import Sequentia.Stake.ConnectRules
import Sequentia.Supervision.Mempool

/-!
# Judging records transaction by transaction

The mempool and the block assembler judge a transaction against the rules for records before
any block exists: `PosCheckTxRecords` takes the transactions in the order in which they would
stand in the block, and keeps what they have done to the records so far. `ConnectBlock` makes
passes over the whole block instead.
-/

namespace Sequentia

open Std KeyedMap

/-- `PosRecordState`: what the transactions so far have done to the records. -/
structure PosRecordState where
  spentDelegations : List CPubKey
  spentPayouts : List (CPubKey × ℕ)
  createdDelegations : List CPubKey
  /-- Slots with a new payout policy. -/
  createdPayouts : List (CPubKey × ℕ)
  /-- Committee keys that are registered. -/
  blsKeys : ExtTreeMap CPubKey Bytes
  spentRecordScripts : List CScript
  createdRecordScripts : List CScript
  /-- Assets and roles whose key is rotated. -/
  supervisionRotations : List (CAsset × Bool)

/-- Nothing done yet. -/
def PosRecordState.empty : PosRecordState := ⟨[], [], [], [], ∅, [], [], []⟩

namespace PosRecordState

section Judge

variable (params : Params) (crypto : Crypto) (registry : StakeRegistry) (height : ℕ)

def spendCoin (st : PosRecordState) (coin : Coin) : Except Invalid PosRecordState :=
  let hardening := params.posHardeningActiveAt height
  let script := coin.out.scriptPubKey
  if hardening &&
      ((delegationFromTxOut coin.out).isSome || (payoutFromTxOut coin.out).isSome) &&
      st.createdRecordScripts.contains script then
    .error ⟨"bad-record-recreated", ""⟩
  else
    let st := match delegationFromTxOut coin.out with
      | none => st
      | some deleg =>
        { st with
          spentDelegations := deleg.1 :: st.spentDelegations
          spentRecordScripts := script :: st.spentRecordScripts }
    match payoutFromTxOut coin.out with
    | none => .ok st
    | some p =>
      if hardening && posPayoutInForce registry p.1 p.2 height then
        .error ⟨"bad-payout-in-force", ""⟩
      else .ok
        { st with
          spentPayouts := (p.1, p.2.activation) :: st.spentPayouts
          spentRecordScripts := script :: st.spentRecordScripts }

variable (spent : List Coin)

/-- The delegation record in an output of a transaction that spends some coins. -/
def createDelegation (st : PosRecordState) (out : CTxOut) : Except Invalid PosRecordState :=
  let hardening := params.posHardeningActiveAt height
  match delegationFromTxOut out with
  | none => .ok st
  | some (controller, signer) =>
    if hardening && st.spentRecordScripts.contains out.scriptPubKey then
      .error ⟨"bad-record-recreated", ""⟩
    else if hardening && decide (controller = signer) then .error ⟨"bad-delegation-self", ""⟩
    else if hardening && !posTxSpendsKey crypto controller spent then
      .error ⟨"bad-delegation-unauthorized", ""⟩
    else if controller ∈ st.createdDelegations then .error ⟨"bad-delegation-conflict", ""⟩
    else if registry.hasDelegation controller ∧ controller ∉ st.spentDelegations then
      .error ⟨"bad-delegation-exists", ""⟩
    else .ok
      { st with
        createdDelegations := controller :: st.createdDelegations
        createdRecordScripts := out.scriptPubKey :: st.createdRecordScripts }

/-- A payout record, which is not a split record below its flag day. -/
def createPayout (st : PosRecordState) (script : CScript) (signer : CPubKey)
    (policy : PosPayoutPolicy) : Except Invalid PosRecordState :=
  let hardening := params.posHardeningActiveAt height
  let slot := (signer, policy.activation)
  if hardening && st.spentRecordScripts.contains script then .error ⟨"bad-record-recreated", ""⟩
  else if hardening && !posTxSpendsKey crypto signer spent then
    .error ⟨"bad-payout-unauthorized", ""⟩
  else if policy.activation < height + params.posPayoutNotice then
    .error ⟨"bad-payout-notice", ""⟩
  else if slot ∈ st.createdPayouts then .error ⟨"bad-payout-conflict", ""⟩
  else if registry.hasPayoutAt signer policy.activation ∧ slot ∉ st.spentPayouts then
    .error ⟨"bad-payout-exists", ""⟩
  else .ok
    { st with
      createdPayouts := slot :: st.createdPayouts
      createdRecordScripts := script :: st.createdRecordScripts }

/-- The committee key that a staking output registers. -/
def registerKey (st : PosRecordState) (out : CTxOut) : Except Invalid PosRecordState :=
  if !params.posPublicCommittee then .ok st
  else
    match stakeFromTxOut params out, parseStakeScriptFull out.scriptPubKey with
    | some _, some full =>
      if full.blsPubkey.isEmpty then .ok st
      else if registry.getBls full.pubkey ≠ [] ∧ registry.getBls full.pubkey ≠ full.blsPubkey then
        .error ⟨"bad-stake-bls-conflict", ""⟩
      else if (st.blsKeys[full.pubkey]?).any (· ≠ full.blsPubkey) then
        .error ⟨"bad-stake-bls-conflict", ""⟩
      else if !crypto.blsVerifyPossession full.blsPubkey full.blsPop then
        .error ⟨"bad-stake-bls-pop", ""⟩
      else .ok { st with blsKeys := st.blsKeys.insert full.pubkey full.blsPubkey }
    | _, _ => .ok st

/-- The payout record in an output and then the committee key. A split record below its flag
day ends the rules for the output. -/
def createPolicy (st : PosRecordState) (out : CTxOut) : Except Invalid PosRecordState :=
  match payoutFromTxOut out with
  | some (signer, policy) =>
    if inertSplit params height policy then .ok st
    else do
      let st ← st.createPayout params crypto registry height spent out.scriptPubKey signer policy
      st.registerKey params crypto registry out
  | none => st.registerKey params crypto registry out

/-- An output of a transaction that spends some coins. -/
def createOutput (st : PosRecordState) (out : CTxOut) : Except Invalid PosRecordState :=
  if params.posHardeningActiveAt height && posOutputWeightsUncompressedKey params out then
    .error ⟨"bad-stake-uncompressed-key", ""⟩
  else do
    let st ← st.createDelegation params crypto registry height spent out
    st.createPolicy params crypto registry height spent out

/-- The rotation in an output: one for each asset and role. -/
def rotateKey (st : PosRecordState) (out : CTxOut) : Except Invalid PosRecordState :=
  match rotationSlot out.scriptPubKey with
  | none => .ok st
  | some slot =>
    if slot ∈ st.supervisionRotations then .error ⟨"bad-supervision-rotation-conflict", ""⟩
    else .ok { st with supervisionRotations := slot :: st.supervisionRotations }

end Judge

end PosRecordState

/-- Some input makes an issuance and spends a supervision record. -/
def issuesOnRecord (tx : CTransaction) (spent : List Coin) : Bool :=
  (tx.vin.zip spent).any fun p =>
    !p.1.assetIssuance.isNull && (parseSupervisionRecordScript p.2.out.scriptPubKey).isSome

section Check

variable (params : Params) (crypto : Crypto) (registry : StakeRegistry) (height : ℕ)

/-- The supervision part of `PosCheckTxRecords`. -/
def checkTxSupervision (st : PosRecordState) (tx : CTransaction) (spent : List Coin) :
    Except Invalid PosRecordState :=
  if params.posHardeningActiveAt height then
    if issuesOnRecord tx spent then .error ⟨"bad-issuance-on-supervision-record", ""⟩
    else tx.vout.foldlM PosRecordState.rotateKey st
  else .ok st

/-- `PosCheckTxRecords`: a transaction that spends the given coins joins a block at a height. -/
def posCheckTxRecords (st : PosRecordState) (tx : CTransaction) (spent : List Coin) :
    Except Invalid PosRecordState :=
  if !params.conPos then .ok st
  else do
    let st ← spent.foldlM (PosRecordState.spendCoin params registry height) st
    let st ← tx.vout.foldlM (PosRecordState.createOutput params crypto registry height spent) st
    let st ← checkTxSupervision params height st tx spent
    if params.splitPayoutActiveAt height then
      match checkPosPotClaim params crypto registry tx spent height with
      | .ok () => .ok st
      | .error debug => .error ⟨"bad-pot-claim", debug⟩
    else .ok st

/-- Transactions with the coins they spend, judged in turn. -/
def checkTxsRecords (st : PosRecordState) (txs : List (CTransaction × List Coin)) :
    Except Invalid PosRecordState :=
  txs.foldlM (fun st p => posCheckTxRecords params crypto registry height st p.1 p.2) st

/-- The rules of `ConnectBlock` for records. -/
def checkBlockRecords (block : CBlock) (undo : CBlockUndo) : Except Invalid Unit := do
  if params.conPos then
    checkBlsRules params crypto registry block
    checkRecordRules params crypto registry block undo height
  if params.posHardeningActiveAt height then checkSupervisionHardening block undo
  if params.conPos then checkPotClaims params crypto registry block undo height

end Check

/-- How a coin is seen by the mempool and the assembler: if the block itself creates it, it has
the height of the mempool. -/
def Coin.SeenAs (height : ℕ) (coin seen : Coin) : Prop :=
  seen = coin ∨
    coin.nHeight = height ∧ seen = { coin with nHeight := CTxMemPool.mempoolHeight }

end Sequentia
