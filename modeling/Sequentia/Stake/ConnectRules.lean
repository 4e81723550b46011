import Sequentia.Pots.Claim
import Sequentia.Solver
import Sequentia.Stake.ApplyBlock

/-!
# What `ConnectBlock` asks of the records in a block

Before a block's stake changes are applied, the block passes the rules for committee keys,
delegations, payout policies and pot claims. All of them read the registry as the parent
block left it. The rules from the hardening height on compare scripts byte for byte.
-/

namespace Sequentia

open Std KeyedMap

def CBlock.outputs (block : CBlock) : List CTxOut := block.vtx.flatMap CTransaction.vout

section CommitteeKeys

variable (params : Params) (crypto : Crypto) (registry : StakeRegistry)

/-- The committee key rule for one output; `blockKeys` holds the keys seen in the block. -/
def checkBlsOutput (blockKeys : ExtTreeMap CPubKey Bytes) (out : CTxOut) :
    Except Invalid (ExtTreeMap CPubKey Bytes) :=
  match stakeFromTxOut params out, parseStakeScriptFull out.scriptPubKey with
  | some _, some full =>
    if full.blsPubkey.isEmpty then .ok blockKeys
    else if !crypto.blsVerifyPossession full.blsPubkey full.blsPop then
      .error ⟨"bad-stake-bls-pop", "staking output BLS proof-of-possession does not verify"⟩
    else if registry.getBls full.pubkey ≠ [] ∧ registry.getBls full.pubkey ≠ full.blsPubkey then
      .error ⟨"bad-stake-bls-conflict",
        "staking output BLS key conflicts with the staker's registered key"⟩
    else if (blockKeys[full.pubkey]?).any (· ≠ full.blsPubkey) then
      .error ⟨"bad-stake-bls-conflict",
        "two staking outputs register different BLS keys for one staker"⟩
    else .ok (blockKeys.insert full.pubkey full.blsPubkey)
  | _, _ => .ok blockKeys

/-- The committee key rule of `CheckPosStakeRules`. -/
def checkBlsRules (block : CBlock) : Except Invalid Unit := do
  if params.posPublicCommittee then
    let _ ← block.outputs.foldlM (checkBlsOutput params crypto registry) ∅

end CommitteeKeys

section Delegations

variable (registry : StakeRegistry) (spent : List CPubKey)

/-- The delegation rule for one output; `created` holds the controllers seen so far. -/
def checkDelegOutput (created : List CPubKey) (out : CTxOut) : Except Invalid (List CPubKey) :=
  match delegationFromTxOut out with
  | none => .ok created
  | some (controller, _) =>
    if controller ∈ created then
      .error ⟨"bad-delegation-conflict", "two delegation records for one controller in a block"⟩
    else if registry.hasDelegation controller ∧ controller ∉ spent then
      .error ⟨"bad-delegation-exists",
        "delegation record for a controller that already has one unspent"⟩
    else .ok (controller :: created)

end Delegations

section Payouts

variable (params : Params) (registry : StakeRegistry) (spent : List (CPubKey × ℕ)) (height : ℕ)

/-- A split record below its flag day, which the rules skip. -/
def inertSplit (policy : PosPayoutPolicy) : Bool :=
  policy.mode == .split && !params.splitPayoutActiveAt height

/-- The payout rule for one output; `created` holds the slots seen so far. -/
def checkPayoutOutput (created : List (CPubKey × ℕ)) (out : CTxOut) :
    Except Invalid (List (CPubKey × ℕ)) :=
  match payoutFromTxOut out with
  | none => .ok created
  | some (signer, policy) =>
    if inertSplit params height policy then .ok created
    else if policy.activation < height + params.posPayoutNotice then
      .error ⟨"bad-payout-notice", "payout policy would bind before its notice period elapses"⟩
    else if (signer, policy.activation) ∈ created then
      .error ⟨"bad-payout-conflict",
        "two payout records for one signer at one activation height"⟩
    else if registry.hasPayoutAt signer policy.activation ∧ (signer, policy.activation) ∉ spent then
      .error ⟨"bad-payout-exists",
        "payout record duplicates an unspent record's activation height"⟩
    else .ok ((signer, policy.activation) :: created)

end Payouts

def scriptBindsKey (crypto : Crypto) (key : CPubKey) (spk : CScript) : Bool :=
  (matchPayToPubkey spk).any (fun pubkey => CPubKey.ofBytes pubkey = key) ||
    (matchPayToPubkeyHash spk).any (· = key.getID crypto) ||
    (matchWitnessV0KeyHash spk).any (· = key.getID crypto) ||
    (parseStakeScriptFull spk).any (fun stake => stake.pubkey = key) ||
    (parseUnbondScript spk).any (· = key) ||
    (parseDelegationScript spk).any (fun deleg => deleg.1 = key) ||
    (parsePayoutScript spk).any (fun payout => payout.1 = key)

def posTxSpendsKey (crypto : Crypto) (key : CPubKey) (spent : List Coin) : Bool :=
  spent.any fun coin => !coin.isSpent && scriptBindsKey crypto key coin.out.scriptPubKey

section Hardening

variable (params : Params) (crypto : Crypto) (registry : StakeRegistry) (height : ℕ)

/-- A spent coin: the payout record in force stays, and the scripts of spent records are
collected. -/
def checkSpentRecord (scripts : List CScript) (coin : Coin) : Except Invalid (List CScript) :=
  if (payoutFromTxOut coin.out).any fun p => posPayoutInForce registry p.1 p.2 height then
    .error ⟨"bad-payout-in-force",
      "spends the payout record in force, ending its policy without notice"⟩
  else if (delegationFromTxOut coin.out).isSome || (payoutFromTxOut coin.out).isSome then
    .ok (coin.out.scriptPubKey :: scripts)
  else .ok scripts

/-- What the two kinds of records share: no script of a spent record comes back, and the
transaction spends a coin of the key that the record binds. -/
def checkRecordScript (scripts : List CScript) (spent : List Coin) (script : CScript)
    (unauthorized : String) (owner : CPubKey) : Except Invalid Unit :=
  if script ∈ scripts then
    .error ⟨"bad-record-recreated", "a stake record spent and re-created identically in one block"⟩
  else if !posTxSpendsKey crypto owner spent then
    .error ⟨unauthorized, "stake record created without spending a coin of the key it binds"⟩
  else .ok ()

def checkRecordOutput (scripts : List CScript) (spent : List Coin) (out : CTxOut) :
    Except Invalid Unit :=
  if posOutputWeightsUncompressedKey params out then
    .error ⟨"bad-stake-uncompressed-key",
      "stake weight bound to an uncompressed key, which can never prove a VRF output"⟩
  else
    match delegationFromTxOut out with
    | some (controller, signer) =>
      if out.scriptPubKey ∉ scripts ∧ controller = signer then
        .error ⟨"bad-delegation-self", "delegation record naming its controller as signer"⟩
      else checkRecordScript crypto scripts spent out.scriptPubKey "bad-delegation-unauthorized"
        controller
    | none =>
      match payoutFromTxOut out with
      | none => .ok ()
      | some (signer, policy) =>
        if inertSplit params height policy then .ok ()
        else checkRecordScript crypto scripts spent out.scriptPubKey "bad-payout-unauthorized"
          signer

/-- The audit hardening of `ConnectBlock`. -/
def checkHardening (block : CBlock) (undo : CBlockUndo) : Except Invalid Unit := do
  let scripts ← undo.flatten.foldlM (checkSpentRecord registry height) []
  forM (block.spends undo) fun p =>
    forM p.1.vout (checkRecordOutput params crypto height scripts p.2)

end Hardening

section Connect

variable (params : Params) (crypto : Crypto) (registry : StakeRegistry)

/-- The delegation and payout rules of `ConnectBlock`. -/
def checkRecordRules (block : CBlock) (undo : CBlockUndo) (height : ℕ) :
    Except Invalid Unit := do
  let spentRecords := undo.flatten.filterMap fun coin => (delegationFromTxOut coin.out).map Prod.fst
  let spentPayouts := undo.flatten.filterMap fun coin =>
    (payoutFromTxOut coin.out).map fun p => (p.1, p.2.activation)
  let _ ← block.outputs.foldlM (checkDelegOutput registry spentRecords) []
  let _ ← block.outputs.foldlM (checkPayoutOutput params registry spentPayouts height) []
  if params.posHardeningActiveAt height then
    checkHardening params crypto registry height block undo

/-- The pot rule of `ConnectBlock`: whatever spends a pot is a valid claim. -/
def checkPotClaims (block : CBlock) (undo : CBlockUndo) (height : ℕ) : Except Invalid Unit := do
  if params.splitPayoutActiveAt height then
    forM (block.vtx.tail.zip undo) fun p =>
      match checkPosPotClaim params crypto registry p.1 p.2 height with
      | .ok () => .ok ()
      | .error claimReason => .error ⟨"bad-pot-claim", claimReason⟩

/-- The tip of the chain: its height, the coins and the registry it left. -/
structure ChainState where
  height : ℕ
  /-- The UTXO set. -/
  coins : CCoinsView
  registry : StakeRegistry

/-- Connecting a block under proof of stake, as far as coins and stake records go. The undo
data goes with the new tip. -/
def ChainState.connectBlock (st : ChainState) (block : CBlock) :
    Except Invalid (ChainState × CBlockUndo) := do
  let height := st.height + 1
  checkBlsRules params crypto st.registry block
  match connectCoins st.coins height block with
  | .error reason => .error ⟨reason, ""⟩
  | .ok (coins, undo) =>
    checkRecordRules params crypto st.registry block undo height
    checkPotClaims params crypto st.registry block undo height
    .ok (⟨height, coins, st.registry.posApplyBlockStake params block undo height⟩, undo)

end Connect

end Sequentia
