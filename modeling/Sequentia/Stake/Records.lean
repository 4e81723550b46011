import Sequentia.Params
import Sequentia.ScriptReader

/-!
# Staking outputs and delegation records

The stake registry is derived from bare scripts that the node recognises token by token.
Each parser reads pushes by their content, so several byte encodings of one record are
accepted. This file has the scripts that carry or re-point stake weight.
-/

namespace Sequentia

open ScriptReader

def charBytes (chars : List Char) : Bytes := chars.map fun c => UInt8.ofNat c.toNat

def sequenceLocktimeTypeFlag : ℕ := 2 ^ 22

def sequenceLocktimeMask : ℕ := 0xffff

structure ParsedStake where
  pubkey : CPubKey
  /-- The relative lock. -/
  csv : ℕ
  /-- The committee key the output registers, empty when it registers none. -/
  blsPubkey : Bytes
  /-- Its proof of possession. -/
  blsPop : Bytes
  /-- The absolute vesting lock, zero when there is none. -/
  liquidLocktime : ℕ
  deriving DecidableEq

/-- A small integer opcode or a minimal push of at most `maxSize` bytes. -/
def acceptLockNumber (maxSize : ℕ) (opcode : UInt8) (data : Bytes) : Option ℤ :=
  if op1 ≤ opcode ∧ opcode ≤ op16 then some ((opcode.toNat - 0x50 : ℕ) : ℤ)
  else if data ≠ [] ∧ data.length ≤ maxSize then
    if scriptNumMinimal data maxSize then some (decodeScriptInt data) else none
  else none

/-- The relative lock of a staking script: positive, with no bit set beside the type flag
and the 16-bit value, and with a non-zero value. -/
def acceptCsv (opcode : UInt8) (data : Bytes) : Option ℕ :=
  match acceptLockNumber 4 opcode data with
  | none => none
  | some csv =>
    if csv < 1 then none
    else if csv.toNat &&& (sequenceLocktimeTypeFlag ||| sequenceLocktimeMask) ≠ csv.toNat then none
    else if csv.toNat &&& sequenceLocktimeMask = 0 then none
    else some csv.toNat

/-- The absolute lock of a staking script, in the range of `nLockTime`. -/
def acceptLocktime (opcode : UInt8) (data : Bytes) : Option ℕ :=
  match acceptLockNumber 5 opcode data with
  | none => none
  | some locktime => if locktime ≤ 0 ∨ 0xffffffff < locktime then none else some locktime.toNat

/-- The end of a staking script, after a first token has been read: the optional vesting
lock, told by one token of lookahead, then the staking key and its signature check. -/
def stakeTail (opcode : UInt8) (data : Bytes) : ScriptReader (ℕ × CPubKey) := fun pc =>
  match getScriptOp pc with
  | some (next, _, pc') =>
    if next = opCheckLockTimeVerify then
      match acceptLocktime opcode data with
      | none => none
      | some locktime =>
        (do
          expectOp opDrop
          let pubkey ← getKey
          expectOp opCheckSig
          pure (locktime, pubkey) : ScriptReader (ℕ × CPubKey)) pc'
    else
      match acceptKey data with
      | none => none
      | some pubkey =>
        (do
          expectOp opCheckSig
          pure (0, pubkey) : ScriptReader (ℕ × CPubKey)) pc
  | none => none

/-- A push of the given length. -/
def getPush (size : ℕ) : ScriptReader Bytes :=
  token fun _ data => if data.length = size then some data else none

/-- The part of a staking script after the relative lock. A push of 48 bytes is the
committee key and is followed by its proof of possession. -/
def stakeBody (csv : ℕ) : ScriptReader ParsedStake := do
  let (opcode, data) ← getOp
  if data.length = 48 then
    expectOp opDrop
    let pop ← getPush 96
    expectOp opDrop
    let (opcode, data') ← getOp
    let (locktime, pubkey) ← stakeTail opcode data'
    pure ⟨pubkey, csv, data, pop, locktime⟩
  else
    let (locktime, pubkey) ← stakeTail opcode data
    pure ⟨pubkey, csv, [], [], locktime⟩

def parseStakeScriptFull (script : CScript) : Option ParsedStake :=
  parse (do
    let csv ← token acceptCsv
    expectOp opCheckSequenceVerify
    expectOp opDrop
    stakeBody csv) script

/-- `ParseStakeBlsRegistration`: the committee key a staking script registers. -/
def parseStakeBlsRegistration (script : CScript) : Option (Bytes × Bytes) :=
  match parseStakeScriptFull script with
  | none => none
  | some full => if full.blsPubkey.isEmpty then none else some (full.blsPubkey, full.blsPop)

/-- `PosStakeLockSeconds`: the relative lock as a duration. -/
def posStakeLockSeconds (params : Params) (csv : ℕ) : Option ℕ :=
  if csv &&& (sequenceLocktimeTypeFlag ||| sequenceLocktimeMask) ≠ csv then none
  else
    let value := csv &&& sequenceLocktimeMask
    if value = 0 then none
    else if csv &&& sequenceLocktimeTypeFlag ≠ 0 then some (value * 512)
    else some (value * params.effectiveSlotSeconds)

/-- `StakeFromTxOut`: the staker and the weight of a transparent staking output. -/
def stakeFromTxOut (params : Params) (out : CTxOut) : Option (CPubKey × ℕ) :=
  match out.explicit? with
  | none => none
  | some (asset, amount) =>
    if asset ≠ params.policyAsset then none
    else if amount ≤ 0 then none
    else
      match parseStakeScriptFull out.scriptPubKey with
      | none => none
      | some parsed =>
        match posStakeLockSeconds params parsed.csv with
        | none => none
        | some lock =>
          if lock < params.posRequiredUnbondingSeconds then none
          else some (parsed.pubkey, amount.toNat)

def delegationMarker : Bytes := charBytes ['S', 'E', 'Q', 'D', 'E', 'L']

def buildDelegationScript (controller signer : CPubKey) : CScript :=
  pushBytes delegationMarker ++ [opDrop] ++ pushBytes signer.vch ++ [opDrop] ++
    pushBytes controller.vch ++ [opCheckSig]

/-- `ParseDelegationScript`: the controller and the signer of a delegation record. -/
def parseDelegationScript (script : CScript) : Option (CPubKey × CPubKey) :=
  parse (do
    expectData delegationMarker
    expectOp opDrop
    let signer ← getKey
    expectOp opDrop
    let controller ← getKey
    expectOp opCheckSig
    pure (controller, signer)) script

def delegationFromTxOut (out : CTxOut) : Option (CPubKey × CPubKey) :=
  parseDelegationScript out.scriptPubKey

def unbondMarker : Bytes := charBytes ['S', 'E', 'Q', 'U', 'N', 'B', 'O', 'N', 'D']

def parseUnbondScript (script : CScript) : Option CPubKey :=
  parse (do
    expectData unbondMarker
    expectOp opDrop
    let pubkey ← getKey
    expectOp opCheckSig
    pure pubkey) script

/-- `PosOutputWeightsUncompressedKey`: the output binds stake weight to a key that cannot
prove a VRF output. -/
def posOutputWeightsUncompressedKey (params : Params) (out : CTxOut) : Bool :=
  match stakeFromTxOut params out with
  | some stake => !stake.1.isCompressed
  | none =>
    match delegationFromTxOut out with
    | some deleg => !deleg.2.isCompressed
    | none => false

end Sequentia
