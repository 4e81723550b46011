import Sequentia.PubKey

/-!
# Script templates

The standard forms of an output script, as far as the rules of the chain tell them apart.
-/

namespace Sequentia

def matchPayToPubkey (script : CScript) : Option Bytes :=
  let pubkey := (script.drop 1).dropLast
  if (script.length = 67 ∧ script.head? = some 65 ∨ script.length = 35 ∧ script.head? = some 33) ∧
      script.getLast? = some opCheckSig ∧ CPubKey.validSize pubkey then some pubkey
  else none

def matchPayToPubkeyHash (script : CScript) : Option Bytes :=
  if script.length = 25 ∧ script.take 3 = [opDup, opHash160, 20] ∧
      script.drop 23 = [opEqualVerify, opCheckSig] then some ((script.drop 3).take 20)
  else none

def matchWitnessV0KeyHash (script : CScript) : Option Bytes :=
  if script.length = 22 ∧ script.take 2 = [op0, 20] then some (script.drop 2) else none

def isPayToScriptHash (script : CScript) : Bool :=
  script.length == 23 && script.take 2 == [opHash160, 20] && script.drop 22 == [opEqual]

/-- `CScript::IsWitnessProgram`: the version and the program. -/
def isWitnessProgram (script : CScript) : Option (ℕ × Bytes) :=
  match script with
  | version :: size :: program =>
    if script.length < 4 ∨ 42 < script.length then none
    else if version ≠ op0 ∧ (version < op1 ∨ op16 < version) then none
    else if size.toNat + 2 = script.length then
      some (if version = op0 then 0 else version.toNat - 0x50, program)
    else none
  | _ => none

/-- `TxoutType`, with the forms that no rule asks for taken together. -/
inductive TxoutType where
  | pubkey
  | pubkeyHash
  | scriptHash
  | witnessV0KeyHash
  | witnessV1Taproot
  | other
  deriving DecidableEq

def solver (script : CScript) : TxoutType :=
  if isPayToScriptHash script then .scriptHash
  else
    match isWitnessProgram script with
    | some (version, program) =>
      if version = 0 ∧ program.length = 20 then .witnessV0KeyHash
      else if version = 1 ∧ program.length = 32 then .witnessV1Taproot
      else .other
    | none =>
      if (matchPayToPubkey script).isSome then .pubkey
      else if (matchPayToPubkeyHash script).isSome then .pubkeyHash
      else .other

end Sequentia
