import Mathlib.Algebra.Order.Ring.Int
import Mathlib.Data.List.Basic
import Mathlib.Tactic.Common

/-!
# Script bytes and the tokens the record parsers read

Every record of the chain (staking output, delegation, payout policy, pot, round,
supervision declaration and record) is a bare script that the node recognises by
reading its tokens one after another with `CScript::GetOp`. This file embeds that
reader, the numeric tokens, and the test that keeps an output out of the UTXO set.
-/

namespace Sequentia

/-- A byte vector, `std::vector<unsigned char>`. -/
abbrev Bytes := List UInt8

/-- A serialized script, `CScript`. -/
abbrev CScript := Bytes

/-- `OP_PUSHDATA1`, the first push opcode that carries an explicit length. -/
def opPushData1 : UInt8 := 0x4c

def opPushData2 : UInt8 := 0x4d

/-- `OP_PUSHDATA4`, the last opcode with an immediate operand. -/
def opPushData4 : UInt8 := 0x4e

def op0 : UInt8 := 0x00

/-- `OP_1`, also called `OP_TRUE`. -/
def op1 : UInt8 := 0x51

/-- `OP_16`, the last small-integer opcode. -/
def op16 : UInt8 := 0x60

def opReturn : UInt8 := 0x6a

def op2Drop : UInt8 := 0x6d

def opDrop : UInt8 := 0x75

def opDup : UInt8 := 0x76

def opEqual : UInt8 := 0x87

def opEqualVerify : UInt8 := 0x88

def opHash160 : UInt8 := 0xa9

def opCheckSig : UInt8 := 0xac

def opCheckLockTimeVerify : UInt8 := 0xb1

def opCheckSequenceVerify : UInt8 := 0xb2

/-- The length a push opcode announces, with the bytes that follow the length.
`none` when the script ends inside the length. -/
def pushSize (opcode : UInt8) (pc : CScript) : Option (ℕ × CScript) :=
  if opcode < opPushData1 then some (opcode.toNat, pc)
  else if opcode = opPushData1 then
    match pc with
    | b0 :: pc => some (b0.toNat, pc)
    | _ => none
  else if opcode = opPushData2 then
    match pc with
    | b0 :: b1 :: pc => some (b0.toNat + 256 * b1.toNat, pc)
    | _ => none
  else
    match pc with
    | b0 :: b1 :: b2 :: b3 :: pc =>
      some (b0.toNat + 256 * b1.toNat + 65536 * b2.toNat + 16777216 * b3.toNat, pc)
    | _ => none

/-- `GetScriptOp`: the opcode at the front of the script, the data it pushes, and
the rest of the script. `none` at the end of the script and on a truncated push. -/
def getScriptOp : CScript → Option (UInt8 × Bytes × CScript)
  | [] => none
  | opcode :: pc =>
    if opcode ≤ opPushData4 then
      match pushSize opcode pc with
      | some (nSize, pc) =>
        if pc.length < nSize then none else some (opcode, pc.take nSize, pc.drop nSize)
      | none => none
    else some (opcode, [], pc)

/-- Little-endian value of a byte vector. -/
def leNat : Bytes → ℕ
  | [] => 0
  | b :: bs => b.toNat + 256 * leNat bs

/-- The `n` low bytes of a number, little-endian. -/
def leBytes : ℕ → ℕ → Bytes
  | 0, _ => []
  | n + 1, v => UInt8.ofNat v :: leBytes n (v / 256)

/-- `CScript::operator<<` of a byte vector: the shortest push of it. -/
def pushBytes (b : Bytes) : CScript :=
  if b.length < opPushData1.toNat then UInt8.ofNat b.length :: b
  else if b.length ≤ 0xff then opPushData1 :: leBytes 1 b.length ++ b
  else if b.length ≤ 0xffff then opPushData2 :: leBytes 2 b.length ++ b
  else opPushData4 :: leBytes 4 b.length ++ b

/-- `CScriptNum(vch, fRequireMinimal, nMaxNumSize)` does not throw: the number fits
the size and is encoded with the fewest bytes. -/
def scriptNumMinimal (vch : Bytes) (nMaxNumSize : ℕ) : Bool :=
  decide (vch.length ≤ nMaxNumSize) &&
    (match vch.reverse with
    | [] => true
    | [b] => b &&& 0x7f != 0
    | b :: b' :: _ => b &&& 0x7f != 0 || b' &&& 0x80 != 0)

/-- `CScriptNum::set_vch` and `StakeDecodeScriptInt64`: the sign-magnitude value of
a script number. -/
def decodeScriptInt (vch : Bytes) : ℤ :=
  match vch.getLast? with
  | none => 0
  | some b =>
    if b &&& 0x80 != 0 then -((leNat vch - 128 * 256 ^ (vch.length - 1) : ℕ) : ℤ)
    else (leNat vch : ℤ)

/-- `ReadScriptNumToken`: a numeric token, that is `OP_0`, `OP_1` to `OP_16`, or a
minimal push of at most `maxSize` bytes. -/
def readScriptNumToken (opcode : UInt8) (data : Bytes) (maxSize : ℕ) : Option ℤ :=
  if opcode = op0 then some 0
  else if op1 ≤ opcode ∧ opcode ≤ op16 then some ((opcode.toNat - 0x50 : ℕ) : ℤ)
  else if data = [] ∨ maxSize < data.length then none
  else if scriptNumMinimal data maxSize then some (decodeScriptInt data)
  else none

def maxScriptSize : ℕ := 10000

/-- `CScript::IsUnspendable` in Elements mode: such an output never enters the UTXO
set. The empty script is the fee output. -/
def isUnspendable (script : CScript) : Bool :=
  script.head? == some opReturn || decide (maxScriptSize < script.length) || script.isEmpty

end Sequentia
