import Sequentia.Stake.Records

/-!
# Payout policies, pots and rounds

A payout record announces how a signer's blocks pay their fees from some height on. Under
the split mode the fees go into a pot, and claims turn pots into rounds that pay the
delegators bucket by bucket. The round script carries the terms of the round and the
bitmap of paid buckets.
-/

namespace Sequentia

open ScriptReader

inductive PosPayoutMode where
  | leader
  | direct
  | lottery
  | split
  deriving DecidableEq

structure PosPayoutPolicy where
  /-- How the fees are paid. -/
  mode : PosPayoutMode
  /-- The height from which the policy binds. -/
  activation : ℕ
  /-- The committed script of the direct mode. -/
  script : CScript
  /-- The operator's commission in basis points, in the other modes. -/
  commissionBp : ℕ
  deriving DecidableEq

def payoutMarker : Bytes := charBytes ['S', 'E', 'Q', 'P', 'A', 'Y']

def maxPayoutScriptSize : ℕ := 110

def posCommissionDenom : ℕ := 10000

/-- The activation height of a payout record. -/
def acceptActivation (opcode : UInt8) (data : Bytes) : Option ℕ :=
  match readScriptNumToken opcode data 5 with
  | none => none
  | some activation =>
    if activation ≤ 0 ∨ 0xffffffff < activation then none else some activation.toNat

def acceptMode (opcode : UInt8) (data : Bytes) : Option PosPayoutMode :=
  match readScriptNumToken opcode data 1 with
  | none => none
  | some mode =>
    if mode = 1 then some .direct
    else if mode = 2 then some .lottery
    else if mode = 3 then some .split
    else none

def acceptPayoutParam (mode : PosPayoutMode) (opcode : UInt8) (data : Bytes) :
    Option (CScript × ℕ) :=
  if mode = .direct then
    if data = [] ∨ maxPayoutScriptSize < data.length then none else some (data, 0)
  else
    match readScriptNumToken opcode data 3 with
    | none => none
    | some bp => if bp < 0 ∨ posCommissionDenom < bp then none else some ([], bp.toNat)

/-- `ParsePayoutScript`: the signer and its policy. -/
def parsePayoutScript (script : CScript) : Option (CPubKey × PosPayoutPolicy) :=
  parse (do
    expectData payoutMarker
    expectOp opDrop
    let activation ← token acceptActivation
    expectOp opDrop
    let mode ← token acceptMode
    expectOp opDrop
    let (payoutScript, commissionBp) ← token (acceptPayoutParam mode)
    expectOp opDrop
    let signer ← getKey
    expectOp opCheckSig
    pure (signer, ⟨mode, activation, payoutScript, commissionBp⟩)) script

def payoutFromTxOut (out : CTxOut) : Option (CPubKey × PosPayoutPolicy) :=
  parsePayoutScript out.scriptPubKey

/-- `PayoutRecordRecognized`: a split record created below the flag day is inert. -/
def payoutRecordRecognized (params : Params) (policy : PosPayoutPolicy) (creationHeight : ℕ) :
    Bool :=
  policy.mode != .split || params.splitPayoutHeight == 0 ||
    decide (params.splitPayoutHeight ≤ creationHeight)

def potMarker : Bytes := charBytes ['S', 'E', 'Q', 'P', 'O', 'T']

def buildPotScript (signer : CPubKey) : CScript :=
  pushBytes potMarker ++ [opDrop] ++ pushBytes signer.vch ++ [opDrop] ++ [op1]

def parsePotScript (script : CScript) : Option CPubKey :=
  parse (do
    expectData potMarker
    expectOp opDrop
    let signer ← getKey
    expectOp opDrop
    expectOp op1
    pure signer) script

/-- `PotOut`: a pot output. -/
structure PotOut where
  /-- The pool. -/
  signer : CPubKey
  asset : CAsset
  value : ℤ

def potFromTxOut (out : CTxOut) : Option PotOut :=
  match out.explicit? with
  | none => none
  | some (asset, value) =>
    if value ≤ 0 then none
    else (parsePotScript out.scriptPubKey).map fun signer => ⟨signer, asset, value⟩

/-- `PosRound`: the terms of a round and the bitmap of its paid buckets. -/
structure PosRound where
  /-- The epoch whose pots the round holds. -/
  epoch : ℕ
  weight : ℕ
  /-- The pool's own weight among it. -/
  signerWeight : ℕ
  /-- The value of the round when it was created. -/
  distributable : ℤ
  buckets : ℕ
  /-- Keys the bucket assignment. -/
  salt : Uint256
  /-- The bitmap of paid buckets. -/
  paid : Bytes
  deriving DecidableEq

def PosRound.isPaid (round : PosRound) (b : ℕ) : Bool :=
  (round.paid.getD (b / 8) 0).toNat.testBit (b % 8)

def PosRound.unpaid (round : PosRound) : ℕ :=
  (List.range round.buckets).countP fun b => !round.isPaid b

def roundMarker : Bytes := charBytes ['S', 'E', 'Q', 'R', 'N', 'D']

def roundDataFixed : ℕ := 4 + 8 + 8 + 8 + 2 + 32

def posRoundMaxBuckets : ℕ := 2048

/-- The fields of the round data before they are checked. -/
def decodeRound (rd : Bytes) : PosRound where
  epoch := leNat (rd.take 4)
  weight := leNat ((rd.drop 4).take 8)
  signerWeight := leNat ((rd.drop 12).take 8)
  -- The eight bytes are read as a signed number.
  distributable :=
    let v := leNat ((rd.drop 20).take 8)
    if v < 2 ^ 63 then (v : ℤ) else (v : ℤ) - 2 ^ 64
  buckets := leNat ((rd.drop 28).take 2)
  salt := ⟨BitVec.ofNat 256 (beNat ((rd.drop 30).take 32))⟩
  paid := rd.drop 62

/-- The checks that make the round data canonical. -/
def acceptRound (params : Params) (rd : Bytes) : Option PosRound :=
  let round := decodeRound rd
  if rd.length < roundDataFixed then none
  else if round.buckets = 0 ∨ posRoundMaxBuckets < round.buckets ∨
      round.buckets &&& (round.buckets - 1) ≠ 0 then none
  else if round.weight = 0 ∨ round.weight < round.signerWeight then none
  else if round.distributable ≤ 0 ∨ !params.moneyRange round.distributable then none
  else if rd.length ≠ roundDataFixed + (round.buckets + 7) / 8 then none
  else if round.buckets % 8 ≠ 0 ∧
      (round.paid.getLastD 0).toNat >>> (round.buckets % 8) ≠ 0 then none
  else some round

def buildRoundScript (signer : CPubKey) (round : PosRound) : CScript :=
  let data := leBytes 4 round.epoch ++ leBytes 8 round.weight ++ leBytes 8 round.signerWeight ++
    leBytes 8 (round.distributable % 2 ^ 64).toNat ++ leBytes 2 round.buckets ++
    beBytes 32 round.salt.val.toNat ++ round.paid
  pushBytes roundMarker ++ [opDrop] ++ pushBytes signer.vch ++ [opDrop] ++ pushBytes data ++
    [opDrop] ++ [op1]

def parseRoundScript (params : Params) (script : CScript) : Option (CPubKey × PosRound) :=
  parse (do
    expectData roundMarker
    expectOp opDrop
    let signer ← token fun _ data => if data.length = 33 then acceptKey data else none
    expectOp opDrop
    let round ← token fun _ rd => acceptRound params rd
    expectOp opDrop
    expectOp op1
    pure (signer, round)) script

/-- `RoundOut`: a round output. -/
structure RoundOut where
  /-- The pool. -/
  signer : CPubKey
  asset : CAsset
  value : ℤ
  round : PosRound
  deriving DecidableEq

def roundFromTxOut (params : Params) (out : CTxOut) : Option RoundOut :=
  match out.explicit? with
  | none => none
  | some (asset, value) =>
    if value ≤ 0 then none
    else (parseRoundScript params out.scriptPubKey).map fun (signer, round) =>
      ⟨signer, asset, value, round⟩

end Sequentia
