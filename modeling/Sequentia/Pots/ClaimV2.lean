import Sequentia.Lib.Tally
import Sequentia.Pots.Rounds
import Mathlib.Data.List.Sort

/-!
# Claims on second-generation pots and rounds

`CheckPosPotClaimV2` goes through a claim in phases. The inputs are sorted into rounds,
pots grouped by epoch and asset, and coins the claimer brought. Each group of pots opens a
round. The outputs are matched with the rounds they continue, every round pays one bucket,
and the pot outputs must take in what closing rounds leave. Last come the payments to the
delegators and the cap on what the claimer withholds. Amounts are signed 64-bit numbers in
the node, whose overflow is undefined; they are plain integers here.
-/

namespace Sequentia

open Std KeyedMap

/-- `Work`: a round of the claim. -/
structure Work where
  asset : CAsset
  round : PosRound
  inValue : ℤ
  /-- Nobody to pay: the value goes back into a pot. -/
  repotOnly : Bool := false
  pots : List COutPoint := []
  /-- The bucket a round output of the claim marks paid. -/
  bucket : Option ℕ := none
  outValue : ℤ := 0
  deriving DecidableEq

abbrev RoundKey := ℕ × CAsset × Uint256

instance transOrdRoundKey : Std.TransOrd RoundKey := inferInstance

structure ClaimInputs where
  /-- The pool. -/
  signer : Option CPubKey
  spentRounds : ExtTreeMap RoundKey Work
  /-- The pots spent, by epoch and asset. -/
  fresh : ExtTreeMap (ℕ × CAsset) Work
  /-- What the claimer brought. -/
  external : ExtTreeMap CAsset ℤ

def ClaimInputs.empty : ClaimInputs := ⟨none, ∅, ∅, ∅⟩

def posCoinUnconfirmed : ℕ := 0x7FFFFFFF

def ClaimInputs.onePool (st : ClaimInputs) (s : CPubKey) : Except String ClaimInputs :=
  if st.signer.any (· ≠ s) then .error "claim sweeps pots of two different pools"
  else .ok { st with signer := some s }

def Work.ofEpoch (epoch : ℕ) (asset : CAsset) : Work where
  asset := asset
  round := ⟨epoch, 0, 0, 0, 0, 0, []⟩
  inValue := 0

section Inputs

variable (params : Params)

def roundFromCoin (coin : Coin) : Option RoundOut :=
  if params.posSplitV2Coin coin.nHeight then roundFromTxOut params coin.out else none

def ClaimInputs.addRound (st : ClaimInputs) (r : RoundOut) : Except String ClaimInputs := do
  let st ← st.onePool r.signer
  let key := (r.round.epoch, r.asset, r.round.salt)
  if st.spentRounds.contains key then .error "claim spends two rounds with one identity"
  else
    let w : Work := { asset := r.asset, round := r.round, inValue := r.value }
    .ok { st with spentRounds := st.spentRounds.insert key w }

def ClaimInputs.addPot (st : ClaimInputs) (coin : Coin) (prevout : COutPoint) (pot : PotOut) :
    Except String ClaimInputs := do
  if !params.posSplitV2Coin coin.nHeight then
    .error "claim mixes first- and second-generation pots"
  else if posCoinUnconfirmed ≤ coin.nHeight then .error "claim sweeps an unconfirmed pot"
  else
    let st ← st.onePool pot.signer
    let epoch := coin.nHeight / params.posSplitEpoch
    let w := st.fresh.getD (epoch, pot.asset) (Work.ofEpoch epoch pot.asset)
    let w := { w with inValue := w.inValue + pot.value, pots := w.pots ++ [prevout] }
    .ok { st with fresh := st.fresh.insert (epoch, pot.asset) w }

def scanInput (st : ClaimInputs) (input : CTxIn × Coin) : Except String ClaimInputs :=
  if input.2.isSpent then .ok st
  else
    match roundFromCoin params input.2 with
    | some r => st.addRound r
    | none =>
      match potFromTxOut input.2.out with
      | some pot => st.addPot params input.2 input.1.prevout pot
      | none =>
        match input.2.out.explicit? with
        | none => .error "claim spends a blinded input"
        | some (asset, value) => .ok { st with external := tally st.external asset value }

def scanInputs (tx : CTransaction) (spentCoins : List Coin) : Except String ClaimInputs :=
  (tx.vin.zip spentCoins).foldlM (scanInput params) ClaimInputs.empty

end Inputs

section Opening

variable (params : Params) (crypto : Crypto) (registry : StakeRegistry) (signer : CPubKey)

/-- The terms of a new round: who stood behind the pool when the epoch began. -/
def openRound (w : Work) : Except String Work :=
  let members := registry.participantsBefore signer (params.epochStart w.round.epoch)
  let total := members.toList.foldl (fun total e => toUint64 (total + e.2)) 0
  let pots := w.pots.insertionSort fun a b => (compare a b).isLE = true
  let salt := posRoundSalt crypto pots
  let buckets := posRoundBucketCount members.size
  if !params.moneyRange w.inValue then .error "claim sweeps more than MAX_MONEY in one asset"
  else if total = 0 then
    .ok { w with pots := pots, repotOnly := true, round := { w.round with salt := salt } }
  else .ok { w with
    pots := pots
    round :=
      { epoch := w.round.epoch
        weight := total
        signerWeight := members.getD signer 0
        distributable := w.inValue
        buckets := buckets
        salt := salt
        paid := List.replicate ((buckets + 7) / 8) 0 } }

/-- Every group of pots opens a round. -/
def openRounds (fresh : ExtTreeMap (ℕ × CAsset) Work) :
    Except String (ExtTreeMap (ℕ × CAsset) Work) :=
  fresh.toList.foldlM (fun opened e => do
    let w ← openRound params crypto registry signer e.2
    pure (opened.insert e.1 w)) ∅

end Opening

/-- The outputs of a claim, as far as they have been read. -/
structure ClaimOutputs where
  spentRounds : ExtTreeMap RoundKey Work
  fresh : ExtTreeMap (ℕ × CAsset) Work
  potOut : ExtTreeMap CAsset ℤ
  potCount : ExtTreeMap CAsset ℕ
  /-- The outputs that are neither rounds nor pots. -/
  rest : List CTxOut

/-- The rounds of a claim: those spent, then those opened. -/
def ClaimOutputs.all (st : ClaimOutputs) : List Work :=
  st.spentRounds.toList.map Prod.snd ++ st.fresh.toList.map Prod.snd

/-- One bucket of the comparison of bitmaps: `added` is the bucket found newly paid. -/
def compareBucket (before after : PosRound) (added : Option ℕ) (b : ℕ) :
    Except String (Option ℕ) :=
  if before.isPaid b && !after.isPaid b then .error "claim marks a paid bucket unpaid"
  else if !before.isPaid b && after.isPaid b then
    if added.isSome then .error "claim pays two buckets of one round" else .ok (some b)
  else .ok added

def Work.continueWith (w : Work) (r : RoundOut) : Except String Work := do
  if r.round.weight ≠ w.round.weight ∨ r.round.signerWeight ≠ w.round.signerWeight ∨
      r.round.distributable ≠ w.round.distributable ∨ r.round.buckets ≠ w.round.buckets then
    .error "claim changes a round's terms"
  else
    let added ← (List.range w.round.buckets).foldlM (compareBucket w.round r.round) none
    if added.isNone then .error "claim continues a round without paying a bucket of it"
    else if r.round.unpaid = 0 then
      .error "claim keeps a fully paid round; it must close into a pot"
    else .ok { w with bucket := added, outValue := r.value }

/-- The message for a round output that matches no round, or one that is taken. -/
def noSuchRound : String :=
  "claim creates a round output that continues no round of the claim, or one twice"

/-- The round that a round output names: a spent one first, else one opened here. -/
def ClaimOutputs.continueRound (st : ClaimOutputs) (r : RoundOut) :
    Except String ClaimOutputs :=
  match st.spentRounds[(r.round.epoch, r.asset, r.round.salt)]? with
  | some w => do
    if w.bucket.isSome then .error noSuchRound
    else
      let w ← w.continueWith r
      .ok { st with
        spentRounds := st.spentRounds.insert (r.round.epoch, r.asset, r.round.salt) w }
  | none =>
    match st.fresh[(r.round.epoch, r.asset)]? with
    | none => .error noSuchRound
    | some w => do
      if w.repotOnly || w.round.salt != r.round.salt || w.bucket.isSome then .error noSuchRound
      else
        let w ← w.continueWith r
        .ok { st with fresh := st.fresh.insert (r.round.epoch, r.asset) w }

section Outputs

variable (params : Params) (signer : CPubKey)

def scanOutput (st : ClaimOutputs) (out : CTxOut) : Except String ClaimOutputs :=
  if out.isFee then .ok { st with rest := st.rest ++ [out] }
  else
    match out.explicit? with
    | none => .error "claim creates a blinded output"
    | some (asset, value) =>
      match roundFromTxOut params out with
      | some r =>
        if r.signer ≠ signer then .error "claim creates a round for a different pool"
        else st.continueRound r
      | none =>
        match parsePotScript out.scriptPubKey with
        | some pot =>
          if pot ≠ signer then .error "claim re-pots value under a different pool"
          else if 0 < st.potCount.getD asset 0 then
            .error "claim creates two pot outputs in one asset"
          else .ok { st with
            potCount := addAt st.potCount asset 1
            potOut := tally st.potOut asset value }
        | none => .ok { st with rest := st.rest ++ [out] }

def scanOutputs (spentRounds : ExtTreeMap RoundKey Work) (fresh : ExtTreeMap (ℕ × CAsset) Work)
    (tx : CTransaction) : Except String ClaimOutputs :=
  tx.vout.foldlM (scanOutput params signer) ⟨spentRounds, fresh, ∅, ∅, []⟩

end Outputs

/-- What the rounds of a claim leave and pay. -/
structure Settlement where
  /-- What must go back into pots. -/
  needPot : ExtTreeMap CAsset ℤ
  owed : ExtTreeMap (CPubKey × CAsset) ℤ

/-- What a round that paid out `paid` must keep. -/
def Work.keep (w : Work) (paid : ℤ) : ℤ := w.inValue - paid - paid / posSplitWithholdRatio

/-- A round without a round output pays its last bucket. -/
def Work.lastBucket (w : Work) : Except String ℕ :=
  if w.round.unpaid ≠ 1 then
    .error "claim drops a round that still has more than one bucket to pay"
  else .ok (((List.range w.round.buckets).filter fun b => !w.round.isPaid b).getLastD 0)

section Settling

variable (params : Params) (crypto : Crypto) (registry : StakeRegistry) (signer : CPubKey)

/-- The bucket a round pays in a claim. -/
def Work.paidBucket (w : Work) : Except String ℕ :=
  match w.bucket with
  | some b => .ok b
  | none => w.lastBucket

/-- One round of a claim pays its bucket and keeps the rest. -/
def settle (st : Settlement) (w : Work) : Except String Settlement := do
  if w.repotOnly then .ok { st with needPot := tally st.needPot w.asset w.inValue }
  else
    let bucket ← w.paidBucket
    let dues := posRoundBucketOwed params crypto registry signer w.round bucket
    let owed := dues.foldl (fun owed e => tally owed (e.1, w.asset) e.2) st.owed
    let paid := (dues.map Prod.snd).sum
    if w.inValue < paid then .error "claim pays a bucket more than its round holds"
    else if w.bucket.isNone then
      .ok { needPot := tally st.needPot w.asset (w.keep paid), owed := owed }
    else if w.outValue < w.keep paid then
      .error ("claim leaves a round " ++ toString w.outValue ++ " of the " ++
        toString (w.keep paid) ++ " it must keep")
    else .ok { st with owed := owed }

/-- The rounds of a claim, one after another. -/
def settleAll (works : List Work) : Except String Settlement :=
  works.foldlM (settle params crypto registry signer) ⟨∅, ∅⟩

end Settling

/-- The pot outputs take in what closing rounds leave. -/
def checkRepot (potOut needPot : ExtTreeMap CAsset ℤ) : Except String Unit :=
  forM needPot.toList fun (asset, need) =>
    let got := potOut.getD asset 0
    if got < need then
      .error ("claim re-pots " ++ toString got ++ " of the " ++ toString need ++
        " a closing round leaves")
    else .ok ()

end Sequentia
