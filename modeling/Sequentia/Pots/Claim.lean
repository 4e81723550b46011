import Sequentia.Pots.ClaimV2

/-!
# Payments of a claim, and claims of the first generation

After the rounds are settled, a claim pays every delegator exactly what it is owed, at the
witness key hash of its controller key, and withholds at most a ninety-ninth of what it
delivers. Claims of the first generation share these last checks: they pay all
participants of each pot at once.
-/

namespace Sequentia

open Std KeyedMap

/-- Where the outputs of a claim go. -/
structure Payments where
  fee : ExtTreeMap CAsset ℤ
  keeper : ExtTreeMap CAsset ℤ
  delivered : ExtTreeMap CAsset ℤ
  /-- What each delegator receives. -/
  paidTo : ExtTreeMap (CPubKey × CAsset) ℤ

def Payments.empty : Payments := ⟨∅, ∅, ∅, ∅⟩

/-- An output of the claim that pays `payee`, or nobody it owes. -/
def Payments.pay (st : Payments) (asset : CAsset) (value : ℤ) : Option CPubKey → Payments
  | some controller => { st with
      paidTo := tally st.paidTo (controller, asset) value
      delivered := tally st.delivered asset value }
  | none => { st with keeper := tally st.keeper asset value }

/-- The withhold cap, for each of the given assets. -/
def checkWithheld (external : ExtTreeMap CAsset ℤ) (st : Payments) (assets : List CAsset) :
    Except String Unit :=
  forM assets fun asset =>
    let withheld := max 0 (st.fee.getD asset 0 + st.keeper.getD asset 0 - external.getD asset 0)
    let got := st.delivered.getD asset 0
    if got < withheld * posSplitWithholdRatio then
      .error ("claim withholds " ++ toString withheld ++ " against " ++ toString got ++
        " delivered; the cap is 1/" ++ toString posSplitWithholdRatio)
    else .ok ()

def checkPaidAssets (owed : ExtTreeMap (CPubKey × CAsset) ℤ) (st : Payments) :
    Except String Unit :=
  forM st.paidTo.toList fun e =>
    if !owed.contains e.1 then .error "claim pays a delegator in an asset it is not owed"
    else .ok ()

section V2

variable (params : Params) (crypto : Crypto) (registry : StakeRegistry)

/-- The delegator paid by a script; of two with one script, the later key. -/
def payeeOf (owed : ExtTreeMap (CPubKey × CAsset) ℤ) (script : CScript) : Option CPubKey :=
  ((owed.keys.map Prod.fst).filter fun c =>
    witnessV0KeyHashScript (c.getID crypto) = script).getLast?

/-- One of the outputs that are neither rounds nor pots. -/
def payOutput (owed : ExtTreeMap (CPubKey × CAsset) ℤ) (st : Payments) (out : CTxOut) :
    Payments :=
  match out.explicit? with
  | none => st
  | some (asset, value) =>
    if out.isFee then { st with fee := tally st.fee asset value }
    else st.pay asset value (payeeOf crypto owed out.scriptPubKey)

/-- Every delegator receives what it is owed. -/
def checkOwed (owed : ExtTreeMap (CPubKey × CAsset) ℤ) (st : Payments) : Except String Unit :=
  forM owed.toList fun e =>
    let got := st.paidTo.getD e.1 0
    if got ≠ e.2 then
      .error ("claim pays a delegator " ++ toString got ++ " of the " ++ toString e.2 ++
        " it is owed")
    else .ok ()

/-- The rounds of a claim once its outputs are read, with the pool and the coins the
claimer brought; `none` when nothing of a pool is spent. -/
def claimRounds (tx : CTransaction) (spentCoins : List Coin) :
    Except String (Option (CPubKey × ExtTreeMap CAsset ℤ × ClaimOutputs)) := do
  let inputs ← scanInputs params tx spentCoins
  match inputs.signer with
  | none => pure none
  | some signer =>
    let fresh ← openRounds params crypto registry signer inputs.fresh
    let outputs ← scanOutputs params signer inputs.spentRounds fresh tx
    pure (some (signer, inputs.external, outputs))

def ClaimOutputs.assets (outputs : ClaimOutputs) : List CAsset :=
  (outputs.all.foldl (fun assets w => assets.insert w.asset ())
    (∅ : ExtTreeMap CAsset Unit)).keys

def checkPosPotClaimV2 (tx : CTransaction) (spentCoins : List Coin) : Except String Unit := do
  match ← claimRounds params crypto registry tx spentCoins with
  | none => pure ()
  | some (signer, external, outputs) =>
    let settlement ← settleAll params crypto registry signer outputs.all
    checkRepot outputs.potOut settlement.needPot
    let payments := outputs.rest.foldl (payOutput crypto settlement.owed) Payments.empty
    checkOwed settlement.owed payments
    checkPaidAssets settlement.owed payments
    checkWithheld external payments outputs.assets

end V2

section V1

variable (params : Params) (crypto : Crypto) (registry : StakeRegistry)

def posSplitMaxParticipants : ℕ := 100

def ranksBefore (a b : CPubKey × ℕ) : Bool :=
  if a.2 = b.2 then (compare a.1 b.1).isLE else decide (b.2 < a.2)

/-- The participants a pot is shared among: from the hardening height on, the largest. -/
def capParticipants (height : ℕ) (participants : ExtTreeMap CPubKey ℕ) : ExtTreeMap CPubKey ℕ :=
  if params.posHardeningActiveAt height && decide (posSplitMaxParticipants < participants.size)
  then
    ((participants.toList.insertionSort fun a b => ranksBefore a b = true).take
      posSplitMaxParticipants).foldl (fun m e => m.insert e.1 e.2) ∅
  else participants

/-- A pot input of the first generation. -/
structure PotInput where
  asset : CAsset
  value : ℤ
  height : ℕ

structure PosPotShares where
  owed : ExtTreeMap (CPubKey × CAsset) ℤ
  swept : ExtTreeMap CAsset ℤ

def PosPotShares.addPot (signer : CPubKey) (shares : PosPotShares) (pot : PotInput) :
    PosPotShares :=
  let participants :=
    capParticipants params pot.height (registry.participantsBefore signer pot.height)
  let total := participants.toList.foldl (fun total e => toUint64 (total + e.2)) 0
  { swept := tally shares.swept pot.asset pot.value
    owed :=
      if total = 0 then shares.owed
      else participants.toList.foldl (fun owed e =>
        let cut := toInt64 ((distributablePart pot.value).toNat * e.2 / total)
        if 0 < cut then tally owed (e.1, pot.asset) cut else owed) shares.owed }

def posComputePotShares (signer : CPubKey) (potInputs : List PotInput) : PosPotShares :=
  potInputs.foldl (PosPotShares.addPot params registry signer) ⟨∅, ∅⟩

/-- The inputs of a first-generation claim. -/
structure SweepInputs where
  /-- The pool. -/
  signer : Option CPubKey
  pots : List PotInput
  /-- What the claimer brought. -/
  external : ExtTreeMap CAsset ℤ

/-- One input of a first-generation claim. -/
def sweepInput (st : SweepInputs) (coin : Coin) : Except String SweepInputs :=
  if coin.isSpent then .ok st
  else
    match potFromTxOut coin.out with
    | some pot =>
      if st.signer.any (· ≠ pot.signer) then .error "claim sweeps pots of two different pools"
      else .ok { st with
        signer := some pot.signer
        pots := st.pots ++ [⟨pot.asset, pot.value, coin.nHeight⟩] }
    | none =>
      match coin.out.explicit? with
      | some (asset, value) => .ok { st with external := tally st.external asset value }
      | none => .ok st

/-- A claim spends nothing blinded beside its pots. -/
def checkExplicitInput (coin : Coin) : Except String Unit :=
  if !coin.isSpent && (potFromTxOut coin.out).isNone && (coin.out.explicit?).isNone then
    .error "claim spends a blinded input"
  else .ok ()

/-- The outputs of a first-generation claim. -/
structure SweepOutputs where
  payments : Payments
  /-- The pot outputs of an asset. -/
  repotCount : ExtTreeMap CAsset ℕ

/-- One output of a first-generation claim. -/
def sweepOutput (signer : CPubKey) (owed : ExtTreeMap (CPubKey × CAsset) ℤ) (st : SweepOutputs)
    (out : CTxOut) : Except String SweepOutputs :=
  match out.explicit? with
  | none => .error "claim creates a blinded output"
  | some (asset, value) =>
    if out.isFee then
      .ok { st with payments := { st.payments with fee := tally st.payments.fee asset value } }
    else
      match parsePotScript out.scriptPubKey with
      | some pot =>
        if pot ≠ signer then .error "claim re-pots value under a different pool"
        else if 0 < st.repotCount.getD asset 0 then
          .error "claim creates two pot outputs in one asset"
        else .ok { st with repotCount := addAt st.repotCount asset 1 }
      | none =>
        let payee := (owed.keys.map Prod.fst).find? fun c =>
          witnessV0KeyHashScript (c.getID crypto) = out.scriptPubKey
        .ok { st with payments := st.payments.pay asset value payee }

/-- Every delegator receives its share, unless the share is too small to pay. -/
def checkShares (owed : ExtTreeMap (CPubKey × CAsset) ℤ) (st : Payments) : Except String Unit :=
  forM owed.toList fun e =>
    let got := st.paidTo.getD e.1 0
    if posSplitMinPayout ≤ e.2 then
      if got ≠ e.2 then
        .error ("claim pays a delegator " ++ toString got ++ " of the " ++ toString e.2 ++
          " it is owed")
      else .ok ()
    else if got ≠ 0 then .error "claim pays a delegator more than its share"
    else .ok ()

/-- The rules of the first generation. -/
def checkPosPotClaimV1 (tx : CTransaction) (spentCoins : List Coin) : Except String Unit := do
  let coins := (tx.vin.zip spentCoins).map Prod.snd
  let inputs ← coins.foldlM sweepInput ⟨none, [], ∅⟩
  match inputs.signer with
  | none => pure ()
  | some signer =>
    forM coins checkExplicitInput
    let shares := posComputePotShares params registry signer inputs.pots
    let outputs ← tx.vout.foldlM (sweepOutput crypto signer shares.owed) ⟨Payments.empty, ∅⟩
    checkShares shares.owed outputs.payments
    checkPaidAssets shares.owed outputs.payments
    checkWithheld inputs.external outputs.payments shares.swept.keys

end V1

/-- The coin makes a claim one of the second generation. -/
def isV2Claim (params : Params) (coin : Coin) : Bool :=
  !coin.isSpent && params.posSplitV2Coin coin.nHeight &&
    ((potFromTxOut coin.out).isSome || (roundFromTxOut params coin.out).isSome)

def checkPosPotClaim (params : Params) (crypto : Crypto) (registry : StakeRegistry)
    (tx : CTransaction) (spentCoins : List Coin) (spendHeight : ℕ) : Except String Unit :=
  if params.posSplitV2Coin spendHeight && spentCoins.any (isV2Claim params) then
    checkPosPotClaimV2 params crypto registry tx spentCoins
  else checkPosPotClaimV1 params crypto registry tx spentCoins

end Sequentia
