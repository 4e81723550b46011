import Sequentia.Lib.Shares
import Sequentia.Pots.ClaimFacts
import Sequentia.Stake.Sync

/-!
# Every round of a claim is covered

A claim must put back what each of its rounds keeps. A round that goes on is compared with
its own output. Rounds that close in one asset are added up first, and the sum is compared
with the pot output. A round that pays out so much that its fee allowance exceeds what it
has left counts negatively in that sum, at the expense of the others.
-/

namespace Sequentia

open Std KeyedMap Checks Shares List

def ClaimOutputs.closing (outputs : ClaimOutputs) (asset : CAsset) : List Work :=
  outputs.all.filter fun w => w.asset = asset ∧ w.bucket = none

/-- Every coin of a pool that a claim spends is held by one of its rounds. -/
structure Accounted (params : Params) (tx : CTransaction) (spentCoins : List Coin)
    (outputs : ClaimOutputs) : Prop where
  rounds : ∀ input ∈ tx.vin.zip spentCoins, ∀ r, spentRound params input = some r →
    ∃ w ∈ outputs.all, w.asset = r.asset ∧ w.round = r.round ∧ w.inValue = r.value
  /-- The spent pots of an epoch and asset make one of the claim's rounds, with the sum of
  their values. -/
  pots : ∀ epoch asset, potsOf params (tx.vin.zip spentCoins) (epoch, asset) ≠ [] →
    ∃ w ∈ outputs.all, w.asset = asset ∧ w.round.epoch = epoch ∧
      w.inValue = ((potsOf params (tx.vin.zip spentCoins) (epoch, asset)).map Prod.snd).sum

section Coverage

variable (params : Params) (crypto : Crypto) (registry : StakeRegistry) (signer : CPubKey)
  (tx : CTransaction) (outputs : ClaimOutputs)

/-- What is put back covers the remainder of each round by itself. -/
structure Covered : Prop where
  rounds : ∀ s w, outputs.lookup s = some w → w.bucket ≠ none →
    ∃ out ∈ tx.vout, ∃ r, roundFromTxOut params out = some r ∧ outputs.slotOf r = s ∧
      w.remainder params crypto registry signer ≤ r.value
  /-- The pot outputs of an asset have room for the remainders of all rounds that close in
  it, none of which lends to another. -/
  pots : ∀ w ∈ outputs.all, w.bucket = none →
    ((outputs.closing w.asset).map fun w =>
      max 0 (w.remainder params crypto registry signer)).sum ≤
      (tx.vout.map (repotValue w.asset)).sum

/-- No closing round pays out so much that the fee allowance exceeds what it has left. -/
def NoOverdraft : Prop :=
  ∀ w ∈ outputs.all, w.bucket = none → 0 ≤ w.remainder params crypto registry signer

/-- The claim puts into pots what the validator asks for and no more. -/
def RepotsExactly : Prop :=
  ∀ w ∈ outputs.all, w.bucket = none →
    (tx.vout.map (repotValue w.asset)).sum =
      ((outputs.closing w.asset).map fun w => w.remainder params crypto registry signer).sum

end Coverage

section Accepted

variable {params : Params} {crypto : Crypto} {registry : StakeRegistry} {signer : CPubKey}
  {tx : CTransaction} {spentCoins : List Coin} {external : ExtTreeMap CAsset ℤ}
  {outputs : ClaimOutputs}

variable (hfacts : ClaimFacts params crypto registry tx spentCoins signer outputs)

include hfacts

theorem ClaimFacts.accounted :
    Accounted params tx spentCoins outputs where
  rounds := by
    intro input hinput r hr
    obtain ⟨-, w, hw, hsame⟩ := hfacts.rounds input hinput r hr
    exact ⟨w, ClaimOutputs.mem_all.mpr ⟨_, hw⟩, hsame.asset, hsame.round, hsame.inValue⟩
  pots := by
    intro epoch asset hpots
    obtain ⟨w, hw⟩ := hfacts.pots _ hpots
    have hopened := hfacts.opened _ w hw
    exact ⟨w, ClaimOutputs.mem_all.mpr ⟨_, hw⟩, hopened.asset, hopened.epoch, hopened.inValue⟩

/-- A round with nobody to pay closes. -/
theorem ClaimFacts.bucket_of_repotOnly {w : Work}
    (hw : w ∈ outputs.all) (hrepot : w.repotOnly = true) : w.bucket = none := by
  by_contra hbucket
  obtain ⟨s, hs⟩ := ClaimOutputs.mem_all.mp hw
  have hfalse := (hfacts.continued s w hs hbucket).1
  rw [hrepot] at hfalse
  cases hfalse

theorem ClaimFacts.postedTo_leftovers (asset : CAsset) :
    postedTo (leftovers params crypto registry signer outputs.all) asset =
      ((outputs.closing asset).map fun w => w.remainder params crypto registry signer).sum := by
  have hcloses : ∀ w ∈ outputs.all, (w.repotOnly || w.bucket.isNone) = decide (w.bucket = none) := by
    intro w hw
    cases hrepot : w.repotOnly with
    | false => cases w.bucket <;> rfl
    | true =>
      rw [hfacts.bucket_of_repotOnly hw hrepot]
      rfl
  rw [leftovers, filter_congr hcloses, ClaimOutputs.closing, postedTo, map_map]
  clear hcloses
  induction outputs.all with
  | nil => rfl
  | cons w works ih =>
    by_cases hclosing : w.bucket = none
    · by_cases hasset : w.asset = asset
      · simpa [hclosing, hasset] using ih
      · simpa [hclosing, hasset] using ih
    · simpa [hclosing] using ih

omit hfacts

theorem closing_sum_le (hrounds : claimRounds params crypto registry tx spentCoins =
      .ok (some (signer, external, outputs)))
    (haccepted : checkPosPotClaimV2 params crypto registry tx spentCoins = .ok ())
    {w : Work} (hw : w ∈ outputs.all) (hcloses : w.bucket = none) :
    ((outputs.closing w.asset).map fun w => w.remainder params crypto registry signer).sum ≤
      (tx.vout.map (repotValue w.asset)).sum := by
  have hfacts := claimRounds_ok hrounds
  obtain ⟨settlement, hsettle, hrepot⟩ := checkPosPotClaimV2_ok hrounds haccepted
  obtain ⟨-, hneed, -⟩ := settleAll_ok hsettle
  have hmem : w.asset ∈ settlement.needPot := by
    rw [hneed, mem_foldl_tally]
    refine .inr (mem_map.mpr ⟨_, mem_map.mpr ⟨w, ?_, rfl⟩, rfl⟩)
    simp [hw, hcloses]
  have hle := checkRepot_ok hrepot hmem
  rw [hneed, getD_foldl_tally, hfacts.postedTo_leftovers, hfacts.potOut] at hle
  simpa using hle

/-- An accepted claim whose closing rounds are not overdrawn covers each of its rounds. For
a claim that puts back what it is asked for and no more, this is the only way. -/
theorem claim_covers_each_round (hrounds : claimRounds params crypto registry tx spentCoins =
      .ok (some (signer, external, outputs)))
    (haccepted : checkPosPotClaimV2 params crypto registry tx spentCoins = .ok ()) :
    Accounted params tx spentCoins outputs ∧
    (NoOverdraft params crypto registry signer outputs →
      Covered params crypto registry signer tx outputs) ∧
    (RepotsExactly params crypto registry signer tx outputs →
      (Covered params crypto registry signer tx outputs ↔
        NoOverdraft params crypto registry signer outputs)) := by
  have hfacts := claimRounds_ok hrounds
  have hcovered : NoOverdraft params crypto registry signer outputs →
      Covered params crypto registry signer tx outputs := by
    intro hsound
    refine ⟨fun s w hw hbucket => ?_, fun w hw hcloses => ?_⟩
    · obtain ⟨hrepot, out, hout, r, b, hr, hslot, hleaves⟩ := hfacts.continued s w hw hbucket
      obtain ⟨settlement, hsettle, -⟩ := checkPosPotClaimV2_ok hrounds haccepted
      have hsettled := (settleAll_ok hsettle).1 w (ClaimOutputs.mem_all.mpr ⟨s, hw⟩)
      refine ⟨out, hout, r, hr, hslot, ?_⟩
      rw [← hleaves.value]
      exact hsettled.kept hrepot hbucket
    · rw [map_congr_left fun w' hw' => max_eq_right ?_]
      · exact closing_sum_le hrounds haccepted hw hcloses
      · simp only [ClaimOutputs.closing, mem_filter, decide_eq_true_eq] at hw'
        exact hsound w' hw'.1 hw'.2.2
  refine ⟨hfacts.accounted, hcovered, fun hexact => ⟨fun hcover w hw hcloses => ?_, hcovered⟩⟩
  have hle := hcover.pots w hw hcloses
  rw [hexact w hw hcloses] at hle
  by_contra hneg
  refine hle.not_gt (sum_lt_sum _ _ (fun b _ => le_max_right 0 _) ⟨w, ?_, by omega⟩)
  simp [ClaimOutputs.closing, hw, hcloses]

end Accepted

/-- The hashes of the sample keys. Rounds of one bucket that close at once make no use of
the other hash function. -/
def poolCrypto : Crypto :=
  { sampleCrypto with
    hash160 := fun bytes =>
      if bytes = sampleController.vch then beBytes 20 0x751e76e8199196d454941c45d1b3a323f1433bd6
      else if bytes = sampleSigner.vch then beBytes 20 0x06afd46bcdfd22ef94ac122aa11f241244a37ecc
      else if bytes = sampleSigner'.vch then beBytes 20 0x7dd65592d0ab2fe0d0257d571abf032cd9db93dc
      else [] }

/-- Stakers with configured weights who delegated to the pool at height 20. -/
def poolOf (stakers : List (CPubKey × ℕ)) : StakeRegistry :=
  let others := stakers.filter fun e => e.1 ≠ sampleController
  { StakeRegistry.empty with
    config := stakers.foldl (fun m e => m.insert e.1 e.2) ∅
    deleg :=
      { delegUtxo := others.foldl (fun m e => m.insert e.1 sampleController) ∅
        delegHeight := others.foldl (fun m e => m.insert e.1 20) ∅ } }

/-- A pool whose only participant is itself. -/
def poolRegistry : StakeRegistry := poolOf [(sampleController, 1)]

def poolPot (value : ℤ) : CTxOut :=
  ⟨.explicit 1, .explicit value, buildPotScript sampleController⟩

def poolPayment (key : CPubKey) (value : ℤ) : CTxOut :=
  ⟨.explicit 1, .explicit value, witnessV0KeyHashScript (key.getID poolCrypto)⟩

def poolFee (value : ℤ) : CTxOut := ⟨.explicit 1, .explicit value, []⟩

/-- A pot of epoch one, and one of epoch zero, when nobody stood behind the pool. -/
def poolCoins (value : ℤ) : List Coin := [⟨poolPot value, 1500, false⟩, ⟨poolPot 5000, 500, false⟩]

/-- A claim on both pots that pays the pool, puts the rest back and takes a fee. -/
def poolClaim (payment rest fee : ℤ) : CTransaction where
  txid := 300
  vin := [{ prevout := ⟨10, 0⟩ }, { prevout := ⟨11, 0⟩ }]
  vout := [poolPayment sampleController payment, poolPot rest, poolFee fee]

/-- The first pot holds 100099, pays 99099 and is allowed a fee of 1001, one more than it
has left. Of the 5000 in the second pot, the claim puts back 4999. -/
theorem overdrawn_round_is_subsidised :
    checkPosPotClaimV2 sampleParams poolCrypto poolRegistry (poolClaim 99099 4999 1001)
      (poolCoins 100099) = .ok () ∧
    ∃ external outputs, claimRounds sampleParams poolCrypto poolRegistry
        (poolClaim 99099 4999 1001) (poolCoins 100099) =
          .ok (some (sampleController, external, outputs)) ∧
      (∃ w ∈ outputs.all,
        w.remainder sampleParams poolCrypto poolRegistry sampleController = -1) ∧
      ¬ Covered sampleParams poolCrypto poolRegistry sampleController
        (poolClaim 99099 4999 1001) outputs := by
  refine ⟨by decide +kernel, ?_⟩
  obtain ⟨rounds, hclaim, hany⟩ := Checks.exists_ok (claimRounds sampleParams poolCrypto
      poolRegistry (poolClaim 99099 4999 1001) (poolCoins 100099))
    (Option.any fun r : CPubKey × _ × ClaimOutputs => decide (r.1 = sampleController) &&
      (r.2.2.all.any fun w => decide (w.asset = 1 ∧ w.bucket = none ∧
        w.remainder sampleParams poolCrypto poolRegistry sampleController = -1)) &&
      decide (((r.2.2.closing 1).map fun w =>
        max 0 (w.remainder sampleParams poolCrypto poolRegistry sampleController)).sum = 5000))
    (by decide +kernel)
  obtain ⟨⟨signer, external, outputs⟩, rfl, hrun⟩ := (Option.any_eq_true ..).mp hany
  simp only [Bool.and_eq_true, decide_eq_true_eq, any_eq_true] at hrun
  obtain ⟨⟨rfl, w, hw, hasset, hcloses, hremainder⟩, hsum⟩ := hrun
  refine ⟨external, outputs, hclaim, ⟨w, hw, hremainder⟩, fun hcovered => ?_⟩
  have hle := hcovered.pots w hw hcloses
  rw [hasset, hsum] at hle
  exact absurd hle (by decide +kernel)

/-- With a pot of 100000 instead, nothing is overdrawn and both rounds are covered. -/
theorem claim_covers_each_round_even :
    ∃ external outputs, claimRounds sampleParams poolCrypto poolRegistry
        (poolClaim 99000 5000 1000) (poolCoins 100000) =
          .ok (some (sampleController, external, outputs)) ∧
      Accounted sampleParams (poolClaim 99000 5000 1000) (poolCoins 100000) outputs ∧
      Covered sampleParams poolCrypto poolRegistry sampleController
        (poolClaim 99000 5000 1000) outputs := by
  obtain ⟨rounds, hclaim, hany⟩ := Checks.exists_ok (claimRounds sampleParams poolCrypto
      poolRegistry (poolClaim 99000 5000 1000) (poolCoins 100000))
    (Option.any fun r : CPubKey × _ × ClaimOutputs => decide (r.1 = sampleController) &&
      r.2.2.all.all fun w =>
        decide (0 ≤ w.remainder sampleParams poolCrypto poolRegistry sampleController))
    (by decide +kernel)
  obtain ⟨⟨signer, external, outputs⟩, rfl, hrun⟩ := (Option.any_eq_true ..).mp hany
  simp only [Bool.and_eq_true, decide_eq_true_eq, all_eq_true] at hrun
  obtain ⟨rfl, hsound⟩ := hrun
  obtain ⟨haccounted, hcovered, -⟩ := claim_covers_each_round hclaim (by decide +kernel)
  exact ⟨external, outputs, hclaim, haccounted, hcovered fun w hw _ => hsound w hw⟩

end Sequentia
