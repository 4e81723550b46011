import Sequentia.Lib.Shares
import Sequentia.Pots.ClaimInputs

/-!
# What a participant can get out of a round

The terms of a round are fixed when it is opened, and its buckets are paid later, with the
weights of that time. While the weights of the delegators only shrink, nobody is owed more
than its entitlement: its share by the weight it had at the opening. Where those weights
add up without wrapping around, the entitlements stay within the distributable part.
-/

namespace Sequentia

open Std KeyedMap Shares ExtTreeMap

/-- The terms of a round: everything but the bitmap. -/
def PosRound.terms (round : PosRound) : PosRound := { round with paid := [] }

/-- The participants whose weight counts in the pots of an epoch. -/
def Params.members (params : Params) (registry : StakeRegistry) (signer : CPubKey) (epoch : ℕ) :
    ExtTreeMap CPubKey ℕ :=
  registry.participantsBefore signer (params.epochStart epoch)

/-- From one registry to the other, nobody but the pool itself gains weight in an epoch. -/
def Shrinks (params : Params) (signer : CPubKey) (epoch : ℕ) (before after : StakeRegistry) :
    Prop :=
  ∀ c, c ≠ signer →
    (params.members after signer epoch).getD c 0 ≤ (params.members before signer epoch).getD c 0

/-- The terms that a round gets from the registry, with weights that add up without
wrapping around. -/
structure TermsOf (params : Params) (registry : StakeRegistry) (signer : CPubKey)
    (round : PosRound) : Prop where
  weight : round.weight = ((params.members registry signer round.epoch).toList.map Prod.snd).sum
  signerWeight : round.signerWeight = (params.members registry signer round.epoch).getD signer 0
  nonneg : 0 ≤ round.distributable
  lt : round.distributable < 2 ^ 63

/-- The share of a participant by its weight at the opening. -/
def PosRound.entitlement (params : Params) (registry : StakeRegistry) (signer : CPubKey)
    (round : PosRound) (c : CPubKey) : ℤ :=
  round.cut ((params.members registry signer round.epoch).getD c 0)

section

variable {params : Params} {crypto : Crypto} {registry registry' : StakeRegistry}
  {signer : CPubKey} {round round' : PosRound} {epoch : ℕ}

theorem Shrinks.refl : Shrinks params signer epoch registry registry := fun _ _ => le_rfl

theorem Shrinks.trans {registry'' : StakeRegistry}
    (h : Shrinks params signer epoch registry registry')
    (h' : Shrinks params signer epoch registry' registry'') :
    Shrinks params signer epoch registry registry'' :=
  fun c hc => (h' c hc).trans (h c hc)

theorem mem_posRoundBucketOwed {b : ℕ} {e : CPubKey × ℤ}
    (he : e ∈ posRoundBucketOwed params crypto registry signer round b) :
    posRoundBucket crypto round.salt e.1 round.buckets = b ∧ posSplitMinPayout ≤ e.2 ∧
      e.2 = round.cut (round.weightOf signer e.1
        ((params.members registry signer round.epoch).getD e.1 0)) := by
  obtain ⟨⟨c, current⟩, hc, he⟩ := List.mem_filterMap.mp he
  rw [mem_toList_iff_getElem?_eq_some] at hc
  simp only at he
  split at he
  · cases he
  · next hbucket =>
    split at he
    · next hmin =>
      cases he
      dsimp only
      refine ⟨Decidable.not_not.mp hbucket, hmin, ?_⟩
      rw [Params.members, getD_eq_getD_getElem?, hc]
      rfl
    · cases he

theorem nodup_posRoundBucketOwed (b : ℕ) :
    ((posRoundBucketOwed params crypto registry signer round b).map Prod.fst).Nodup := by
  have hsublist : ((posRoundBucketOwed params crypto registry signer round b).map
      Prod.fst).Sublist ((params.members registry signer round.epoch).toList.map Prod.fst) := by
    rw [posRoundBucketOwed, List.map_filterMap]
    unfold Params.members
    induction (registry.participantsBefore signer (params.epochStart round.epoch)).toList with
    | nil => simp
    | cons e l ih =>
      simp only [List.filterMap_cons, List.map_cons]
      split
      · exact ih.cons _
      · next c hc =>
        have hc' : c = e.1 := by
          split at hc
          · simp at hc
          · split at hc
            · simpa using hc.symm
            · simp at hc
        rw [hc']
        exact ih.cons_cons _
  refine hsublist.nodup ?_
  rw [map_fst_toList_eq_keys]
  exact nodup_keys

end

namespace TermsOf

variable {params : Params} {crypto : Crypto} {registry registry' : StakeRegistry}
  {signer : CPubKey} {round : PosRound} (hterms : TermsOf params registry signer round)

include hterms

/-- A participant's weight is part of the sum. -/
theorem getD_le_weight (c : CPubKey) :
    (params.members registry signer round.epoch).getD c 0 ≤ round.weight :=
  hterms.weight ▸ getD_le_sum _ c

/-- The share of a weight within the sum is computed without overflow. -/
theorem cut_eq {weight : ℕ} (hle : weight ≤ round.weight) :
    round.cut weight =
      ((distributablePart round.distributable).toNat * weight / round.weight : ℕ) := by
  have hvalue : (distributablePart round.distributable).toNat * weight / round.weight ≤
      (distributablePart round.distributable).toNat :=
    Nat.div_le_of_le_mul (by
      rw [Nat.mul_comm]
      exact Nat.mul_le_mul_right _ hle)
  have hpart : (distributablePart round.distributable).toNat < 2 ^ 63 := by
    have h0 := hterms.nonneg
    have h1 := hterms.lt
    simp only [distributablePart, posSplitReserveDenom]
    omega
  exact toInt64_of_lt (hvalue.trans_lt hpart)

theorem cut_mono {weight weight' : ℕ} (hle : weight ≤ weight') (hle' : weight' ≤ round.weight) :
    round.cut weight ≤ round.cut weight' := by
  rw [hterms.cut_eq (hle.trans hle'), hterms.cut_eq hle']
  exact Int.ofNat_le.mpr (Nat.div_le_div_right (Nat.mul_le_mul_left _ hle))

theorem entitlement_nonneg (c : CPubKey) : 0 ≤ round.entitlement params registry signer c := by
  rw [PosRound.entitlement, hterms.cut_eq (hterms.getD_le_weight c)]
  exact Int.natCast_nonneg _

theorem sum_entitlement_le : (((params.members registry signer round.epoch).keys.map
      (round.entitlement params registry signer)).sum) ≤
      distributablePart round.distributable := by
  have hle := sum_keys_mul_div_le (params.members registry signer round.epoch)
    (distributablePart round.distributable).toNat
    (f := round.entitlement params registry signer) fun c => by
      rw [PosRound.entitlement, hterms.cut_eq (hterms.getD_le_weight c), hterms.weight]
  have hpart : 0 ≤ distributablePart round.distributable := by
    have h0 := hterms.nonneg
    simp only [distributablePart, posSplitReserveDenom]
    omega
  rwa [Int.toNat_of_nonneg hpart] at hle

theorem entitled (hshrinks : Shrinks params signer round.epoch registry registry') {b : ℕ}
    {e : CPubKey × ℤ} (he : e ∈ posRoundBucketOwed params crypto registry' signer round b) :
    e.1 ∈ (params.members registry signer round.epoch).keys ∧
      e.2 ≤ round.entitlement params registry signer e.1 := by
  obtain ⟨-, hmin, hcut⟩ := mem_posRoundBucketOwed he
  -- The pool's own weight is capped at the recorded one, the others' have shrunk.
  have hweight : round.weightOf signer e.1
      ((params.members registry' signer round.epoch).getD e.1 0) ≤
      (params.members registry signer round.epoch).getD e.1 0 := by
    unfold PosRound.weightOf
    split
    · next hsigner =>
      rw [hsigner, ← hterms.signerWeight]
      exact min_le_right _ _
    · next hsigner => exact hshrinks e.1 hsigner
  have hle := hterms.cut_mono hweight (hterms.getD_le_weight e.1)
  rw [← hcut] at hle
  refine ⟨?_, hle⟩
  rw [mem_keys]
  by_contra hnot
  have hzero : round.entitlement params registry signer e.1 = 0 := by
    rw [PosRound.entitlement, getD_eq_fallback hnot, hterms.cut_eq (Nat.zero_le _)]
    simp
  rw [PosRound.entitlement] at hzero
  simp only [posSplitMinPayout] at hmin
  omega

end TermsOf

end Sequentia
