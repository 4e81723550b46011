import Sequentia.Pots.ClaimInputs
import Sequentia.Pots.ClaimOutputs

/-!
# What the rounds of an accepted claim pay and keep

Settling goes through the rounds of a claim and posts what each leaves to its asset and
what each pays to its delegators. The postings are collected here in lists, so that what
the validator compares can be read off as sums over the rounds.
-/

namespace Sequentia

open Std KeyedMap Checks ExtTreeMap

section Amounts

variable (params : Params) (crypto : Crypto) (registry : StakeRegistry) (signer : CPubKey)

/-- What a claim pays out of a round, to whom. -/
def Work.dues (w : Work) : List (CPubKey × ℤ) :=
  if w.repotOnly then []
  else
    match w.paidBucket with
    | .ok bucket => posRoundBucketOwed params crypto registry signer w.round bucket
    | .error _ => []

/-- What a claim pays out of a round. -/
def Work.paid (w : Work) : ℤ := ((w.dues params crypto registry signer).map Prod.snd).sum

/-- What the round held minus what was paid out of it minus its fee allowance. -/
def Work.remainder (w : Work) : ℤ := w.keep (w.paid params crypto registry signer)

/-- What closing rounds leave, by asset. -/
def leftovers (works : List Work) : List (CAsset × ℤ) :=
  (works.filter fun w => w.repotOnly || w.bucket.isNone).map fun w =>
    (w.asset, w.remainder params crypto registry signer)

/-- What the rounds pay, by delegator and asset. -/
def payouts (works : List Work) : List ((CPubKey × CAsset) × ℤ) :=
  works.flatMap fun w => (w.dues params crypto registry signer).map fun e => ((e.1, w.asset), e.2)

end Amounts

variable {params : Params} {crypto : Crypto} {registry : StakeRegistry} {signer : CPubKey}

theorem Work.dues_eq {w : Work} {b : ℕ} (hrepot : w.repotOnly = false)
    (hbucket : w.paidBucket = .ok b) :
    w.dues params crypto registry signer =
      posRoundBucketOwed params crypto registry signer w.round b := by
  simp [Work.dues, hrepot, hbucket]

/-- The conditions under which a round of a claim is settled. -/
structure Settled (params : Params) (crypto : Crypto) (registry : StakeRegistry)
    (signer : CPubKey) (w : Work) : Prop where
  bucket : w.repotOnly = false → ∃ b, w.paidBucket = .ok b
  paid_le : w.repotOnly = false → w.paid params crypto registry signer ≤ w.inValue
  /-- The output that continues the round holds its remainder. -/
  kept : w.repotOnly = false → w.bucket ≠ none →
    w.remainder params crypto registry signer ≤ w.outValue

/-- Settling one round posts what it leaves and what it pays. -/
theorem settle_ok {st st' : Settlement} {w : Work}
    (hok : settle params crypto registry signer st w = .ok st') :
    Settled params crypto registry signer w ∧
    st'.needPot = (leftovers params crypto registry signer [w]).foldl
      (fun m p => tally m p.1 p.2) st.needPot ∧
    st'.owed = (payouts params crypto registry signer [w]).foldl
      (fun m p => tally m p.1 p.2) st.owed := by
  unfold settle at hok
  split at hok
  · next hrepot =>
    cases hok
    refine ⟨⟨by simp [hrepot], by simp [hrepot], by simp [hrepot]⟩, ?_, ?_⟩
    · simp [leftovers, hrepot, Work.remainder, Work.paid, Work.dues, Work.keep]
    · simp [payouts, Work.dues, hrepot]
  · next hrepot =>
    replace hrepot : w.repotOnly = false := by simpa using hrepot
    obtain ⟨b, hbucket, hok⟩ := bind_eq_ok.mp hok
    have hdues : w.dues params crypto registry signer = _ := Work.dues_eq hrepot hbucket
    simp only [← hdues] at hok
    obtain ⟨henough, hok⟩ := ite_error_eq_ok.mp hok
    have howed : ∀ owed : ExtTreeMap (CPubKey × CAsset) ℤ,
        (w.dues params crypto registry signer).foldl
          (fun owed e => tally owed (e.1, w.asset) e.2) owed =
        (payouts params crypto registry signer [w]).foldl (fun m p => tally m p.1 p.2) owed := by
      intro owed
      simp [payouts, List.foldl_map]
    rw [howed] at hok
    split at hok
    · next hnone =>
      cases hok
      replace hnone : w.bucket = none := by simpa using hnone
      refine ⟨⟨fun _ => ⟨b, hbucket⟩, fun _ => Int.not_lt.mp henough, by simp [hnone]⟩, ?_, rfl⟩
      simp [leftovers, hnone, Work.remainder, Work.paid]
    · next hsome =>
      obtain ⟨hkept, hok⟩ := ite_error_eq_ok.mp hok
      cases hok
      refine ⟨⟨fun _ => ⟨b, hbucket⟩, fun _ => Int.not_lt.mp henough, fun _ _ => Int.not_lt.mp hkept⟩,
        ?_, rfl⟩
      simp [leftovers, hrepot, hsome]

/-- Settling all rounds posts what they leave and what they pay. -/
theorem settleAll_ok {works : List Work} {settlement : Settlement}
    (hok : settleAll params crypto registry signer works = .ok settlement) :
    (∀ w ∈ works, Settled params crypto registry signer w) ∧
    settlement.needPot = (leftovers params crypto registry signer works).foldl
      (fun m p => tally m p.1 p.2) ∅ ∧
    settlement.owed = (payouts params crypto registry signer works).foldl
      (fun m p => tally m p.1 p.2) ∅ := by
  constructor
  · refine foldlM_forall ?_ hok
    exact fun _ _ _ hstep => (settle_ok hstep).1
  refine foldlM_induction (fun done (st : Settlement) =>
    st.needPot = (leftovers params crypto registry signer done).foldl
      (fun m p => tally m p.1 p.2) ∅ ∧
    st.owed = (payouts params crypto registry signer done).foldl
      (fun m p => tally m p.1 p.2) ∅) ?_ ⟨rfl, rfl⟩ hok
  rintro done st w st' ⟨hneed, howed⟩ hstep
  obtain ⟨-, hneed', howed'⟩ := settle_ok hstep
  constructor
  · rw [hneed', hneed, ← List.foldl_append]
    simp [leftovers]
  · rw [howed', howed, ← List.foldl_append]
    simp [payouts]

theorem checkRepot_ok {potOut needPot : ExtTreeMap CAsset ℤ}
    (hok : checkRepot potOut needPot = .ok ()) {asset : CAsset} (hneed : asset ∈ needPot) :
    needPot.getD asset 0 ≤ potOut.getD asset 0 := by
  have hall := forM_eq_ok.mp hok (asset, needPot.getD asset 0) (by
    rw [mem_toList_iff_getElem?_eq_some]
    obtain ⟨need, hsome⟩ := Option.isSome_iff_exists.mp (mem_iff_isSome_getElem?.mp hneed)
    rw [getD_eq_getD_getElem?, hsome]
    rfl)
  exact Int.not_lt.mp (ite_error_eq_ok.mp hall).1

end Sequentia
