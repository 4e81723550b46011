import Sequentia.Pots.ClaimFacts
import Sequentia.Pots.Entitlement

/-!
# The life of a round

A claim opens a round from the pots of an epoch and pays one of its buckets. Later claims
spend the round's output, pay one more bucket each and leave the next output, until the
last one closes the round. This file follows the payments along such a history.
-/

namespace Sequentia

open Std KeyedMap Shares

structure AcceptedClaim (params : Params) (crypto : Crypto) where
  /-- The registry the claim was checked against. -/
  registry : StakeRegistry
  tx : CTransaction
  spentCoins : List Coin
  /-- The pool. -/
  signer : CPubKey
  external : ExtTreeMap CAsset ℤ
  outputs : ClaimOutputs
  /-- The validator found these rounds. -/
  rounds : claimRounds params crypto registry tx spentCoins =
    .ok (some (signer, external, outputs))
  accepted : checkPosPotClaimV2 params crypto registry tx spentCoins = .ok ()

namespace AcceptedClaim

variable {params : Params} {crypto : Crypto} (claim : AcceptedClaim params crypto)

/-- What the claim pays out of one of its rounds. -/
def payments (s : WorkSlot) : List (CPubKey × ℤ) :=
  match claim.outputs.lookup s with
  | none => []
  | some w => w.dues params crypto claim.registry claim.signer

def Spends (r : RoundOut) : Prop :=
  ∃ input ∈ claim.tx.vin.zip claim.spentCoins, spentRound params input = some r

/-- What the claim leaves of one of its rounds: the output that continues it, or nothing
when the round closes. -/
def Leaves (s : WorkSlot) : Option RoundOut → Prop
  | none => ∃ w, claim.outputs.lookup s = some w ∧ w.bucket = none
  | some r => ∃ out ∈ claim.tx.vout, roundFromTxOut params out = some r ∧ claim.outputs.slotOf r = s

theorem facts : ClaimFacts params crypto claim.registry claim.tx claim.spentCoins claim.signer
    claim.outputs :=
  claimRounds_ok claim.rounds

variable {claim}

theorem settled {s : WorkSlot} {w : Work} (hw : claim.outputs.lookup s = some w) :
    Settled params crypto claim.registry claim.signer w := by
  obtain ⟨settlement, hsettle, -⟩ := checkPosPotClaimV2_ok claim.rounds claim.accepted
  exact (settleAll_ok hsettle).1 w (ClaimOutputs.mem_all.mpr ⟨s, hw⟩)

end AcceptedClaim

/-- The history of the round that a claim opens from the pots of an epoch and asset: the
registry of the last claim, what it left of the round, and all payments out of it. Between
claims, the delegators' weights in the epoch only shrink. -/
inductive RoundHistory {params : Params} {crypto : Crypto} (opening : AcceptedClaim params crypto)
    (key : ℕ × CAsset) : StakeRegistry → Option RoundOut → List (CPubKey × ℤ) → Prop
  | opened {left : Option RoundOut} (hleft : opening.Leaves (.inr key) left) :
      RoundHistory opening key opening.registry left (opening.payments (.inr key))
  | resumed {registry : StakeRegistry} {r : RoundOut} {payments : List (CPubKey × ℤ)}
      {left : Option RoundOut} (claim : AcceptedClaim params crypto)
      (hhistory : RoundHistory opening key registry (some r) payments)
      (hshrinks : Shrinks params opening.signer key.1 registry claim.registry)
      (hspends : claim.Spends r) (hleft : claim.Leaves (.inl r.key) left) :
      RoundHistory opening key claim.registry left (payments ++ claim.payments (.inl r.key))

theorem posRoundBucket_lt (crypto : Crypto) (salt : Uint256) (c : CPubKey) {buckets : ℕ}
    (hpos : 0 < buckets) : posRoundBucket crypto salt c buckets < buckets := by
  have hle : posRoundBucket crypto salt c buckets ≤ buckets - 1 := Nat.and_le_right
  omega

theorem Work.paidBucket_unpaid {w : Work} {b : ℕ} (hok : w.paidBucket = .ok b)
    (hcontinued : w.bucket ≠ none → ∃ r b', Continued w r b') :
    b < w.round.buckets ∧ w.round.isPaid b = false := by
  unfold Work.paidBucket at hok
  split at hok
  · next b' hb' =>
    cases hok
    obtain ⟨r, b'', hr⟩ := hcontinued (by simp [hb'])
    obtain rfl : b = b'' := Option.some.inj (hb'.symm.trans hr.bucket)
    exact ⟨hr.lt, hr.unpaid⟩
  · unfold Work.lastBucket at hok
    obtain ⟨hone, hok⟩ := Checks.ite_error_eq_ok.mp hok
    rw [Decidable.not_not, PosRound.unpaid, List.countP_eq_length_filter] at hone
    obtain ⟨b', hb'⟩ := List.length_eq_one_iff.mp hone
    rw [hb'] at hok
    cases hok
    have hmem : b' ∈ (List.range w.round.buckets).filter fun b => !w.round.isPaid b := by
      rw [hb']
      exact List.mem_singleton_self b'
    simpa using hmem

theorem Leaves.terms {signer : CPubKey} {w : Work} {r : RoundOut} {b : ℕ}
    (hleaves : Leaves signer w r b) : r.round.terms = w.round.terms := by
  simp only [PosRound.terms, hleaves.epoch, hleaves.weight, hleaves.signerWeight,
    hleaves.distributable, hleaves.buckets, hleaves.salt]

theorem value_pos_of_roundFromTxOut {params : Params} {out : CTxOut} {r : RoundOut}
    (hr : roundFromTxOut params out = some r) : 0 < r.value := by
  revert hr
  fun_cases roundFromTxOut params out <;> intro hr <;> try cases hr
  obtain ⟨-, -, rfl⟩ := Option.map_eq_some_iff.mp hr
  dsimp only
  omega

end Sequentia
