import Sequentia.Pots.Coverage
import Sequentia.Pots.RoundHistory

/-!
# Rounds stay solvent

Along the history of a round, nobody is paid twice and nobody more than its entitlement,
and each output of the round keeps what was put in minus the payments and their fee
allowances. The reserve of one part in a hundred that is never distributed pays for the
allowances, so every output still holds what the unpaid buckets are owed.
-/

namespace Sequentia

open Std KeyedMap Shares List

section Ledger

variable (params : Params) (crypto : Crypto) (registry₀ : StakeRegistry) (signer : CPubKey)
  (w₀ : Work)

/-- The payments out of the round `w₀` so far, when the registry is `registry`. -/
structure Ledger (registry : StakeRegistry) (payments : List (CPubKey × ℤ)) : Prop where
  shrinks : Shrinks params signer w₀.round.epoch registry₀ registry
  once : (payments.map Prod.fst).Nodup
  /-- Nobody was paid more than its entitlement. -/
  entitled : ∀ e ∈ payments,
    e.1 ∈ (params.members registry₀ signer w₀.round.epoch).keys ∧
      e.2 ≤ w₀.round.entitlement params registry₀ signer e.1

/-- What the round `w₀` has become after the payments. -/
structure Remains (payments : List (CPubKey × ℤ)) (round : PosRound) (value : ℤ) : Prop where
  terms : round.terms = w₀.round.terms
  marked : ∀ e ∈ payments,
    round.isPaid (posRoundBucket crypto w₀.round.salt e.1 w₀.round.buckets) = true
  kept : w₀.inValue - (payments.map Prod.snd).sum -
    (payments.map Prod.snd).sum / posSplitWithholdRatio ≤ value

end Ledger

variable {params : Params} {crypto : Crypto} {registry₀ registry registry' : StakeRegistry}
  {signer : CPubKey} {w₀ w : Work} {payments : List (CPubKey × ℤ)} {round : PosRound} {value : ℤ}
  {b : ℕ}

theorem PosRound.salt_of_terms (hterms : round.terms = w₀.round.terms) :
    round.salt = w₀.round.salt := by
  have hsalt := congrArg PosRound.salt hterms
  exact hsalt

theorem PosRound.buckets_of_terms (hterms : round.terms = w₀.round.terms) :
    round.buckets = w₀.round.buckets := by
  have hbuckets := congrArg PosRound.buckets hterms
  exact hbuckets

theorem Ledger.pay (hterms : TermsOf params registry₀ signer w₀.round)
    (hledger : Ledger params registry₀ signer w₀ registry payments)
    (hremains : Remains crypto w₀ payments round value)
    (hshrinks : Shrinks params signer w₀.round.epoch registry registry') {buckets : List ℕ}
    (hnodup : buckets.Nodup) (hunpaid : ∀ b ∈ buckets, round.isPaid b = false) :
    Ledger params registry₀ signer w₀ registry' (payments ++
      buckets.flatMap (posRoundBucketOwed params crypto registry' signer round)) := by
  have hshrinks' := hledger.shrinks.trans hshrinks
  have howed : ∀ b, posRoundBucketOwed params crypto registry' signer round b =
      posRoundBucketOwed params crypto registry' signer w₀.round b := by
    intro b
    have hterms := congrArg (posRoundBucketOwed params crypto registry' signer · b) hremains.terms
    exact hterms
  have hdue : ∀ e ∈ buckets.flatMap (posRoundBucketOwed params crypto registry' signer round),
      ∃ b ∈ buckets, e ∈ posRoundBucketOwed params crypto registry' signer w₀.round b := by
    intro e he
    obtain ⟨b, hb, he⟩ := mem_flatMap.mp he
    exact ⟨b, hb, howed b ▸ he⟩
  refine ⟨hshrinks', ?_, ?_⟩
  · rw [map_append, map_flatMap, nodup_append]
    refine ⟨hledger.once, ?_, ?_⟩
    · rw [nodup_flatMap]
      refine ⟨fun b _ => nodup_posRoundBucketOwed b, hnodup.imp ?_⟩
      intro b b' hne
      simp only [Function.onFun, disjoint_left, mem_map, not_exists, not_and]
      rintro c ⟨e, he, rfl⟩ e' he' heq
      apply hne
      rw [← (mem_posRoundBucketOwed he).1, ← (mem_posRoundBucketOwed he').1, heq]
    · rintro c hc c' hc' rfl
      obtain ⟨e, he, rfl⟩ := mem_map.mp hc
      obtain ⟨b, hb, hc'⟩ := mem_flatMap.mp hc'
      obtain ⟨e', he', heq⟩ := mem_map.mp hc'
      -- Whoever was paid is in a bucket marked paid.
      have hmarked := hremains.marked e he
      rw [← heq, ← PosRound.salt_of_terms hremains.terms,
        ← PosRound.buckets_of_terms hremains.terms, (mem_posRoundBucketOwed he').1,
        hunpaid b hb] at hmarked
      cases hmarked
  · intro e he
    rcases mem_append.mp he with he | he
    · exact hledger.entitled e he
    · obtain ⟨b, -, he⟩ := hdue e he
      exact hterms.entitled hshrinks' he

theorem Ledger.sum_le (hterms : TermsOf params registry₀ signer w₀.round)
    (hledger : Ledger params registry₀ signer w₀ registry payments) :
    (payments.map Prod.snd).sum ≤ distributablePart w₀.round.distributable :=
  (sum_payments_le hledger.once hledger.entitled fun c _ =>
    hterms.entitlement_nonneg c).trans hterms.sum_entitlement_le

theorem Remains.step (hremains : Remains crypto w₀ payments w.round w.inValue) {r : RoundOut}
    (hleaves : Leaves signer w r b)
    (hkept : w.keep (bucketTotal params crypto registry' signer w.round b) ≤ r.value) :
    Remains crypto w₀ (payments ++ posRoundBucketOwed params crypto registry' signer w.round b)
      r.round r.value := by
  refine ⟨hleaves.terms.trans hremains.terms, fun e he => ?_, ?_⟩
  · have hbuckets := PosRound.buckets_of_terms hremains.terms
    have hlt := posRoundBucket_lt crypto w₀.round.salt e.1
      (hbuckets ▸ Nat.zero_lt_of_lt hleaves.lt)
    rw [hleaves.paid _ (hbuckets ▸ hlt)]
    rcases mem_append.mp he with he | he
    · rw [hremains.marked e he, Bool.true_or]
    · have hbucket := (mem_posRoundBucketOwed he).1
      rw [PosRound.salt_of_terms hremains.terms, hbuckets] at hbucket
      simp [hbucket]
  · have hkept' := hremains.kept
    rw [map_append, sum_append]
    change _ - (_ + bucketTotal params crypto registry' signer w.round b) -
      (_ + bucketTotal params crypto registry' signer w.round b) / _ ≤ _
    simp only [Work.keep, posSplitWithholdRatio] at hkept hkept' ⊢
    omega

/-- Before anything is paid. -/
theorem Ledger.nil : Ledger params registry₀ signer w₀ registry₀ [] where
  shrinks := Shrinks.refl
  once := nodup_nil
  entitled := by simp

theorem Remains.nil : Remains crypto w₀ [] w₀.round w₀.inValue where
  terms := rfl
  marked := by simp
  kept := by simp

theorem AcceptedClaim.pay {claim : AcceptedClaim params crypto} {s : WorkSlot}
    {left : Option RoundOut} (hterms : TermsOf params registry₀ claim.signer w₀.round)
    (hledger : Ledger params registry₀ claim.signer w₀ registry payments)
    (hshrinks : Shrinks params claim.signer w₀.round.epoch registry claim.registry)
    (hw : claim.outputs.lookup s = some w) (hpays : w.repotOnly = false)
    (hremains : Remains crypto w₀ payments w.round w.inValue) (hleft : claim.Leaves s left) :
    Ledger params registry₀ claim.signer w₀ claim.registry (payments ++ claim.payments s) ∧
      ∀ r, left = some r → r.signer = claim.signer ∧ 0 < r.value ∧
        Remains crypto w₀ (payments ++ claim.payments s) r.round r.value := by
  have hsettled := claim.settled hw
  obtain ⟨b, hbucket⟩ := hsettled.bucket hpays
  have hdues : claim.payments s =
      posRoundBucketOwed params crypto claim.registry claim.signer w.round b := by
    rw [AcceptedClaim.payments, hw]
    exact Work.dues_eq hpays hbucket
  obtain ⟨hlt, hunpaid⟩ := Work.paidBucket_unpaid hbucket fun hsome => by
    obtain ⟨-, -, -, r, b', -, -, hleaves⟩ := claim.facts.continued s w hw hsome
    exact ⟨r, b', hleaves.toContinued⟩
  have hledger' := hledger.pay hterms hremains hshrinks (nodup_singleton b) (by simpa)
  rw [flatMap_singleton, ← hdues] at hledger'
  refine ⟨hledger', ?_⟩
  rintro r rfl
  obtain ⟨out, hout, hr, hslot⟩ := hleft
  obtain ⟨w', b', hw', hleaves⟩ := claim.facts.continues out hout r hr
  rw [hslot, hw] at hw'
  cases hw'
  obtain rfl : b' = b := by
    rw [Work.paidBucket, hleaves.bucket] at hbucket
    exact Except.ok.inj hbucket
  have hpaid : w.paid params crypto claim.registry claim.signer =
      bucketTotal params crypto claim.registry claim.signer w.round b' := by
    rw [Work.paid, Work.dues_eq hpays hbucket, bucketTotal]
  refine ⟨hleaves.signer, value_pos_of_roundFromTxOut hr, ?_⟩
  rw [hdues]
  refine hremains.step hleaves ?_
  rw [← hpaid, ← hleaves.value]
  exact hsettled.kept hpays (by simp [hleaves.bucket])

theorem Opened.termsOf {key : ℕ × CAsset} {pots : List (COutPoint × ℤ)}
    (hopened : Opened params crypto registry signer (Work.ofPots key pots) w)
    (hpays : w.repotOnly = false)
    (hexact : ((params.members registry signer key.1).toList.map Prod.snd).sum < 2 ^ 64) :
    TermsOf params registry signer w.round ∧ w.round.distributable = w.inValue := by
  obtain ⟨hweight, -, hsigner, hdistributable, -⟩ := hopened.terms hpays
  have hmoney := hopened.money
  simp only [Params.moneyRange, Bool.and_eq_true, decide_eq_true_eq] at hmoney
  refine ⟨⟨?_, ?_, ?_, ?_⟩, by rw [hdistributable, hopened.inValue]⟩
  · rw [hweight, foldl_toUint64_add, hopened.epoch]
    exact toUint64_of_lt hexact
  · rw [hsigner, hopened.epoch]
    rfl
  · rw [hdistributable]
    exact hmoney.1
  · rw [hdistributable]
    exact hmoney.2.trans_lt params.maxMoney_lt

theorem RoundHistory.ledger {opening : AcceptedClaim params crypto} {key : ℕ × CAsset}
    {left : Option RoundOut} (hw : opening.outputs.lookup (.inr key) = some w)
    (hpays : w.repotOnly = false) (hterms : TermsOf params opening.registry opening.signer w.round)
    (hhistory : RoundHistory opening key registry left payments) :
    Ledger params opening.registry opening.signer w registry payments ∧
      ∀ r, left = some r → r.signer = opening.signer ∧ 0 < r.value ∧
        Remains crypto w payments r.round r.value := by
  induction hhistory with
  | opened hleft =>
    exact AcceptedClaim.pay hterms Ledger.nil Shrinks.refl hw hpays Remains.nil hleft
  | resumed claim hhistory hshrinks hspends hleft ih =>
    obtain ⟨hledger, hround⟩ := ih
    obtain ⟨hsigner, -, hremains⟩ := hround _ rfl
    obtain ⟨input, hinput, hr⟩ := hspends
    obtain ⟨hpool, w', hw', hsame⟩ := claim.facts.rounds input hinput _ hr
    have hclaim : opening.signer = claim.signer := hsigner.symm.trans hpool
    have hepoch : w.round.epoch = key.1 := (opening.facts.opened key w hw).epoch
    rw [hclaim] at hterms hledger hshrinks ⊢
    refine AcceptedClaim.pay hterms hledger (hepoch ▸ hshrinks) hw' hsame.repotOnly ?_ hleft
    rw [hsame.round, hsame.inValue]
    exact hremains

def PosRound.unpaidBuckets (round : PosRound) : List ℕ :=
  (List.range round.buckets).filter fun b => !round.isPaid b

/-- Where the weights at the opening add up below 2^64, a round stays solvent: whatever is
left of it holds what all its unpaid buckets are owed, nobody is paid twice out of it, and
all payments stay within the distributable part of the value it was opened with. -/
theorem round_stays_solvent {opening : AcceptedClaim params crypto} {key : ℕ × CAsset}
    {left : Option RoundOut} (hw : opening.outputs.lookup (.inr key) = some w)
    (hpays : w.repotOnly = false)
    (hexact : ((params.members opening.registry opening.signer key.1).toList.map
      Prod.snd).sum < 2 ^ 64)
    (hhistory : RoundHistory opening key registry left payments) :
    (∀ r, left = some r → ∀ later, Shrinks params opening.signer key.1 registry later →
      (r.round.unpaidBuckets.map (bucketTotal params crypto later r.signer r.round)).sum ≤
          r.value ∧
        ∀ b ∈ r.round.unpaidBuckets, bucketTotal params crypto later r.signer r.round b ≤
          r.value) ∧
    (payments.map Prod.fst).Nodup ∧
    (payments.map Prod.snd).sum ≤ distributablePart w.inValue := by
  have hopened := opening.facts.opened key w hw
  obtain ⟨hterms, hdistributable⟩ := hopened.termsOf hpays hexact
  obtain ⟨hledger, hround⟩ := hhistory.ledger hw hpays hterms
  refine ⟨?_, hledger.once, hdistributable ▸ hledger.sum_le hterms⟩
  intro r hr later hshrinks
  obtain ⟨hsigner, hvalue, hremains⟩ := hround r hr
  -- Paying any of the unpaid buckets at once would keep the ledger in order.
  have hafford : ∀ buckets : List ℕ, buckets.Nodup →
      (∀ b ∈ buckets, r.round.isPaid b = false) →
      (buckets.map (bucketTotal params crypto later r.signer r.round)).sum ≤ r.value := by
    intro buckets hnodup hunpaid
    have hepoch : w.round.epoch = key.1 := hopened.epoch
    have hsum := (hledger.pay hterms hremains (hepoch ▸ hshrinks) hnodup hunpaid).sum_le hterms
    rw [map_append, sum_append, hdistributable] at hsum
    have htotal : (buckets.map (bucketTotal params crypto later r.signer r.round)).sum =
        ((buckets.flatMap (posRoundBucketOwed params crypto later opening.signer r.round)).map
          Prod.snd).sum := by
      rw [hsigner, flatMap_def, map_flatten, sum_flatten, map_map, map_map]
      rfl
    rw [htotal]
    -- the reserve pays for the fee allowances
    have hkept := hremains.kept
    simp only [distributablePart, posSplitReserveDenom, posSplitWithholdRatio] at hsum hkept
    omega
  have hunpaid : ∀ b ∈ r.round.unpaidBuckets, r.round.isPaid b = false := by
    intro b hb
    simpa using (mem_filter.mp hb).2
  refine ⟨hafford _ (nodup_range.filter _) hunpaid, fun b hb => ?_⟩
  simpa using hafford [b] (nodup_singleton b) (by simpa using hunpaid b hb)

theorem exists_acceptedClaim {registry : StakeRegistry} {tx : CTransaction}
    {spentCoins : List Coin} (check : CPubKey → ClaimOutputs → Bool)
    (haccepted : checkPosPotClaimV2 params crypto registry tx spentCoins = .ok ())
    (hrun : (match claimRounds params crypto registry tx spentCoins with
      | .ok (some (signer, _, outputs)) => check signer outputs
      | _ => false) = true) :
    ∃ claim : AcceptedClaim params crypto, claim.registry = registry ∧ claim.tx = tx ∧
      claim.spentCoins = spentCoins ∧ check claim.signer claim.outputs = true := by
  split at hrun
  · next signer external outputs hrounds =>
    exact ⟨⟨registry, tx, spentCoins, signer, external, outputs, hrounds, haccepted⟩, rfl, rfl,
      rfl, hrun⟩
  · cases hrun

/-- Three stakers and four smaller ones, whose weights add up to 2^64 + 1860 * 2^53. -/
def wrappedRegistry : StakeRegistry :=
  poolOf [(sampleController, 624 * 2 ^ 53), (sampleSigner, 624 * 2 ^ 53),
    (sampleSigner', 624 * 2 ^ 53),
    (⟨2 :: beBytes 32 0xe493dbf1c10d80f3581e4904930b1404cc6c13900ee0758474fa94abe8c4cd13⟩,
      509 * 2 ^ 53),
    (⟨2 :: beBytes 32 0x2f8bde4d1a07209355b4a7250a5c5128e88b84bddc619ab7cba8d569b240efe4⟩,
      509 * 2 ^ 53),
    (⟨3 :: beBytes 32 0xfff97bd5755eeea420453a14355235d382f6472f8568a18b2f057a1460297556⟩,
      509 * 2 ^ 53),
    (⟨2 :: beBytes 32 0x5cbdf0646e5db4eaa398f365f2ea7a0e3d419b7e0330e39ce92bddedcac4f9bc⟩,
      509 * 2 ^ 53)]

/-- A claim on a pot of 3131 that pays the three stakers 1040 each. -/
def wrappedClaim : CTransaction where
  txid := 300
  vin := [{ prevout := ⟨10, 0⟩ }]
  vout := [poolPayment sampleController 1040, poolPayment sampleSigner 1040,
    poolPayment sampleSigner' 1040, poolFee 11]

/-- The round records a weight of 1860 * 2^53, and pays out 3120 where only 3100 are
distributable. -/
theorem wrapped_weights_overpay : ∃ (opening : AcceptedClaim sampleParams poolCrypto) (w : Work)
      (payments : List (CPubKey × ℤ)),
      opening.registry = wrappedRegistry ∧ opening.tx = wrappedClaim ∧
      opening.outputs.lookup (.inr (1, 1)) = some w ∧ w.repotOnly = false ∧
      RoundHistory opening (1, 1) wrappedRegistry none payments ∧
      distributablePart w.inValue = 3100 ∧ (payments.map Prod.snd).sum = 3120 := by
  obtain ⟨opening, hregistry, htx, -, hcheck⟩ := exists_acceptedClaim
    (fun signer outputs => (outputs.lookup (.inr (1, 1))).any fun w : Work =>
      !w.repotOnly && decide (w.bucket = none) && decide (distributablePart w.inValue = 3100) &&
        decide (w.paid sampleParams poolCrypto wrappedRegistry signer = 3120))
    (show checkPosPotClaimV2 sampleParams poolCrypto wrappedRegistry wrappedClaim
      [⟨poolPot 3131, 1500, false⟩] = .ok () by decide +kernel) (by decide +kernel)
  obtain ⟨w, hw, hcheck⟩ := (Option.any_eq_true ..).mp hcheck
  simp only [Bool.and_eq_true, Bool.not_eq_true', decide_eq_true_eq] at hcheck
  obtain ⟨⟨⟨hpays, hcloses⟩, hpart⟩, hpaid⟩ := hcheck
  refine ⟨opening, w, opening.payments (.inr (1, 1)), hregistry, htx, hw, hpays, ?_, hpart, ?_⟩
  · rw [← hregistry]
    exact .opened ⟨w, hw, hcloses⟩
  · rw [AcceptedClaim.payments, hw, hregistry]
    exact hpaid

/-- A pool with one large and thirty-two small participants, which makes two buckets. -/
def splitRegistry : StakeRegistry :=
  poolOf ((sampleController, 1000000) ::
    (List.range 32).map fun i => (⟨2 :: UInt8.ofNat i :: List.replicate 31 0⟩, 1))

/-- The round of the pool after the empty bucket has been paid. -/
def splitRound : RoundOut where
  signer := sampleController
  asset := 1
  value := 100000
  round := ⟨1, 1000032, 1000000, 100000, 2, 0, [2]⟩

/-- The output that carries the round. -/
def splitOut : CTxOut :=
  ⟨.explicit 1, .explicit 100000, buildRoundScript sampleController splitRound.round⟩

/-- The claim that opens the round. -/
def splitOpening : CTransaction where
  txid := 300
  vin := [{ prevout := ⟨10, 0⟩ }]
  vout := [splitOut]

/-- The claim that closes it, and pays the large participant. -/
def splitClosing : CTransaction where
  txid := 301
  vin := [{ prevout := ⟨300, 0⟩ }]
  vout := [poolPayment sampleController 98996, poolPot 5, poolFee 999]

/-- A round of two buckets that is opened by one claim and closed by another. -/
theorem round_stays_solvent_split : ∃ (opening : AcceptedClaim sampleParams poolCrypto) (w : Work)
      (payments : List (CPubKey × ℤ)),
      RoundHistory opening (1, 1) splitRegistry none payments ∧ w.inValue = 100000 ∧
      (payments.map Prod.snd).sum = 98996 ∧ (payments.map Prod.fst).Nodup ∧
      (payments.map Prod.snd).sum ≤ distributablePart w.inValue := by
  obtain ⟨opening, hregistry, htx, -, hcheck⟩ := exists_acceptedClaim
    (fun signer outputs => decide (signer = sampleController) &&
      decide (outputs.slotOf splitRound = .inr (1, 1)) &&
      (outputs.lookup (.inr (1, 1))).any fun w : Work =>
        !w.repotOnly && decide (w.inValue = 100000) &&
          decide (w.paid sampleParams poolCrypto splitRegistry signer = 0))
    (show checkPosPotClaimV2 sampleParams poolCrypto splitRegistry splitOpening
      [⟨poolPot 100000, 1500, false⟩] = .ok () by decide +kernel) (by decide +kernel)
  obtain ⟨closing, hregistry', htx', hcoins', hcheck'⟩ := exists_acceptedClaim
    (fun signer outputs => (outputs.lookup (.inl splitRound.key)).any fun w : Work =>
      decide (w.bucket = none) &&
        decide (w.paid sampleParams poolCrypto splitRegistry signer = 98996))
    (show checkPosPotClaimV2 sampleParams poolCrypto splitRegistry splitClosing
      [⟨splitOut, 1600, false⟩] = .ok () by decide +kernel) (by decide +kernel)
  rw [Bool.and_eq_true, Bool.and_eq_true, decide_eq_true_eq, decide_eq_true_eq] at hcheck
  obtain ⟨⟨hsigner, hslot⟩, hcheck⟩ := hcheck
  obtain ⟨w, hw, hcheck⟩ := (Option.any_eq_true ..).mp hcheck
  obtain ⟨w', hw', hcheck'⟩ := (Option.any_eq_true ..).mp hcheck'
  simp only [Bool.and_eq_true, Bool.not_eq_true', decide_eq_true_eq] at hcheck hcheck'
  have hopened : RoundHistory opening (1, 1) splitRegistry (some splitRound)
      (opening.payments (.inr (1, 1))) := by
    rw [← hregistry]
    exact .opened ⟨splitOut, by simp [htx, splitOpening], by decide +kernel, hslot⟩
  have hclosed := RoundHistory.resumed closing hopened (by rw [hregistry']; exact Shrinks.refl)
    ⟨({ prevout := ⟨300, 0⟩ }, ⟨splitOut, 1600, false⟩), by simp [htx', hcoins', splitClosing],
      by decide +kernel⟩
    (show closing.Leaves (.inl splitRound.key) none from ⟨w', hw', hcheck'.1⟩)
  obtain ⟨-, honce, hsum⟩ := round_stays_solvent hw hcheck.1.1 (by
    rw [hregistry, hsigner]
    decide +kernel) hclosed
  rw [hregistry'] at hclosed
  refine ⟨opening, w, _, hclosed, hcheck.1.2, ?_, honce, hsum⟩
  rw [map_append, sum_append, AcceptedClaim.payments, AcceptedClaim.payments, hw, hw',
    hregistry, hregistry']
  exact (congrArg₂ (· + ·) hcheck.2 hcheck'.2).trans (by decide)

end Sequentia
