import Sequentia.Amounts.Binding
import Sequentia.Lib.Checks

/-!
# The balance of a transaction

A transaction that passes `VerifyAmounts` creates outputs that hold amounts in range, and
they hold together what the outputs spent held and what was issued, for every asset.
-/

namespace Sequentia

open Checks List

namespace AmountCrypto.Binding

variable {params : Params} {crypto : Crypto} {amounts : AmountCrypto} {B : amounts.Binding}

/-- What an output of a verified transaction contributes. -/
structure Creates (B : amounts.Binding) (supervisionActive : Bool) (out : CTxOut)
    (commits : List amounts.Commitment) : Prop where
  sound : B.Sound supervisionActive out
  inRange : ∀ c ∈ commits, ∃ a v, B.Commits c a v
  /-- They come to what the output holds. -/
  total : ∀ b, (commits.map (B.amountOf · b)).sum = B.amount out b

variable {targets : List amounts.Generator} {out : CTxOut} {witness : CTxOutWitness}
  {supervisionActive : Bool} {supervision : Option SupervisionDescriptor}

theorem asset_of_outputSurjectionProof (htargets : ∀ t ∈ targets, (B.assetOf t).isSome = true)
    (hsurjection : outputSurjectionProof amounts targets out witness = true) :
    ∃ gen a, assetGenerator amounts out.nAsset = some gen ∧ B.assetOf gen = some a := by
  unfold outputSurjectionProof at hsurjection
  cases hasset : out.nAsset with
  | null =>
    rw [hasset] at hsurjection
    cases hsurjection
  | explicit asset => exact ⟨_, asset, rfl, B.generate asset⟩
  | commitment bytes =>
    rw [hasset] at hsurjection
    dsimp only at hsurjection
    rw [Bool.and_eq_true] at hsurjection
    have hverify := hsurjection.2
    split at hverify
    · next gen hparse =>
      obtain ⟨t, ht, heq⟩ := B.surjection _ _ _ hverify htargets
      obtain ⟨a, ha⟩ := Option.isSome_iff_exists.mp (htargets t ht)
      exact ⟨gen, a, hparse, heq.trans ha⟩
    · cases hverify

theorem commits_of_outputRangeProof {bytes : Bytes} (hvalue : out.nValue = .commitment bytes)
    (hrange : outputRangeProof amounts out witness = true) {gen : amounts.Generator} {a : CAsset}
    (hgen : assetGenerator amounts out.nAsset = some gen) (hasset : B.assetOf gen = some a) :
    ∃ c v, amounts.commitmentParse bytes = some c ∧ B.Commits c a v ∧
      (v = 0 → isUnspendable out.scriptPubKey = true) := by
  unfold outputRangeProof at hrange
  rw [hvalue] at hrange
  cases hout : out.nAsset with
  | null =>
    rw [hout] at hgen
    cases hgen
  | explicit asset =>
    rw [hout] at hgen hrange
    cases hgen
    exact commits_of_verifyRangeProof hrange (B.serialize _) hasset
  | commitment asset =>
    rw [hout] at hgen hrange
    exact commits_of_verifyRangeProof hrange hgen hasset

theorem creates_of_outputTerm {commits : List amounts.Commitment}
    (htargets : ∀ t ∈ targets, (B.assetOf t).isSome = true)
    (hterm : outputTerm params amounts supervisionActive out = some commits)
    (hrange : outputRangeProof amounts out witness = true)
    (hsurjection : outputSurjectionProof amounts targets out witness = true) :
    B.Creates supervisionActive out commits := by
  obtain ⟨gen, a, hgen, hasset⟩ := asset_of_outputSurjectionProof htargets hsurjection
  have hknown : B.asset? out.nAsset = some a := by
    rw [asset?, hgen, Option.bind_some, hasset]
  have hamount : ∀ b, B.amount out b = B.valueIn (some a) out.nValue b := fun b => by
    rw [amount, hknown]
  unfold outputTerm at hterm
  rw [hgen] at hterm
  cases hvalue : out.nValue with
  | null =>
    rw [hvalue] at hterm
    cases hterm
  | explicit v =>
    rw [hvalue] at hterm hamount
    have hholds : ∀ b, B.amount out b = if b = a then v else 0 := by
      intro b
      rw [hamount, valueIn]
      by_cases heq : b = a
      · simp [heq]
      · simp [heq, Ne.symm heq]
    dsimp only at hterm
    split at hterm
    · cases hterm
    · next hmoney =>
      have hbounds : 0 ≤ v ∧ v < 2 ^ 63 := by
        have hmoney' : 0 ≤ v ∧ v ≤ params.maxMoney := by
          simpa [Params.moneyRange] using hmoney
        exact ⟨hmoney'.1, Int.lt_of_le_of_lt hmoney'.2 params.maxMoney_lt⟩
      split at hterm
      · next hzero =>
        subst hzero
        obtain ⟨hexempt, ⟨⟩⟩ := Option.ite_none_right_eq_some.mp hterm
        refine ⟨⟨a, 0, ⟨hknown, Int.le_refl 0, by decide, hholds⟩, fun _ => ?_⟩, ?_, ?_⟩
        · simp only [Bool.or_eq_true, Bool.and_eq_true] at hexempt
          exact hexempt.imp_right fun h => ⟨h.1, hvalue, h.2⟩
        · exact fun c hc => (not_mem_nil hc).elim
        · intro b
          rw [hholds b, ite_self]
          rfl
      · next hne =>
        cases hterm
        have hlt : v < 2 ^ 64 := Int.lt_trans hbounds.2 (by decide)
        have hcommits := commits_pedersenCommit hasset (v := v) (by omega) hlt
        refine ⟨⟨a, v, ⟨hknown, hbounds.1, hlt, hholds⟩, fun hzero => absurd hzero hne⟩, ?_, ?_⟩
        · intro c hc
          rw [mem_singleton.mp hc]
          exact ⟨a, v, hcommits⟩
        · intro b
          rw [hholds b, map_singleton, sum_singleton, hcommits.amountOf]
  | commitment bytes =>
    rw [hvalue] at hterm hamount
    obtain ⟨c, v, hparse, hcommits, hzero⟩ :=
      commits_of_outputRangeProof hvalue hrange hgen hasset
    dsimp only at hterm
    rw [hparse] at hterm
    cases hterm
    have hholds : ∀ b, B.amount out b = B.amountOf c b := by
      intro b
      rw [hamount, valueIn, hparse]
      rfl
    refine ⟨⟨a, v, ⟨hknown, hcommits.nonneg, hcommits.lt, fun b => ?_⟩,
      fun h => Or.inl (hzero h)⟩, ?_, ?_⟩
    · rw [hholds, hcommits.amountOf]
    · intro c' hc'
      rw [mem_singleton.mp hc']
      exact ⟨a, v, hcommits⟩
    · intro b
      rw [hholds, map_singleton, sum_singleton]

/-- The inputs of a verified transaction, with what they bring in. -/
theorem total_of_inputTerms {pairs : List (CTxIn × CTxOut)}
    {terms : List (List (amounts.Generator × amounts.Commitment))}
    (hterms : List.Forall₂ (fun p l =>
      inputTerms params crypto amounts supervisionActive supervision p.1 p.2 = some l) pairs terms)
    (hfits : ∀ p ∈ pairs, IssuanceFits p.1) (hspendable : ∀ p ∈ pairs, B.Spendable p.2) :
    (∀ t ∈ terms.flatten, ∃ a v, B.Term t a v) ∧
      ((∀ p ∈ pairs, B.Skipped supervisionActive p.2 → p.1.assetIssuance.isNull = true) →
        (∀ b, B.total terms.flatten b =
          (pairs.map fun p => B.amount p.2 b + B.issued crypto supervision p.1 b).sum) ∧
        ∀ p ∈ pairs, (p.1.isReissuance = true →
          0 < B.amount p.2 (issuedToken crypto supervision p.1)) ∧
            B.IssuesOwn crypto supervision p.1) := by
  induction hterms with
  | nil =>
    refine ⟨fun t ht => (not_mem_nil ht).elim, fun _ => ⟨fun b => rfl, ?_⟩⟩
    exact fun p hp => (not_mem_nil hp).elim
  | @cons p l pairs terms hl _ ih =>
    rw [forall_mem_cons] at hfits hspendable
    obtain ⟨hterm, hsums⟩ := ih hfits.2 hspendable.2
    rcases contributes_of_inputTerms hfits.1 hspendable.1 hl with ⟨rfl, hskip⟩ | hcontributes
    · refine ⟨hterm, fun hnull => ?_⟩
      rw [forall_mem_cons] at hnull
      obtain ⟨hsum, htoken⟩ := hsums hnull.2
      have hself := hnull.1 hskip
      refine ⟨fun b => ?_, forall_mem_cons.mpr
        ⟨⟨fun hreissues => ?_, issuesOwn_of_isNull hself⟩, htoken⟩⟩
      · rw [flatten_cons, nil_append, hsum b, map_cons, sum_cons, hskip.2.2 b,
          issued_of_isNull hself]
        omega
      · simp [CTxIn.isReissuance, hself] at hreissues
    · refine ⟨fun t ht => ?_, fun hnull => ?_⟩
      · rw [flatten_cons] at ht
        exact (mem_append.mp ht).elim (hcontributes.term t) (hterm t)
      · rw [forall_mem_cons] at hnull
        obtain ⟨hsum, htoken⟩ := hsums hnull.2
        refine ⟨fun b => ?_, forall_mem_cons.mpr
          ⟨⟨hcontributes.reissuance, hcontributes.issuesOwn⟩, htoken⟩⟩
        rw [flatten_cons, total_append, hsum b, hcontributes.total b, map_cons,
          sum_cons]

/-- The outputs of a verified transaction, with what they hold. -/
theorem total_of_outputTerm {outs : List (CTxOut × CTxOutWitness)}
    {commits : List (List amounts.Commitment)}
    (htargets : ∀ t ∈ targets, (B.assetOf t).isSome = true)
    (hterms : List.Forall₂ (fun p l => outputTerm params amounts supervisionActive p.1 = some l)
      outs commits) (hrange : ∀ p ∈ outs, outputRangeProof amounts p.1 p.2 = true)
    (hsurjection : ∀ p ∈ outs, outputSurjectionProof amounts targets p.1 p.2 = true) :
    (∀ p ∈ outs, B.Sound supervisionActive p.1) ∧ (∀ c ∈ commits.flatten, ∃ a v, B.Commits c a v) ∧
      ∀ b, (commits.flatten.map (B.amountOf · b)).sum =
        (outs.map fun p => B.amount p.1 b).sum := by
  induction hterms with
  | nil =>
    exact ⟨fun p hp => (not_mem_nil hp).elim, fun c hc => (not_mem_nil hc).elim,
      fun b => rfl⟩
  | @cons p l outs commits hl _ ih =>
    rw [forall_mem_cons] at hrange hsurjection
    obtain ⟨hsound, hcommits, htotal⟩ := ih hrange.2 hsurjection.2
    have hcreates := creates_of_outputTerm htargets hl hrange.1 hsurjection.1
    refine ⟨forall_mem_cons.mpr ⟨hcreates.sound, hsound⟩, fun c hc => ?_, fun b => ?_⟩
    · rw [flatten_cons] at hc
      exact (mem_append.mp hc).elim (hcreates.inRange c) (hcommits c)
    · rw [flatten_cons, map_append, sum_append, htotal b, hcreates.total b,
        map_cons, sum_cons]

theorem map_fst_witnessedOutputs (tx : CTransaction) :
    tx.witnessedOutputs.map Prod.fst = tx.vout := by
  rw [CTransaction.witnessedOutputs, map_map]
  exact zipIdx_map_fst 0 tx.vout

/-- The outputs of a verified transaction hold amounts in range; and they hold what the outputs
spent held and what was issued, if nothing is issued on an input that is skipped. -/
theorem balance_of_verifyAmounts {inputs : List CTxOut} {tx : CTransaction}
    (hfits : ∀ txin ∈ tx.vin, IssuanceFits txin) (hspendable : ∀ out ∈ inputs, B.Spendable out)
    (hverify : verifyAmounts params crypto amounts inputs tx supervisionActive supervision = true) :
    (∀ out ∈ tx.vout, B.Sound supervisionActive out) ∧
      ((∀ p ∈ tx.vin.zip inputs, B.Skipped supervisionActive p.2 →
          p.1.assetIssuance.isNull = true) →
        (∀ b, ((tx.vin.zip inputs).map fun p =>
          B.amount p.2 b + B.issued crypto supervision p.1 b).sum =
            (tx.vout.map fun out => B.amount out b).sum) ∧
        ∀ p ∈ tx.vin.zip inputs, (p.1.isReissuance = true →
          0 < B.amount p.2 (issuedToken crypto supervision p.1)) ∧
            B.IssuesOwn crypto supervision p.1) := by
  unfold verifyAmounts at hverify
  split at hverify
  · next terms commits hterms hcommits =>
    simp only [Bool.and_eq_true, all_eq_true] at hverify
    obtain ⟨⟨htally, hrange⟩, hsurjection⟩ := hverify
    obtain ⟨hterm, hsums⟩ := total_of_inputTerms (B := B) (forall₂_of_mapM hterms)
      (fun p hp => hfits p.1 (of_mem_zip hp).1)
      (fun p hp => hspendable p.2 (of_mem_zip hp).2)
    have htargets : ∀ t ∈ terms.flatten.map Prod.fst, (B.assetOf t).isSome = true := by
      intro t ht
      obtain ⟨p, hp, rfl⟩ := mem_map.mp ht
      obtain ⟨a, v, hasset, -⟩ := hterm p hp
      rw [hasset]
      rfl
    have houts : List.Forall₂ (fun p l =>
        outputTerm params amounts supervisionActive p.1 = some l) tx.witnessedOutputs commits := by
      have := forall₂_of_mapM hcommits
      rw [← map_fst_witnessedOutputs, forall₂_map_left_iff] at this
      exact this
    obtain ⟨hsound, hinRange, htotal⟩ := total_of_outputTerm htargets houts hrange hsurjection
    have hvout : ∀ b, (tx.witnessedOutputs.map fun p => B.amount p.1 b).sum =
        (tx.vout.map fun out => B.amount out b).sum := by
      intro b
      conv_rhs => rw [← map_fst_witnessedOutputs tx, map_map]
      rfl
    refine ⟨fun out hout => ?_, fun hnull => ?_⟩
    · rw [← map_fst_witnessedOutputs] at hout
      obtain ⟨p, hp, rfl⟩ := mem_map.mp hout
      exact hsound p hp
    · obtain ⟨hsum, htoken⟩ := hsums hnull
      refine ⟨fun b => ?_, htoken⟩
      have hbalance := B.tally _ _ htally (fun c hc a => ?_) b
      · rw [htotal b, hvout b, map_map] at hbalance
        rw [← hsum b, ← hbalance]
        rfl
      · rcases mem_append.mp hc with hc | hc
        · obtain ⟨t, ht, rfl⟩ := mem_map.mp hc
          obtain ⟨a', v, -, hcommits⟩ := hterm t ht
          exact hcommits.bounds a
        · obtain ⟨a', v, hcommits⟩ := hinRange c hc
          exact hcommits.bounds a
  · cases hverify

end AmountCrypto.Binding

end Sequentia
