import Mathlib.Algebra.BigOperators.Group.List.Basic
import Mathlib.Algebra.Order.Ring.Int
import Sequentia.Amounts.Verify

/-!
# Binding commitments

The assumptions under which amounts are what the proofs say: a generator stands for one
asset, a commitment for amounts of assets, range proofs and surjection proofs are sound,
and commitments that balance hold equal amounts. Under them every output that passes
`VerifyAmounts` holds a definite amount of one asset.
-/

namespace Sequentia

open List Option

/-- Binding commitments and sound proofs. -/
structure AmountCrypto.Binding (amounts : AmountCrypto) where
  assetOf : amounts.Generator → Option CAsset
  amountOf : amounts.Commitment → CAsset → ℤ
  generate : ∀ a, assetOf (amounts.generatorGenerate a) = some a
  blinded : ∀ a nonce g, amounts.generatorGenerateBlinded a nonce = some g → assetOf g = some a
  /-- Parsing reverts the serialization. -/
  serialize : ∀ g, amounts.generatorParse (amounts.generatorSerialize g) = some g
  commit : ∀ g a v, assetOf g = some a → 0 < v → v < 2 ^ 64 →
    ∀ b, amountOf (amounts.pedersenCommit v g) b = if b = a then v else 0
  range : ∀ proof c g script a n, amounts.rangeproofVerify proof c g script = some n →
    assetOf g = some a → ∃ v : ℤ, n ≤ v ∧ v < 2 ^ 64 ∧ ∀ b, amountOf c b = if b = a then v else 0
  surjection : ∀ proof targets g, amounts.surjectionproofVerify proof targets g = true →
    (∀ t ∈ targets, (assetOf t).isSome = true) → ∃ t ∈ targets, assetOf g = assetOf t
  /-- Commitments in range that balance hold equal amounts. -/
  tally : ∀ ins outs, amounts.verifyTally ins outs = true →
    (∀ c ∈ ins ++ outs, ∀ a, 0 ≤ amountOf c a ∧ amountOf c a < 2 ^ 64) →
    ∀ a, (ins.map (amountOf · a)).sum = (outs.map (amountOf · a)).sum

namespace AmountCrypto.Binding

variable {params : Params} {crypto : Crypto} {amounts : AmountCrypto} (B : amounts.Binding)

/-- The asset behind a readable or hidden asset. -/
def asset? (asset : CConfidentialAsset) : Option CAsset :=
  (assetGenerator amounts asset).bind B.assetOf

/-- What a readable or hidden amount of an asset comes to. -/
def valueIn (asset : Option CAsset) (value : CConfidentialValue) (a : CAsset) : ℤ :=
  match value with
  | .null => 0
  | .explicit v => if asset = some a then v else 0
  | .commitment bytes => ((amounts.commitmentParse bytes).map (B.amountOf · a)).getD 0

def amount (out : CTxOut) (a : CAsset) : ℤ := B.valueIn (B.asset? out.nAsset) out.nValue a

/-- The amount of an asset that the issuance on an input creates. -/
def issued (crypto : Crypto) (supervision : Option SupervisionDescriptor) (txin : CTxIn)
    (a : CAsset) : ℤ :=
  B.valueIn (some (issuedAsset crypto supervision txin)) txin.assetIssuance.nAmount a +
    B.valueIn (some (issuedToken crypto supervision txin)) txin.assetIssuance.nInflationKeys a

structure Commits (c : amounts.Commitment) (a : CAsset) (v : ℤ) : Prop where
  nonneg : 0 ≤ v
  lt : v < 2 ^ 64
  amountOf : ∀ b, B.amountOf c b = if b = a then v else 0

/-- An output holds an amount of one asset, in range. -/
structure Holds (out : CTxOut) (a : CAsset) (v : ℤ) : Prop where
  asset : B.asset? out.nAsset = some a
  nonneg : 0 ≤ v
  lt : v < 2 ^ 64
  amount : ∀ b, B.amount out b = if b = a then v else 0

/-- What every output satisfies: it holds an amount of one asset, and holds nothing only if it
cannot be spent or is a supervision output of zero. -/
def Sound (supervisionActive : Bool) (out : CTxOut) : Prop :=
  ∃ a v, B.Holds out a v ∧ (v = 0 → isUnspendable out.scriptPubKey = true ∨
    (supervisionActive = true ∧ out.nValue = .explicit 0 ∧ isSupervisionOutput out = true))

/-- What an output that is spent satisfies: it holds an amount of one asset, and a hidden amount
is not zero. -/
def Spendable (out : CTxOut) : Prop := ∃ a v, B.Holds out a v ∧ (v = 0 → out.nValue = .explicit 0)

/-- What is skipped as an input: a supervision output of zero. -/
def Skipped (supervisionActive : Bool) (out : CTxOut) : Prop :=
  supervisionActive = true ∧ isSupervisionOutput out = true ∧ ∀ b, B.amount out b = 0

variable {B}

variable {out spent : CTxOut} {a asset : CAsset} {v : ℤ} {c : amounts.Commitment} {proof : Bytes}
  {value : CConfidentialValue} {terms : List (amounts.Generator × amounts.Commitment)}
  {supervision : Option SupervisionDescriptor} {txin : CTxIn}

/-- A readable output holds its amount. -/
theorem holds_explicit (hasset : out.nAsset = .explicit a) (hvalue : out.nValue = .explicit v)
    (hnonneg : 0 ≤ v) (hlt : v < 2 ^ 64) : B.Holds out a v := by
  have hknown : B.asset? out.nAsset = some a := by
    rw [hasset]
    exact B.generate a
  refine ⟨hknown, hnonneg, hlt, fun b => ?_⟩
  rw [amount, hknown, hvalue, valueIn]
  by_cases heq : b = a
  · simp [heq]
  · simp [heq, Ne.symm heq]

theorem Commits.bounds (hcommits : B.Commits c a v) (b : CAsset) :
    0 ≤ B.amountOf c b ∧ B.amountOf c b < 2 ^ 64 := by
  rw [hcommits.amountOf b]
  split
  · exact ⟨hcommits.nonneg, hcommits.lt⟩
  · exact ⟨Int.le_refl 0, by decide⟩

theorem Holds.amount_self (hholds : B.Holds out a v) : B.amount out a = v := by
  rw [hholds.amount a, if_pos rfl]

theorem commits_pedersenCommit {g : amounts.Generator} (hg : B.assetOf g = some a) (hpos : 0 < v)
    (hlt : v < 2 ^ 64) : B.Commits (amounts.pedersenCommit v g) a v :=
  ⟨Int.le_of_lt hpos, hlt, B.commit g a v hg hpos hlt⟩

theorem commits_of_verifyRangeProof {value asset : Bytes} {script : CScript}
    (hverify : verifyRangeProof amounts proof value asset script = true) {g : amounts.Generator}
    (hparse : amounts.generatorParse asset = some g) (hg : B.assetOf g = some a) :
    ∃ c v, amounts.commitmentParse value = some c ∧ B.Commits c a v ∧
      (v = 0 → isUnspendable script = true) := by
  revert hverify
  fun_cases verifyRangeProof amounts proof value asset script <;> intro hverify <;> try cases hverify
  next c g' hg' hc n hrange =>
    cases hparse.symm.trans hg'
    obtain ⟨v, hn, hlt, hamount⟩ := B.range _ _ _ _ _ _ hrange hg
    simp only [Bool.and_eq_true, Bool.or_eq_true, bne_iff_ne, ne_eq] at hverify
    refine ⟨c, v, hc, ⟨by omega, hlt, hamount⟩, fun hzero => ?_⟩
    exact hverify.2.resolve_left fun hne => hne (by omega)

/-- A readable amount fits its type, a signed 64-bit number. -/
def fits : CConfidentialValue → Prop
  | .explicit v => v < 2 ^ 63
  | _ => True

instance : DecidablePred fits
  | .explicit v => inferInstanceAs (Decidable (v < 2 ^ 63))
  | .null => .isTrue trivial
  | .commitment _ => .isTrue trivial

def Term (B : amounts.Binding) (t : amounts.Generator × amounts.Commitment) (a : CAsset)
    (v : ℤ) : Prop :=
  B.assetOf t.1 = some a ∧ B.Commits t.2 a v

def total (B : amounts.Binding) (terms : List (amounts.Generator × amounts.Commitment))
    (a : CAsset) : ℤ :=
  (terms.map fun t => B.amountOf t.2 a).sum

theorem total_append (l l' : List (amounts.Generator × amounts.Commitment)) (a : CAsset) :
    B.total (l ++ l') a = B.total l a + B.total l' a := by
  rw [total, map_append, sum_append]
  rfl

theorem total_cons (t : amounts.Generator × amounts.Commitment)
    (l : List (amounts.Generator × amounts.Commitment)) (a : CAsset) :
    B.total (t :: l) a = B.amountOf t.2 a + B.total l a := by
  rw [total, map_cons, sum_cons]
  rfl

theorem commits_of_verifyIssuanceAmount (hfits : fits value)
    (hverify : verifyIssuanceAmount params amounts asset value proof = some c) :
    (∃ v, B.Commits c asset v) ∧ ∀ b, B.amountOf c b = B.valueIn (some asset) value b := by
  cases value with
  | null => cases hverify
  | explicit amount =>
    simp only [verifyIssuanceAmount] at hverify
    split at hverify
    · cases hverify
    · next hrange =>
      split at hverify
      · cases hverify
      · obtain rfl := Option.some.inj hverify
        have hpos : 0 < amount := by
          rw [not_or] at hrange
          exact Int.not_le.mp hrange.2
        have hlt : amount < 2 ^ 64 := Int.lt_trans hfits (by decide)
        have hcommits := commits_pedersenCommit (B.generate asset) hpos hlt
        refine ⟨⟨amount, hcommits⟩, fun b => ?_⟩
        rw [hcommits.amountOf b, valueIn]
        by_cases heq : b = asset
        · simp [heq]
        · simp [heq, Ne.symm heq]
  | commitment bytes =>
    simp only [verifyIssuanceAmount] at hverify
    split at hverify
    · cases hverify
    · next hrange =>
      obtain ⟨c', v, hparse, hcommits, -⟩ := commits_of_verifyRangeProof (by simpa using hrange)
        (B.serialize _) (B.generate asset)
      obtain rfl : c' = c := Option.some.inj (hparse.symm.trans hverify)
      refine ⟨⟨v, hcommits⟩, fun b => ?_⟩
      rw [valueIn, hparse]
      rfl

theorem term_of_pseudoInput (hfits : fits value)
    (hpseudo : pseudoInput params amounts asset value proof = some terms) :
    (∀ t ∈ terms, ∃ v, B.Term t asset v) ∧
      ∀ b, B.total terms b = B.valueIn (some asset) value b := by
  have hverified : ∀ c, verifyIssuanceAmount params amounts asset value proof = some c →
      terms = [(amounts.generatorGenerate asset, c)] →
      (∀ t ∈ terms, ∃ v, B.Term t asset v) ∧
        ∀ b, B.total terms b = B.valueIn (some asset) value b := by
    rintro c hc rfl
    obtain ⟨⟨v, hcommits⟩, hamount⟩ := commits_of_verifyIssuanceAmount (B := B) hfits hc
    refine ⟨fun t ht => ⟨v, ?_⟩, fun b => ?_⟩
    · rw [mem_singleton.mp ht]
      exact ⟨B.generate asset, hcommits⟩
    · rw [total_cons, hamount b]
      simp [total]
  cases value with
  | null =>
    cases hpseudo
    exact ⟨fun t ht => (not_mem_nil ht).elim, fun b => rfl⟩
  | explicit amount =>
    obtain ⟨c, hc, heq⟩ := map_eq_some_iff.mp hpseudo
    exact hverified c hc heq.symm
  | commitment bytes =>
    obtain ⟨c, hc, heq⟩ := map_eq_some_iff.mp hpseudo
    exact hverified c hc heq.symm

theorem total_eq_zero {b : CAsset} (hterms : ∀ t ∈ terms, ∃ v, B.Term t asset v) (hne : b ≠ asset) :
    B.total terms b = 0 := by
  induction terms with
  | nil => rfl
  | cons t terms ih =>
    rw [forall_mem_cons] at hterms
    obtain ⟨⟨v, -, hcommits⟩, hrest⟩ := hterms
    rw [total_cons, hcommits.amountOf, if_neg hne, ih hrest, Int.add_zero]

def IssuanceFits (txin : CTxIn) : Prop :=
  fits txin.assetIssuance.nAmount ∧ fits txin.assetIssuance.nInflationKeys

instance : DecidablePred IssuanceFits := fun _ => inferInstanceAs (Decidable (_ ∧ _))

theorem issued_of_isNull (hnull : txin.assetIssuance.isNull = true) (a : CAsset) :
    B.issued crypto supervision txin a = 0 := by
  simp only [CAssetIssuance.isNull, Bool.and_eq_true, beq_iff_eq] at hnull
  simp [issued, hnull.1, hnull.2, valueIn]

theorem asset_of_spendsToken {asset : CConfidentialAsset} {token : CAsset} {nonce : Uint256}
    (hspends : spendsToken amounts asset token nonce = true) : B.asset? asset = some token := by
  revert hspends
  fun_cases spendsToken amounts asset token nonce <;> intro hspends <;> try cases hspends
  · next spent =>
    rw [show spent = token by simpa using hspends]
    exact B.generate token
  · next bytes g hg =>
    have hbytes : bytes = amounts.generatorSerialize g := by simpa using hspends
    have hparse : assetGenerator amounts (.commitment bytes) = some g := by
      rw [assetGenerator, hbytes, B.serialize]
    rw [asset?, hparse, bind_some]
    exact B.blinded _ _ _ hg

/-- What an issuance creates: its asset, and the reissuance token if it is the first one. -/
def IssuesOwn (B : amounts.Binding) (crypto : Crypto) (supervision : Option SupervisionDescriptor)
    (txin : CTxIn) : Prop :=
  ∀ b, B.issued crypto supervision txin b ≠ 0 → txin.assetIssuance.isNull = false ∧
    (b = issuedAsset crypto supervision txin ∨
      (b = issuedToken crypto supervision txin ∧ txin.isReissuance = false))

theorem issuesOwn_of_isNull (hnull : txin.assetIssuance.isNull = true) :
    B.IssuesOwn crypto supervision txin :=
  fun b hb => absurd (issued_of_isNull hnull b) hb

/-- The pseudo-inputs of an issuance come to what it issues, and a reissuance spends an output
in the reissuance token. -/
theorem term_of_issuanceInputs {spent : CConfidentialAsset} (hfits : IssuanceFits txin)
    (hinputs : issuanceInputs params crypto amounts supervision txin spent = some terms) :
    (∀ t ∈ terms, ∃ a v, B.Term t a v) ∧
      (∀ b, B.total terms b = B.issued crypto supervision txin b) ∧
      (txin.isReissuance = true →
        B.asset? spent = some (issuedToken crypto supervision txin)) ∧
      B.IssuesOwn crypto supervision txin := by
  unfold issuanceInputs at hinputs
  dsimp only at hinputs
  split at hinputs
  · next hnull =>
    cases hinputs
    refine ⟨fun t ht => (not_mem_nil ht).elim, fun b => ?_, fun hreissues => ?_,
      issuesOwn_of_isNull hnull⟩
    · rw [issued_of_isNull hnull]
      rfl
    · simp [CTxIn.isReissuance, hnull] at hreissues
  · next hnull =>
    split at hinputs
    · cases hinputs
    · next hspends =>
      split at hinputs
      · cases hinputs
      · next hkeys =>
        obtain ⟨l, hl, hinputs⟩ := bind_eq_some_iff.mp hinputs
        obtain ⟨l', hl', hinputs⟩ := bind_eq_some_iff.mp hinputs
        cases hinputs
        obtain ⟨hterms, htotal⟩ := term_of_pseudoInput (B := B) hfits.1 hl
        obtain ⟨hterms', htotal'⟩ := term_of_pseudoInput (B := B) hfits.2 hl'
        refine ⟨fun t ht => ?_, fun b => ?_, fun hreissues => ?_, fun b hb => ?_⟩
        · rcases mem_append.mp ht with ht | ht
          · exact ⟨_, hterms t ht⟩
          · exact ⟨_, hterms' t ht⟩
        · rw [total_append, htotal, htotal']
          rfl
        · have htoken : spendsToken amounts spent (issuedToken crypto supervision txin)
              txin.assetIssuance.assetBlindingNonce = true := by
            simpa [hreissues] using hspends
          exact asset_of_spendsToken htoken
        · refine ⟨by simpa using hnull, ?_⟩
          by_cases hasset : b = issuedAsset crypto supervision txin
          · exact Or.inl hasset
          · rw [issued, ← htotal b, total_eq_zero hterms hasset, Int.zero_add] at hb
            refine Or.inr ⟨?_, ?_⟩
            · by_contra hne
              rw [← htotal' b, total_eq_zero hterms' hne] at hb
              exact hb rfl
            · cases hreissues : txin.isReissuance with
              | false => rfl
              | true =>
                have hnone : txin.assetIssuance.nInflationKeys = .null := by
                  simpa [hreissues] using hkeys
                rw [hnone] at hb
                exact absurd rfl hb

/-- What an input of a verified transaction contributes. -/
structure Contributes (B : amounts.Binding) (crypto : Crypto)
    (supervision : Option SupervisionDescriptor) (txin : CTxIn) (spent : CTxOut)
    (terms : List (amounts.Generator × amounts.Commitment)) : Prop where
  term : ∀ t ∈ terms, ∃ a v, B.Term t a v
  /-- They come to what the output spent holds and what is issued. -/
  total : ∀ b, B.total terms b = B.amount spent b + B.issued crypto supervision txin b
  reissuance : txin.isReissuance = true →
    0 < B.amount spent (issuedToken crypto supervision txin)
  /-- What is issued is the asset, and the token the first time. -/
  issuesOwn : B.IssuesOwn crypto supervision txin

theorem contributes_cons {issued : List (amounts.Generator × amounts.Commitment)}
    (hfits : IssuanceFits txin)
    (hissued : issuanceInputs params crypto amounts supervision txin spent.nAsset = some issued)
    (hholds : B.Holds spent a v) {gen : amounts.Generator} {commit : amounts.Commitment}
    (hasset : B.assetOf gen = some a) (hcommits : B.Commits commit a v) (hpos : 0 < v) :
    B.Contributes crypto supervision txin spent ((gen, commit) :: issued) := by
  obtain ⟨hterms, htotal, htoken, hown⟩ := term_of_issuanceInputs (B := B) hfits hissued
  refine ⟨fun t ht => ?_, fun b => ?_, fun hreissues => ?_, hown⟩
  · rcases mem_cons.mp ht with rfl | ht
    · exact ⟨a, v, hasset, hcommits⟩
    · exact hterms t ht
  · rw [total_cons, htotal, hcommits.amountOf, hholds.amount]
  · have heq := htoken hreissues
    rw [hholds.asset] at heq
    rw [← Option.some.inj heq, hholds.amount_self]
    exact hpos

/-- A verified input contributes what it holds, with the exception of supervision outputs of
zero, which are skipped together with the issuance on the input. -/
theorem contributes_of_inputTerms {supervisionActive : Bool} (hfits : IssuanceFits txin)
    (hspendable : B.Spendable spent)
    (hinputs : inputTerms params crypto amounts supervisionActive supervision txin spent =
      some terms) :
    (terms = [] ∧ B.Skipped supervisionActive spent) ∨
      B.Contributes crypto supervision txin spent terms := by
  obtain ⟨a, v, hholds, hzero⟩ := hspendable
  obtain ⟨gen, hgen, hasset⟩ := bind_eq_some_iff.mp hholds.asset
  have hamount : ∀ b, B.amount spent b = B.valueIn (B.asset? spent.nAsset) spent.nValue b :=
    fun _ => rfl
  unfold inputTerms at hinputs
  rw [hgen] at hinputs
  cases hvalue : spent.nValue with
  | null =>
    rw [hvalue] at hinputs
    cases hinputs
  | explicit amount =>
    rw [hvalue] at hinputs hamount
    dsimp only at hinputs
    split at hinputs
    · cases hinputs
    · next hrange =>
      have hrange' : 0 ≤ amount ∧ amount ≤ params.maxMoney := by
        simpa [Params.moneyRange] using hrange
      have hv : amount = v := by
        rw [← hholds.amount_self, hamount, valueIn, if_pos hholds.asset]
      split at hinputs
      · next hnil =>
        left
        obtain ⟨hexempt, ⟨⟩⟩ := ite_none_right_eq_some.mp hinputs
        rw [Bool.and_eq_true] at hexempt
        refine ⟨rfl, hexempt.1, hexempt.2, fun b => ?_⟩
        rw [hamount, valueIn, hnil, ite_self]
      · next hne =>
        right
        obtain ⟨issued, hissued, rfl⟩ := map_eq_some_iff.mp hinputs
        have hpos : 0 < v := by omega
        have hcommits := commits_pedersenCommit hasset hpos hholds.lt
        rw [hv]
        exact contributes_cons hfits hissued hholds hasset hcommits hpos
  | commitment bytes =>
    rw [hvalue] at hinputs hamount
    dsimp only at hinputs
    split at hinputs
    · cases hinputs
    · next commit hparse =>
      right
      obtain ⟨issued, hissued, rfl⟩ := map_eq_some_iff.mp hinputs
      have hne : v ≠ 0 := by
        intro hv
        rw [hzero hv] at hvalue
        cases hvalue
      have hpos : 0 < v := by
        have := hholds.nonneg
        omega
      have hcommits : B.Commits commit a v := by
        refine ⟨hholds.nonneg, hholds.lt, fun b => ?_⟩
        rw [← hholds.amount b, hamount, valueIn, hparse]
        rfl
      exact contributes_cons hfits hissued hholds hasset hcommits hpos

end AmountCrypto.Binding

end Sequentia
