import Sequentia.Amounts.Balance
import Sequentia.CoinsFlow
import Sequentia.Supervision.Chain

/-!
# Amounts along a chain

Every unspent output of a chain holds a definite amount of one asset. A transaction needs
this of the outputs it spends, among them outputs of the same block, and passes it on to
those it creates.
-/

namespace Sequentia

open Std Checks AmountCrypto.Binding List Option

section Spent

variable (env : ChainEnv)

def ChainEnv.supervisionOf (height : ℕ) (tx : CTransaction) : Option SupervisionDescriptor :=
  if env.params.supervisionActive height then
    match supervisionFromTx tx with
    | .ok declaration => declaration.map SupervisionDeclaration.descriptor
    | .error () => none
  else none

def ChainEnv.spentOutputs (tx : CTransaction) (spent : List Coin) : List (CTxIn × CTxOut) :=
  (tx.vin.zip spent).filterMap fun p => (env.spentOutput p.1 p.2).map fun out => (p.1, out)

end Spent

variable {env : ChainEnv} {B : env.amounts.Binding} {registry : SupervisionRegistry}
  {height : ℕ} {tx : CTransaction} {spent : List Coin}

theorem supervisionOf_of_checkSupervision {supervision : Option SupervisionDescriptor}
    (hcheck : checkSupervision env registry height tx spent = .ok supervision) :
    supervision = env.supervisionOf height tx := by
  unfold ChainEnv.supervisionOf
  by_cases hactive : env.params.supervisionActive height = true
  · obtain ⟨declaration, htx, rfl⟩ := supervisedTx_of_checkSupervision hactive hcheck
    rw [if_pos hactive, htx.fromTx]
  · rw [if_neg hactive]
    rw [checkSupervision, if_pos (by simpa using hactive)] at hcheck
    exact (Except.ok.inj hcheck).symm

/-- Where every pair has a value, the values are in the places of the pairs. -/
theorem zip_filterMap_zip {α β γ : Type} {f : α × β → Option γ} {l : List α} {l' : List β}
    (hsome : ∀ p ∈ l.zip l', (f p).isSome = true) :
    l.zip ((l.zip l').filterMap f) =
      (l.zip l').filterMap fun p => (f p).map fun c => (p.1, c) := by
  induction l generalizing l' with
  | nil => rfl
  | cons a l ih =>
    cases l' with
    | nil => rfl
    | cons b l' =>
      rw [zip_cons_cons, forall_mem_cons] at hsome
      obtain ⟨c, hc⟩ := isSome_iff_exists.mp hsome.1
      simp [hc, ih hsome.2]

theorem mem_spentOutputs {p : CTxIn × CTxOut} : p ∈ env.spentOutputs tx spent ↔
    ∃ coin, (p.1, coin) ∈ tx.vin.zip spent ∧ env.spentOutput p.1 coin = some p.2 := by
  rw [ChainEnv.spentOutputs, mem_filterMap]
  constructor
  · rintro ⟨⟨txin, coin⟩, hmem, hsome⟩
    obtain ⟨out, hout, rfl⟩ := map_eq_some_iff.mp hsome
    exact ⟨coin, hmem, hout⟩
  · rintro ⟨coin, hmem, hout⟩
    exact ⟨(p.1, coin), hmem, map_eq_some_iff.mpr ⟨p.2, hout, rfl⟩⟩

theorem spentOutput_cases {txin : CTxIn} {coin : Coin} {out : CTxOut}
    (hout : env.spentOutput txin coin = some out) :
    out.scriptPubKey = coin.out.scriptPubKey ∧
      ((txin.isPegin = false ∧ out = coin.out) ∨
        (txin.isPegin = true ∧ out.nAsset = .explicit env.params.peggedAsset ∧
          ∃ amount, env.peginValue txin = some amount ∧ out.nValue = .explicit amount)) := by
  unfold ChainEnv.spentOutput at hout
  split at hout
  · next hpegin =>
    obtain ⟨amount, hamount, rfl⟩ := map_eq_some_iff.mp hout
    exact ⟨rfl, Or.inr ⟨hpegin, rfl, amount, hamount, rfl⟩⟩
  · next hpegin =>
    cases hout
    exact ⟨rfl, Or.inl ⟨by simpa using hpegin, rfl⟩⟩

section Inputs

variable {feeMap feeMap' : CAmountMap}

variable (hinputs : AcceptedInputs env registry height feeMap tx spent feeMap')

include hinputs

theorem AcceptedInputs.pegin {txin : CTxIn} {coin : Coin} (hmem : (txin, coin) ∈ tx.vin.zip spent)
    (hpegin : txin.isPegin = true) :
    ∃ amount, env.peginValue txin = some amount ∧ env.params.moneyRange amount = true := by
  obtain ⟨i, hi⟩ := mem_iff_getElem?.mp hmem
  have hcheck := hinputs.inputs _ (mk_mem_zipIdx_iff_getElem?.mpr hi)
  simp only [checkInput, if_pos hpegin] at hcheck
  split at hcheck
  · cases hcheck
  · next amount hamount =>
    rw [ite_error_eq_ok] at hcheck
    exact ⟨amount, hamount, by simpa using hcheck.1⟩

theorem AcceptedInputs.isSome_spentOutput :
    ∀ p ∈ tx.vin.zip spent, (env.spentOutput p.1 p.2).isSome = true := by
  intro p hp
  unfold ChainEnv.spentOutput
  split
  · next hpegin =>
    obtain ⟨amount, hamount, -⟩ := hinputs.pegin hp hpegin
    rw [hamount]
    rfl
  · rfl

theorem AcceptedInputs.map_fst_spentOutputs (hlength : spent.length = tx.vin.length) :
    (env.spentOutputs tx spent).map Prod.fst = tx.vin := by
  have hfst : (env.spentOutputs tx spent).map Prod.fst = (tx.vin.zip spent).map Prod.fst := by
    rw [ChainEnv.spentOutputs, map_filterMap, ← filterMap_eq_map]
    refine filterMap_congr fun p hp => ?_
    obtain ⟨out, hout⟩ := isSome_iff_exists.mp (hinputs.isSome_spentOutput p hp)
    rw [hout]
    rfl
  rw [hfst, map_fst_zip (Nat.le_of_eq hlength.symm)]

omit hinputs

end Inputs

/-- What a supervised issuance that was checked looks like. -/
structure SupervisedIssuance (crypto : Crypto) (decl : SupervisionDeclaration)
    (tx : CTransaction) : Prop where
  input : ∃ txin ∈ tx.vin, txin.isNewIssuance = true ∧
    decl.asset = issuedAsset crypto (some decl.descriptor) txin
  /-- Nothing is hidden. -/
  explicit : ∀ out ∈ tx.vout, out.nAsset.isExplicit = true ∧ out.nValue.isExplicit = true

theorem supervisedIssuance_of_check {crypto : Crypto} {decl : SupervisionDeclaration}
    {entropy : Uint256} (hcheck : checkSupervisedIssuance crypto decl tx = .ok entropy) :
    SupervisedIssuance crypto decl tx := by
  unfold checkSupervisedIssuance at hcheck
  simp only [bind_eq_ok] at hcheck
  obtain ⟨⟨⟩, -, found, hfold, hcheck⟩ := hcheck
  split at hcheck
  · cases hcheck
  · next entropy' =>
    obtain ⟨⟨⟩, houts, -⟩ := bind_eq_ok.mp hcheck
    refine ⟨?_, fun out hout => ?_⟩
    · have hinv := foldlM_induction (fun done found => ∀ entropy, found = some entropy →
          ∃ txin ∈ done, txin.isNewIssuance = true ∧
            decl.asset = issuedAsset crypto (some decl.descriptor) txin) ?_ ?_ hfold
      · exact hinv entropy' rfl
      · intro done found txin found' ih hstep entropy hsome
        unfold checkIssuanceInput at hstep
        split at hstep
        · cases hstep
          obtain ⟨txin', hmem, hissues⟩ := ih entropy hsome
          exact ⟨txin', mem_append_left _ hmem, hissues⟩
        · next hissues =>
          simp only [ite_error_eq_ok] at hstep
          obtain ⟨-, -, hstep⟩ := hstep
          split at hstep
          · simp only [ite_error_eq_ok] at hstep
            have hissues' : txin.isNewIssuance = true := by simpa using hissues
            refine ⟨txin, by simp, hissues', ?_⟩
            have hnonce : txin.assetIssuance.assetBlindingNonce.isNull = true := by
              simp only [CTxIn.isNewIssuance, Bool.and_eq_true] at hissues'
              exact hissues'.2
            rw [issuedAsset, issuanceEntropy, if_pos hnonce]
            exact (not_not.mp hstep.2.1).symm
          · cases hstep
      · intro entropy hnone
        cases hnone
    · have hout := forM_eq_ok.mp houts out hout
      simp only [checkIssuanceOutput, ite_error_eq_ok] at hout
      exact ⟨by simpa using hout.1, by simpa using hout.2.1⟩

def CAsset.SupervisedName (crypto : Crypto) (a : CAsset) : Prop :=
  ∃ (desc : SupervisionDescriptor) (txin : CTxIn), txin.isNewIssuance = true ∧
    a = issuedAsset crypto (some desc) txin

/-- Every supervised asset is that of a supervised issuance. -/
def SupervisionRegistry.Named (crypto : Crypto) (registry : SupervisionRegistry) : Prop :=
  ∀ a ∈ registry, CAsset.SupervisedName crypto a

theorem SupervisedTx.supervisedIssuance {declaration : Option SupervisionDeclaration}
    (htx : SupervisedTx env registry tx spent declaration) {out : CTxOut} (hout : out ∈ tx.vout)
    {decl : SupervisionDeclaration} (hdecl : parseSupervisionScript out.scriptPubKey = some decl) :
    declaration = some decl ∧ SupervisedIssuance env.crypto decl tx := by
  have hdeclaration := htx.declaration_eq (mem_filterMap.mpr ⟨out, hout, hdecl⟩)
  obtain ⟨entropy, hissuance⟩ := htx.issuance decl hdeclaration
  exact ⟨hdeclaration, supervisedIssuance_of_check hissuance⟩

theorem SupervisedTx.named {declaration : Option SupervisionDeclaration}
    (htx : SupervisedTx env registry tx spent declaration) (hnamed : registry.Named env.crypto)
    {out : CTxOut} (hout : out ∈ tx.vout) (hsupervision : isSupervisionOutput out = true) :
    ∃ a, out.nAsset = .explicit a ∧ CAsset.SupervisedName env.crypto a := by
  revert hsupervision
  fun_cases isSupervisionOutput out <;> intro hsupervision <;> try cases hsupervision
  case case1 asset hasset decl hdecl =>
    obtain ⟨txin, -, hissues, heq⟩ := (htx.supervisedIssuance hout hdecl).2.input
    rw [show asset = decl.asset by simpa using hsupervision] at hasset
    exact ⟨_, hasset, decl.descriptor, txin, hissues, heq⟩
  case case2 asset hasset _ record hrecord =>
    have hrecords := htx.records
    unfold checkSupervisionRecords at hrecords
    split at hrecords
    · cases hrecords
    · have hcheck := forM_eq_ok.mp hrecords out hout
      unfold checkSupervisionRecord at hcheck
      rw [hrecord] at hcheck
      simp only [ite_error_eq_ok] at hcheck
      rw [show asset = record.asset by simpa using hsupervision] at hasset
      exact ⟨_, hasset, hnamed _ (isSupervised_iff.mp (by simpa using hcheck.1))⟩

/-- What every unspent output satisfies: it can be spent and holds an amount of one asset, which
is zero only in the clear and in the asset of a supervised issuance. -/
def AmountCrypto.Binding.Unspent {amounts : AmountCrypto} (B : amounts.Binding) (crypto : Crypto)
    (out : CTxOut) : Prop :=
  isUnspendable out.scriptPubKey = false ∧ ∃ a v, B.Holds out a v ∧ (v = 0 →
    out.nValue = .explicit 0 ∧ out.nAsset = .explicit a ∧ CAsset.SupervisedName crypto a)

/-- What the inputs and outputs of a transaction at a height come to. -/
structure ChainEnv.Conserves (env : ChainEnv) (B : env.amounts.Binding) (height : ℕ)
    (tx : CTransaction) (spent : List Coin) : Prop where
  inputs : (env.spentOutputs tx spent).map Prod.fst = tx.vin
  balance : ∀ a, ((env.spentOutputs tx spent).map fun p =>
      B.amount p.2 a + B.issued env.crypto (env.supervisionOf height tx) p.1 a).sum =
    (tx.vout.map fun out => B.amount out a).sum
  reissuance : ∀ p ∈ env.spentOutputs tx spent, p.1.isReissuance = true →
    0 < B.amount p.2 (issuedToken env.crypto (env.supervisionOf height tx) p.1)
  /-- An issuance creates its own asset, and the reissuance token the first time. -/
  issuesOwn : ∀ p ∈ env.spentOutputs tx spent,
    B.IssuesOwn env.crypto (env.supervisionOf height tx) p.1

section Balance

variable {feeMap feeMap' : CAmountMap}

theorem moneyRange_lt {params : Params} {amount : ℤ} (hrange : params.moneyRange amount = true) :
    0 ≤ amount ∧ amount < 2 ^ 64 := by
  have hrange' : 0 ≤ amount ∧ amount ≤ params.maxMoney := by
    simpa [Params.moneyRange] using hrange
  have := params.maxMoney_lt
  omega

theorem AcceptedInputs.spendable
    (hinputs : AcceptedInputs env registry height feeMap tx spent feeMap')
    (hspent : ∀ q ∈ tx.vin.zip spent, q.1.isPegin = false → B.Unspent env.crypto q.2.out) :
    ∀ p ∈ env.spentOutputs tx spent, B.Spendable p.2 := by
  intro p hp
  obtain ⟨coin, hmem, hout⟩ := mem_spentOutputs.mp hp
  rcases (spentOutput_cases hout).2 with ⟨hpegin, heq⟩ | ⟨hpegin, hasset, amount, hamount, hvalue⟩
  · obtain ⟨-, a, v, hholds, hzero⟩ := hspent _ hmem hpegin
    rw [heq]
    exact ⟨a, v, hholds, fun h => (hzero h).1⟩
  · obtain ⟨amount', hamount', hrange⟩ := hinputs.pegin hmem hpegin
    obtain rfl : amount' = amount := Option.some.inj (hamount'.symm.trans hamount)
    obtain ⟨hnonneg, hlt⟩ := moneyRange_lt hrange
    exact ⟨_, amount', holds_explicit hasset hvalue hnonneg hlt, fun h => h ▸ hvalue⟩

/-- A transaction that was checked creates outputs that hold amounts of assets, and conserves
amounts if nothing is issued on an input that is skipped. -/
theorem AcceptedInputs.conserves
    (hinputs : AcceptedInputs env registry height feeMap tx spent feeMap')
    (hfits : ∀ txin ∈ tx.vin, IssuanceFits txin)
    (hspent : ∀ q ∈ tx.vin.zip spent, q.1.isPegin = false → B.Unspent env.crypto q.2.out) :
    (∀ out ∈ tx.vout, B.Sound (env.params.supervisionActive height) out) ∧
      ((∀ p ∈ env.spentOutputs tx spent, B.Skipped (env.params.supervisionActive height) p.2 →
          p.1.assetIssuance.isNull = true) → spent.length = tx.vin.length →
        env.Conserves B height tx spent) := by
  obtain ⟨supervision, hsupervision, hverify⟩ := hinputs.amounts
  have hzip := zip_filterMap_zip hinputs.isSome_spentOutput
  have hspendable : ∀ out ∈ (tx.vin.zip spent).filterMap fun p => env.spentOutput p.1 p.2,
      B.Spendable out := by
    intro out hout
    obtain ⟨p, hp, hsome⟩ := mem_filterMap.mp hout
    exact hinputs.spendable hspent (p.1, out) (mem_spentOutputs.mpr ⟨p.2, hp, hsome⟩)
  obtain ⟨hsound, hbalance⟩ := balance_of_verifyAmounts hfits hspendable hverify
  rw [hzip, supervisionOf_of_checkSupervision hsupervision] at hbalance
  refine ⟨hsound, fun hnull hlength => ?_⟩
  obtain ⟨hsum, hreissuance⟩ := hbalance hnull
  exact ⟨hinputs.map_fst_spentOutputs hlength, hsum, fun p hp => (hreissuance p hp).1,
    fun p hp => (hreissuance p hp).2⟩

end Balance

section Blocks

variable {st st' : SupervisedState} {block : CBlock} {undo : CBlockUndo}

theorem HardenedBlock.supervisedIssuance (hblock : HardenedBlock env st block st' undo)
    {a : CAsset} (ha : a ∈ block.declared) :
    ∃ p ∈ block.vtx.tail.zip undo, ∃ decl, decl.asset = a ∧
      SupervisedTx env st.registry p.1 p.2 (some decl) ∧
      SupervisedIssuance env.crypto decl p.1 := by
  obtain ⟨s, hs, hdeclares⟩ := mem_filterMap.mp ha
  obtain rfl | ⟨p, hp, out, hout, hread, declaration, hsupervised⟩ := hblock.source hs
  · cases hdeclares
  cases s with
  | declaration decl =>
    obtain ⟨rfl, hissuance⟩ :=
      hsupervised.supervisedIssuance hout (readScript_eq_declaration.mp hread)
    exact ⟨p, hp, decl, Option.some.inj hdeclares, hsupervised, hissuance⟩
  | _ => cases hdeclares

variable (haccepted : AcceptedBlock env st block st' undo)

include haccepted

theorem AcceptedBlock.mem_registry {a : CAsset}
    (ha : a ∈ st'.registry) :
    a ∈ st.registry ∨
      (env.params.supervisionActive (st.height + 1) = true ∧ a ∈ block.declared) := by
  by_cases hactive : env.params.supervisionActive (st.height + 1) = true
  · by_cases hdeclared : a ∈ block.declared
    · exact Or.inr ⟨hactive, hdeclared⟩
    · left
      rw [haccepted.registry, ChainEnv.applySupervision, if_pos hactive,
        ExtTreeMap.mem_iff_isSome_getElem?, getElem?_apply hdeclared, isSome_map] at ha
      exact ExtTreeMap.mem_iff_isSome_getElem?.mpr ha
  · rw [haccepted.registry_inactive hactive] at ha
    exact Or.inl ha

/-- The supervised assets keep their kind of names. -/
theorem AcceptedBlock.named
    (hhardened : env.HardenedAt (st.height + 1)) (hnamed : st.registry.Named env.crypto) :
    st'.registry.Named env.crypto := by
  intro a ha
  rcases haccepted.mem_registry ha with ha | ⟨hactive, ha⟩
  · exact hnamed a ha
  · obtain ⟨p, -, decl, rfl, -, hissuance⟩ :=
      HardenedBlock.supervisedIssuance ⟨haccepted, hactive, hhardened hactive⟩ ha
    obtain ⟨txin, -, hissues, heq⟩ := hissuance.input
    exact ⟨decl.descriptor, txin, hissues, heq⟩

omit haccepted

end Blocks

end Sequentia
