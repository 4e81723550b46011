import Sequentia.Amounts.Flow
import Sequentia.Supervision.Keys

/-!
# Conservation of amounts

Along a chain of accepted blocks every transaction conserves the amounts of every asset, and
the coinbase pays no more than fees and subsidy. The supervision outputs of zero, which are
exempt from the balance, must not carry an issuance: the rule against it is part of the
hardening.
-/

namespace Sequentia

open Std Checks KeyedMap AmountCrypto.Binding List

/-- The amounts of issuances are signed 64-bit numbers. -/
def CBlock.AmountsFit (block : CBlock) : Prop :=
  ∀ tx ∈ block.vtx, ∀ txin ∈ tx.vin, IssuanceFits txin

/-- A state before supervision is active whose coins hold positive amounts. -/
structure SupervisedState.Funded (env : ChainEnv) (B : env.amounts.Binding)
    (st : SupervisedState) : Prop where
  /-- Supervision is not active. -/
  initial : st.Initial env
  /-- Every coin can be spent and holds an amount of an asset. -/
  coins : ∀ e ∈ st.coins.toList, isUnspendable e.2.out.scriptPubKey = false ∧
    ∃ a v, B.Holds e.2.out a v ∧ 0 < v

/-- Every coin holds an amount of an asset, and every supervised asset was issued. -/
structure SupervisedState.Accounted (env : ChainEnv) (B : env.amounts.Binding)
    (st : SupervisedState) : Prop where
  coins : ∀ e ∈ st.coins.toList, B.Unspent env.crypto e.2.out
  registry : st.registry.Named env.crypto

/-- Two lists have the same root. -/
def Crypto.Collide (crypto : Crypto) (l l' : List Uint256) : Prop :=
  l ≠ l' ∧ crypto.fastMerkleRoot l = crypto.fastMerkleRoot l'

def AmountCrypto.Binding.fees {amounts : AmountCrypto} (B : amounts.Binding) (tx : CTransaction)
    (a : CAsset) : ℤ :=
  ((tx.vout.filter CTxOut.isFee).map fun out => B.amount out a).sum

structure ConservesBlock (env : ChainEnv) (B : env.amounts.Binding) (st : SupervisedState)
    (block : CBlock) (st' : SupervisedState) (undo : CBlockUndo) : Prop where
  transactions : ∀ p ∈ block.vtx.tail.zip undo, env.Conserves B (st.height + 1) p.1 p.2
  /-- A coin that holds nothing is in the clear and in the asset of a supervised issuance. If
  this is a reissuance token as well, two hashes collide. -/
  zeros : ∀ e ∈ st'.coins.toList, (∀ a, B.amount e.2.out a = 0) →
    ∃ (desc : SupervisionDescriptor) (txin : CTxIn), txin.isNewIssuance = true ∧
      e.2.out.explicit? = some (issuedAsset env.crypto (some desc) txin, 0) ∧
      ∀ entropy fConfidential, issuedAsset env.crypto (some desc) txin =
          calculateReissuanceToken env.crypto entropy fConfidential →
        env.crypto.Collide [issuanceEntropy env.crypto (some desc) txin, 0]
          [entropy, tokenLeaf fConfidential]
  coinbase : ∀ tx ∈ block.vtx.head?, ∀ a, (tx.vout.map fun out => B.amount out a).sum ≤
    (block.vtx.tail.map fun tx => B.fees tx a).sum +
      if env.params.subsidyAsset = a then env.params.blockSubsidy (st.height + 1) else 0

section Coinbase

variable {env : ChainEnv} {B : env.amounts.Binding}

theorem amount_of_explicit? {out : CTxOut} {a : CAsset} {v : ℤ}
    (hexplicit : out.explicit? = some (a, v)) (b : CAsset) :
    B.amount out b = if a = b then v else 0 := by
  obtain ⟨hasset, hvalue⟩ := CTxOut.explicit?_eq_some hexplicit
  have hknown : B.asset? out.nAsset = some a := by
    rw [hasset]
    exact B.generate a
  simp only [amount, hknown, hvalue, valueIn, Option.some.injEq]

theorem postedTo_explicit {outs : List CTxOut}
    (hexplicit : ∀ out ∈ outs, out.explicit?.isSome = true) (a : CAsset) :
    postedTo (outs.filterMap CTxOut.explicit?) a = (outs.map fun out => B.amount out a).sum := by
  induction outs with
  | nil => rfl
  | cons out outs ih =>
    rw [forall_mem_cons] at hexplicit
    obtain ⟨⟨b, v⟩, hout⟩ := Option.isSome_iff_exists.mp hexplicit.1
    rw [filterMap_cons_some hout, postedTo_cons, ih hexplicit.2, map_cons, sum_cons,
      amount_of_explicit? hout]

theorem explicit?_of_isFee {out : CTxOut} (hfee : out.isFee = true) :
    out.explicit?.isSome = true := by
  simp only [CTxOut.isFee, Bool.and_eq_true] at hfee
  obtain ⟨⟨-, hvalue⟩, hasset⟩ := hfee
  unfold CTxOut.explicit?
  cases hv : out.nValue <;> cases ha : out.nAsset <;>
    simp_all [CConfidentialValue.isExplicit, CConfidentialAsset.isExplicit]

theorem postedTo_fee? (tx : CTransaction) (a : CAsset) :
    postedTo (tx.vout.filterMap CTxOut.fee?) a = B.fees tx a := by
  have hfilter : tx.vout.filterMap CTxOut.fee? =
      (tx.vout.filter CTxOut.isFee).filterMap CTxOut.explicit? := by
    rw [filterMap_filter]
    rfl
  rw [hfilter, postedTo_explicit fun out hout => explicit?_of_isFee (of_mem_filter hout)]
  rfl

theorem getD_feeMap {registry : SupervisionRegistry} {height : ℕ}
    {pairs : List (CTransaction × CTxUndo)} {feeMap : CAmountMap}
    (hfold : pairs.foldlM (fun feeMap p =>
      checkTxInputs env registry height feeMap p.1 p.2) ∅ = .ok feeMap) (a : CAsset) :
    feeMap.getD a 0 = (pairs.map fun p => B.fees p.1 a).sum := by
  refine foldlM_induction (fun done (feeMap : CAmountMap) =>
    feeMap.getD a 0 = (done.map fun p => B.fees p.1 a).sum) ?_ rfl hfold
  intro done feeMap p feeMap' hdone hcheck
  rw [(acceptedInputs_of_checkTxInputs hcheck).fees, addFeeMap, getD_foldl_tally, hdone,
    postedTo_fee? (B := B)]
  simp

theorem getD_nonneg {params : Params} {m : CAmountMap}
    (hrange : CAmountMap.moneyRange params m = true) (a : CAsset) : 0 ≤ m.getD a 0 := by
  rw [ExtTreeMap.getD_eq_getD_getElem?]
  cases hget : m[a]? with
  | none => exact Int.le_refl 0
  | some v =>
    have hmem := ExtTreeMap.mem_toList_iff_getElem?_eq_some.mpr hget
    exact (moneyRange_lt (all_eq_true.mp hrange (a, v) hmem)).1

variable {st st' : SupervisedState} {block : CBlock} {undo : CBlockUndo}

theorem unspent_of_coinbaseOutput {out : CTxOut} (hout : coinbaseOutput env.params out = true)
    (hspendable : isUnspendable out.scriptPubKey = false) : B.Unspent env.crypto out := by
  unfold coinbaseOutput at hout
  split at hout
  · next a v hexplicit =>
    obtain ⟨hasset, hvalue⟩ := CTxOut.explicit?_eq_some hexplicit
    simp only [Bool.and_eq_true, hspendable, Bool.not_false, Bool.and_true] at hout
    obtain ⟨hrange, hne⟩ := hout
    obtain ⟨hnonneg, hlt⟩ := moneyRange_lt hrange
    refine ⟨hspendable, a, v, holds_explicit hasset hvalue hnonneg hlt, fun h => ?_⟩
    simp [h] at hne
  · cases hout

theorem AcceptedBlock.verifyCoinbase (haccepted : AcceptedBlock env st block st' undo) :
    ∃ feeMap : CAmountMap,
      (∀ a, feeMap.getD a 0 = (block.vtx.tail.map fun tx => B.fees tx a).sum) ∧
      ∀ tx ∈ block.vtx.head?,
        verifyCoinbaseAmount env.params tx (env.blockReward feeMap (st.height + 1)) = true := by
  obtain ⟨feeMap, hfold, hcheck⟩ := haccepted.inputs
  refine ⟨feeMap, fun a => ?_, fun tx htx => ?_⟩
  · have hlength : block.vtx.tail.length ≤ undo.length := by
      have := haccepted.connected.undo_length
      rw [length_tail]
      omega
    rw [getD_feeMap (B := B) hfold a]
    conv_rhs => rw [← map_fst_zip hlength, map_map]
    rfl
  · simp only [checkCoinbase, ite_error_eq_ok] at hcheck
    have hall : ((block.vtx.take 1).all fun tx =>
        verifyCoinbaseAmount env.params tx (env.blockReward feeMap (st.height + 1))) = true := by
      simpa using hcheck.2.1
    refine all_eq_true.mp hall tx ?_
    cases hvtx : block.vtx with
    | nil =>
      rw [hvtx] at htx
      cases htx
    | cons coinbase txs =>
      rw [hvtx] at htx
      cases htx
      exact mem_singleton.mpr rfl

theorem AcceptedBlock.coinbase_le (haccepted : AcceptedBlock env st block st' undo)
    {tx : CTransaction} (htx : tx ∈ block.vtx.head?) (a : CAsset) :
    (tx.vout.map fun out => B.amount out a).sum ≤
      (block.vtx.tail.map fun tx => B.fees tx a).sum +
        if env.params.subsidyAsset = a then env.params.blockSubsidy (st.height + 1) else 0 := by
  obtain ⟨feeMap, hfees, hverify⟩ := haccepted.verifyCoinbase (B := B)
  have hcoinbase := hverify tx htx
  simp only [verifyCoinbaseAmount, Bool.and_eq_true] at hcoinbase
  obtain ⟨⟨-, houts⟩, hrange⟩ := hcoinbase
  have hexplicit : ∀ out ∈ tx.vout, out.explicit?.isSome = true := by
    intro out hout
    have := all_eq_true.mp houts out hout
    unfold coinbaseOutput at this
    split at this
    · next heq => rw [heq]; rfl
    · cases this
  have hfold : ∀ (l : List (CAsset × ℤ)) (m : CAmountMap),
      (l.foldl (fun (m : CAmountMap) p => tally m p.1 (-p.2)) m).getD a 0 =
        m.getD a 0 - postedTo l a := by
    intro l
    induction l with
    | nil =>
      intro m
      simp [postedTo]
    | cons p l ih =>
      intro m
      rw [foldl_cons, ih, getD_tally, postedTo_cons]
      split <;> omega
  have hnonneg := getD_nonneg hrange a
  rw [hfold, postedTo_explicit (B := B) hexplicit, ChainEnv.blockReward, getD_tally,
    hfees] at hnonneg
  omega

end Coinbase

section Chain

variable {env : ChainEnv} {B : env.amounts.Binding} {st st' : SupervisedState} {block : CBlock}
  {undo : CBlockUndo}

theorem SupervisedState.Funded.accounted (hfunded : st.Funded env B) : st.Accounted env B where
  coins e he := by
    obtain ⟨hspendable, a, v, hholds, hpos⟩ := hfunded.coins e he
    exact ⟨hspendable, a, v, hholds, fun h => by omega⟩
  registry a ha := by simp [hfunded.initial.registry] at ha

variable (haccepted : AcceptedBlock env st block st' undo)

include haccepted

theorem AcceptedBlock.unspent (hnamed : st.registry.Named env.crypto) {p : CTransaction × CTxUndo}
    (hp : p ∈ block.vtx.tail.zip undo) {out : CTxOut} (hout : out ∈ p.1.vout)
    (hsound : B.Sound (env.params.supervisionActive (st.height + 1)) out)
    (hspendable : isUnspendable out.scriptPubKey = false) : B.Unspent env.crypto out := by
  obtain ⟨a, v, hholds, hzero⟩ := hsound
  refine ⟨hspendable, a, v, hholds, fun hv => ?_⟩
  rcases hzero hv with hunspendable | ⟨hactive, hvalue, hsupervision⟩
  · rw [hspendable] at hunspendable
    cases hunspendable
  · obtain ⟨declaration, htx⟩ := haccepted.supervisedTx hactive p hp
    obtain ⟨b, hasset, hname⟩ := htx.named hnamed hout hsupervision
    have heq : a = b := by
      have := hholds.asset
      rw [hasset] at this
      exact (Option.some.inj ((B.generate b).symm.trans this)).symm
    rw [heq]
    exact ⟨hvalue, hasset, hname⟩

/-- What an accepted block does to the coins: they keep holding amounts of assets, and so do
those spent on the way. -/
theorem AcceptedBlock.accounted
    (hfits : block.AmountsFit) (hhardened : env.HardenedAt (st.height + 1))
    (hst : st.Accounted env B) :
    st'.Accounted env B ∧ ∀ p ∈ block.vtx.tail.zip undo,
      (∀ q ∈ p.1.vin.zip p.2, q.1.isPegin = false → B.Unspent env.crypto q.2.out) ∧
        p.2.length = p.1.vin.length := by
  obtain ⟨feeMap, -, hcoinbase⟩ := haccepted.verifyCoinbase (B := B)
  obtain ⟨hspent, hcoins⟩ := connectCoins_forall haccepted.coins hst.coins
    (fun tx htx out hout hspendable => by
      have hverify := hcoinbase tx htx
      simp only [verifyCoinbaseAmount, Bool.and_eq_true, all_eq_true] at hverify
      exact unspent_of_coinbaseOutput (hverify.1.2 out hout) hspendable)
    (fun p hp hspent out hout hspendable => by
      obtain ⟨feeMap, feeMap', hinputs⟩ := haccepted.acceptedInputs p hp
      have hmem := mem_of_mem_tail (of_mem_zip hp).1
      have hsound := (hinputs.conserves (hfits p.1 hmem) hspent).1 out hout
      exact haccepted.unspent hst.registry hp hout hsound hspendable)
  exact ⟨⟨hcoins, haccepted.named hhardened hst.registry⟩, hspent⟩

theorem AcceptedBlock.isNull_of_skipped
    (hhardened : env.HardenedAt (st.height + 1)) {p : CTransaction × CTxUndo}
    (hp : p ∈ block.vtx.tail.zip undo) {q : CTxIn × CTxOut}
    (hq : q ∈ env.spentOutputs p.1 p.2)
    (hskipped : B.Skipped (env.params.supervisionActive (st.height + 1)) q.2) :
    q.1.assetIssuance.isNull = true := by
  obtain ⟨hactive, hsupervision, -⟩ := hskipped
  have hchecks := haccepted.hardening (hhardened hactive)
  simp only [checkSupervisionHardening, ite_error_eq_ok] at hchecks
  obtain ⟨hissuance, -⟩ := hchecks
  obtain ⟨coin, hmem, hout⟩ := mem_spentOutputs.mp hq
  have hscript := (spentOutput_cases hout).1
  have hrecord : (parseSupervisionRecordScript coin.out.scriptPubKey).isSome = true := by
    rw [← hscript]
    unfold isSupervisionOutput at hsupervision
    split at hsupervision
    · split at hsupervision
      · next decl hdecl =>
        have hundo : coin ∈ undo.flatten :=
          mem_flatten.mpr ⟨p.2, (of_mem_zip hp).2, (of_mem_zip hmem).2⟩
        rw [hscript, haccepted.not_declaration hundo] at hdecl
        cases hdecl
      · split at hsupervision
        · next record hrecord =>
          rw [hrecord]
          rfl
        · cases hsupervision
    · cases hsupervision
  by_contra hnull
  refine hissuance (any_eq_true.mpr ⟨p, hp, any_eq_true.mpr ⟨(q.1, coin), hmem, ?_⟩⟩)
  rw [Bool.and_eq_true, hrecord]
  exact ⟨by simpa using hnull, rfl⟩

omit haccepted

theorem tokenLeaf_ne_zero (fConfidential : Bool) : tokenLeaf fConfidential ≠ 0 := by
  cases fConfidential <;> decide

end Chain

/-- What conserves amounts along a chain: the hardening is in force wherever supervision is. -/
structure KeepsAmounts (env : ChainEnv) (st : SupervisedState) (block : CBlock) : Prop where
  hardened : env.HardenedAt (st.height + 1)
  fits : block.AmountsFit

/-- Along a chain under the hardening every coin holds an amount of an asset. -/
theorem SupervisedChain.accounted {env : ChainEnv} {B : env.amounts.Binding}
    {Start : SupervisedState → Prop} {Admits : SupervisedState → CBlock → Prop}
    {st : SupervisedState} (hstart : ∀ st, Start st → st.Funded env B)
    (hadmits : ∀ st block, Admits st block → KeepsAmounts env st block)
    (hchain : SupervisedChain env Start Admits st) : st.Accounted env B := by
  induction hchain with
  | start h => exact (hstart _ h).accounted
  | block hchain hblock hconnect ih =>
    have hkeeps := hadmits _ _ hblock
    exact ((acceptedBlock_of_connectBlock hconnect).accounted hkeeps.fits hkeeps.hardened ih).1

/-- Under the hardening every accepted block conserves amounts. -/
theorem accepted_block_conserves {env : ChainEnv} {B : env.amounts.Binding}
    {st st' : SupervisedState} {block : CBlock} {undo : CBlockUndo}
    (hchain : SupervisedChain env (SupervisedState.Funded env B) (KeepsAmounts env) st)
    (hkeeps : KeepsAmounts env st block)
    (hconnect : st.connectBlock env block = .ok (st', undo)) :
    ConservesBlock env B st block st' undo := by
  have haccepted := acceptedBlock_of_connectBlock hconnect
  have hst := hchain.accounted (fun _ h => h) (fun _ _ h => h)
  obtain ⟨hst', hspent⟩ := haccepted.accounted hkeeps.fits hkeeps.hardened hst
  refine ⟨fun p hp => ?_, fun e he hzero => ?_, fun tx htx => haccepted.coinbase_le htx⟩
  · obtain ⟨feeMap, feeMap', hinputs⟩ := haccepted.acceptedInputs p hp
    have hmem := mem_of_mem_tail (of_mem_zip hp).1
    exact (hinputs.conserves (hkeeps.fits p.1 hmem) (hspent p hp).1).2
      (fun q hq => haccepted.isNull_of_skipped hkeeps.hardened hp hq) (hspent p hp).2
  · obtain ⟨-, a, v, hholds, hzeros⟩ := hst'.coins e he
    have hv : v = 0 := by rw [← hholds.amount_self, hzero]
    obtain ⟨hvalue, hasset, desc, txin, hissues, rfl⟩ := hzeros hv
    refine ⟨desc, txin, hissues, by rw [CTxOut.explicit?, hasset, hvalue], ?_⟩
    intro entropy fConfidential heq
    refine ⟨fun h => ?_, heq⟩
    exact tokenLeaf_ne_zero fConfidential (List.cons.inj (List.cons.inj h).2).1.symm

/-- The sample chain with the hardening still ahead. -/
def softEnv : ChainEnv :=
  { sampleEnv with params := { sampleParams with posHardeningHeight := 20 } }

/-- What the commitments of the sample chains hold. -/
def sampleBinding : sampleEnv.amounts.Binding := transparentBinding fun _ => none

/-- A target of the sample asset is frozen. -/
def freezeBlock : CBlock :=
  recordBlock 32 21 (by decide) ⟨20, 0⟩ [signedRecord .freeze 78 0 (sampleKey 0) ⟨20, 0⟩]

/-- The record is spent by an input that issues 50 of another asset, and no output holds any. -/
def skippedIssuanceBlock : CBlock where
  vtx := [emptyCoinbase 32,
    { txid := 22
      vin := [{ prevout := ⟨21, 1⟩
                scriptSig := pushBytes ((sampleKey 0).bytes ++
                  (supervisionUnfreezeSigHash transparentCrypto ⟨21, 1⟩ sampleAsset 78).bytes)
                assetIssuance := ⟨0, 0, .explicit 50, .null⟩ },
        { prevout := ⟨21, 0⟩ }]
      vout := [⟨.explicit 1, .explicit 10, openScript⟩] }]
  txids_nodup := by decide

theorem supervisedStart_coins : ∀ e ∈ supervisedStart.coins.toList,
    isUnspendable e.2.out.scriptPubKey = false ∧ e.2.out.nAsset = .explicit 1 ∧
      (e.2.out.nValue = .explicit 10 ∨ e.2.out.nValue = .explicit 5) := by
  decide +kernel

theorem supervisedStart_funded {env : ChainEnv} (B : env.amounts.Binding)
    (hinitial : supervisedStart.Initial env) : supervisedStart.Funded env B where
  initial := hinitial
  coins e he := by
    obtain ⟨hspendable, hasset, hvalue | hvalue⟩ := supervisedStart_coins e he
    · exact ⟨hspendable, 1, 10, holds_explicit hasset hvalue (by decide) (by decide), by decide⟩
    · exact ⟨hspendable, 1, 5, holds_explicit hasset hvalue (by decide) (by decide), by decide⟩

instance (block : CBlock) : Decidable block.AmountsFit :=
  inferInstanceAs (Decidable (∀ tx ∈ block.vtx, ∀ txin ∈ tx.vin, IssuanceFits txin))

/-- Before the hardening an issuance on a record is accepted and skipped: the transaction issues
50 of an asset, and its outputs hold none. -/
theorem skipped_issuance_accepted : ∃ st st' undo,
    SupervisedChain softEnv (SupervisedState.Funded softEnv sampleBinding)
      (fun _ block => block.AmountsFit) st ∧
    skippedIssuanceBlock.AmountsFit ∧
    st.connectBlock softEnv skippedIssuanceBlock = .ok (st', undo) ∧
    ¬ ConservesBlock softEnv sampleBinding st skippedIssuanceBlock st' undo := by
  let issued := issuedAsset transparentCrypto none
    { prevout := ⟨21, 1⟩, assetIssuance := ⟨0, 0, .explicit 50, .null⟩ }
  obtain ⟨⟨st₁, undo₁⟩, hissuance, hrun⟩ := exists_ok
    (supervisedStart.connectBlock softEnv issuanceBlock)
    (fun r₁ => (r₁.1.connectBlock softEnv freezeBlock).toOption.any fun r₂ =>
      (r₂.1.connectBlock softEnv skippedIssuanceBlock).toOption.any fun r =>
        (skippedIssuanceBlock.vtx.tail.zip r.2).any fun p =>
          ((softEnv.spentOutputs p.1 p.2).map fun q => sampleBinding.amount q.2 issued +
            sampleBinding.issued softEnv.crypto (softEnv.supervisionOf (r₂.1.height + 1) p.1)
              q.1 issued).sum = 50 ∧
            (p.1.vout.map fun out => sampleBinding.amount out issued).sum = 0)
    (by decide +kernel)
  obtain ⟨⟨st, undo₂⟩, hfreeze, hrun⟩ := exists_ok _ _ hrun
  obtain ⟨⟨st', undo⟩, hskipped, hrun⟩ := exists_ok _ _ hrun
  have hinitial : supervisedStart.Initial softEnv := ⟨rfl, supervisedStart_initial.heights, rfl⟩
  refine ⟨st, st', undo, .block (.block (.start (supervisedStart_funded _ hinitial))
    (by decide +kernel) hissuance) (by decide +kernel) hfreeze, by decide +kernel, hskipped,
    fun hconserves => ?_⟩
  obtain ⟨p, hp, hsums⟩ := any_eq_true.mp hrun
  simp only [decide_eq_true_eq] at hsums
  have hbalance := (hconserves.transactions p hp).balance issued
  have hne : (50 : ℤ) = 0 := (hsums.1.symm.trans hbalance).trans hsums.2
  cases hne

/-- The block that issues the sample asset conserves amounts. -/
theorem accepted_block_conserves_issued : ∃ st undo,
    supervisedStart.connectBlock sampleEnv issuanceBlock = .ok (st, undo) ∧
      ConservesBlock sampleEnv sampleBinding supervisedStart issuanceBlock st undo := by
  obtain ⟨p, hissuance, -⟩ := exists_ok (supervisedStart.connectBlock sampleEnv issuanceBlock)
    (fun _ => true) (by decide +kernel)
  exact ⟨p.1, p.2, hissuance, accepted_block_conserves
    (.start (supervisedStart_funded _ supervisedStart_initial))
    ⟨hardenedAt_sampleEnv _, by decide +kernel⟩ hissuance⟩

end Sequentia
