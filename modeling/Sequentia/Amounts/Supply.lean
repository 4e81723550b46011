import Sequentia.Amounts.Conservation
import Sequentia.CoinsSums
import Sequentia.Lib.Quorums

/-!
# The supply of an asset

The supply of an asset is what the UTXO set holds of it. Over a chain of accepted blocks under the
hardening it grows by no more than what was issued, what was pegged in and the block subsidies,
whatever is hidden.
-/

namespace Sequentia

open Std Checks AmountCrypto.Binding Quorums List

section Supply

variable (env : ChainEnv) (B : env.amounts.Binding)

/-- What the unspent outputs hold of an asset. -/
def SupervisedState.supply (st : SupervisedState) (a : CAsset) : ℤ :=
  sumOf (B.amount · a) st.coins.toList

/-- What a transaction brings in: its issuances and peg-ins. -/
def ChainEnv.broughtIn (height : ℕ) (tx : CTransaction) (spent : List Coin) (a : CAsset) : ℤ :=
  ((env.spentOutputs tx spent).map fun p => (if p.1.isPegin then B.amount p.2 a else 0) +
    B.issued env.crypto (env.supervisionOf height tx) p.1 a).sum

/-- What a block brings in, with its subsidy. -/
def ChainEnv.minted (height : ℕ) (block : CBlock) (undo : CBlockUndo) (a : CAsset) : ℤ :=
  ((block.vtx.tail.zip undo).map fun p => env.broughtIn B height p.1 p.2 a).sum +
    if env.params.subsidyAsset = a then env.params.blockSubsidy height else 0

/-- A chain of accepted blocks, with the supply it started from and all that was brought in. -/
inductive MintedChain : SupervisedState → (CAsset → ℤ) → Prop
  | start {st : SupervisedState} (hstart : st.Funded env B) :
      MintedChain st fun a => st.supply env B a
  | block {st st' : SupervisedState} {block : CBlock} {undo : CBlockUndo} {total : CAsset → ℤ}
      (hchain : MintedChain st total) (hkeeps : KeepsAmounts env st block)
      (hconnect : st.connectBlock env block = .ok (st', undo)) :
      MintedChain st' fun a => total a + env.minted B (st.height + 1) block undo a

end Supply

variable {env : ChainEnv} {B : env.amounts.Binding} {st st' : SupervisedState} {block : CBlock}
  {undo : CBlockUndo} {tx : CTransaction} {height : ℕ} {a : CAsset}

/-- What can be spent of the outputs is what they hold less the fees, or less. -/
theorem sumOf_createdEntries_le (hnonneg : ∀ out ∈ tx.vout, 0 ≤ B.amount out a) :
    sumOf (B.amount · a) (createdEntries height tx) + B.fees tx a ≤
      (tx.vout.map fun out => B.amount out a).sum := by
  have hle := weightOf_add_le (p := fun out => !isUnspendable out.scriptPubKey) (q := CTxOut.isFee)
    hnonneg
  have hnone : tx.vout.filter (fun out => !isUnspendable out.scriptPubKey && out.isFee) = [] := by
    refine filter_eq_nil_iff.mpr fun out _ hboth => ?_
    simp only [CTxOut.isFee, isUnspendable, Bool.and_eq_true] at hboth
    simp [hboth.2.1.1] at hboth
  have hzero : weightOf (B.amount · a)
      (fun out => !isUnspendable out.scriptPubKey && out.isFee) tx.vout = 0 := by
    rw [weightOf, hnone]
    rfl
  rw [hzero, Int.add_zero] at hle
  rw [sumOf_createdEntries]
  exact hle

/-- What the outputs spent hold is what the coins held and what was pegged in. -/
theorem sum_spentOutputs {spent : List Coin} :
    ((env.spentOutputs tx spent).map fun p =>
        B.amount p.2 a + B.issued env.crypto (env.supervisionOf height tx) p.1 a).sum =
      sumOf (B.amount · a) (spentEntries tx spent) + env.broughtIn B height tx spent a := by
  unfold sumOf ChainEnv.broughtIn ChainEnv.spentOutputs spentEntries
  generalize env.supervisionOf height tx = supervision
  induction tx.vin.zip spent with
  | nil => rfl
  | cons p l ih =>
    by_cases hpegin : p.1.isPegin = true
    · cases hout : env.spentOutput p.1 p.2 <;> simp [hout, hpegin, ih]
      omega
    · have hout : env.spentOutput p.1 p.2 = some p.2.out := if_neg hpegin
      simp [hout, hpegin, ih]
      omega

theorem amount_nonneg_of_coinbaseOutput {out : CTxOut}
    (hout : coinbaseOutput env.params out = true) : 0 ≤ B.amount out a := by
  unfold coinbaseOutput at hout
  split at hout
  · next b v hexplicit =>
    rw [amount_of_explicit? hexplicit]
    split
    · exact (moneyRange_lt (Bool.and_eq_true_iff.mp hout).1).1
    · exact Int.le_refl 0
  · cases hout

section Block

variable (haccepted : AcceptedBlock env st block st' undo)

include haccepted

/-- The coinbase creates no more than fees and subsidy. -/
theorem AcceptedBlock.sumOf_coinbase_le (htx : tx ∈ block.vtx.head?) :
    sumOf (B.amount · a) (createdEntries (st.height + 1) tx) ≤
      (block.vtx.tail.map fun tx => B.fees tx a).sum +
      if env.params.subsidyAsset = a then env.params.blockSubsidy (st.height + 1) else 0 := by
  obtain ⟨feeMap, -, hcoinbase⟩ := haccepted.verifyCoinbase (B := B)
  have hverify := hcoinbase tx htx
  simp only [verifyCoinbaseAmount, Bool.and_eq_true, all_eq_true] at hverify
  have hnonneg : ∀ out ∈ tx.vout, 0 ≤ B.amount out a := fun out hout =>
    amount_nonneg_of_coinbaseOutput (hverify.1.2 out hout)
  have hfees : 0 ≤ B.fees tx a := by
    refine sum_nonneg fun v hv => ?_
    obtain ⟨out, hout, rfl⟩ := mem_map.mp hv
    exact hnonneg out (mem_of_mem_filter hout)
  have hpays := haccepted.coinbase_le (B := B) htx a
  have hle : sumOf (B.amount · a) (createdEntries (st.height + 1) tx) + B.fees tx a ≤ _ :=
    sumOf_createdEntries_le hnonneg
  omega

/-- Any other transaction creates no more than it spends and brings in, less its fees. -/
theorem AcceptedBlock.sumOf_created_le (hkeeps : KeepsAmounts env st block)
    (hst : st.Accounted env B) {p : CTransaction × CTxUndo} (hp : p ∈ block.vtx.tail.zip undo) :
    sumOf (B.amount · a) (createdEntries (st.height + 1) p.1) + B.fees p.1 a ≤
      sumOf (B.amount · a) (spentEntries p.1 p.2) + env.broughtIn B (st.height + 1) p.1 p.2 a := by
  have hspent := (haccepted.accounted hkeeps.fits hkeeps.hardened hst).2 p hp
  obtain ⟨feeMap, feeMap', hinputs⟩ := haccepted.acceptedInputs p hp
  obtain ⟨hsound, hconserves⟩ :=
    hinputs.conserves (hkeeps.fits p.1 (mem_of_mem_tail (of_mem_zip hp).1)) hspent.1
  have hskipped := fun q hq => haccepted.isNull_of_skipped (B := B) (q := q) hkeeps.hardened hp hq
  rw [← sum_spentOutputs, (hconserves hskipped hspent.2).balance a]
  refine sumOf_createdEntries_le fun out hout => ?_
  obtain ⟨b, v, hholds, -⟩ := hsound out hout
  rw [hholds.amount]
  split
  · exact hholds.nonneg
  · exact Int.le_refl 0

/-- The supply grows by no more than what a block brings in. -/
theorem AcceptedBlock.supply_le (hkeeps : KeepsAmounts env st block) (hst : st.Accounted env B) :
    st'.supply env B a ≤ st.supply env B a + env.minted B (st.height + 1) block undo a := by
  obtain ⟨coinbase, hhead, hdelta⟩ := haccepted.connected.sumOf_eq (B.amount · a)
  have hcoinbase := haccepted.sumOf_coinbase_le (B := B) (a := a) hhead
  have hsum := sum_le_sum fun p hp => haccepted.sumOf_created_le (a := a) hkeeps hst (p := p) hp
  rw [← haccepted.connected.map_fst_zip, map_map] at hcoinbase
  rw [sum_map_add, sum_map_add] at hsum
  simp only [SupervisedState.supply, ChainEnv.minted, Function.comp_def] at hcoinbase ⊢
  omega

end Block

/-- The supply of an asset is at most what was there and what was brought in. -/
theorem supply_le_minted {total : CAsset → ℤ} (hchain : MintedChain env B st total) (a : CAsset) :
    st.supply env B a ≤ total a := by
  suffices hboth : st.Accounted env B ∧ ∀ a, st.supply env B a ≤ total a from hboth.2 a
  induction hchain with
  | start hstart => exact ⟨hstart.accounted, fun a => Int.le_refl _⟩
  | block _ hkeeps hconnect ih =>
    have haccepted := acceptedBlock_of_connectBlock hconnect
    refine ⟨(haccepted.accounted hkeeps.fits hkeeps.hardened ih.1).1, fun a => ?_⟩
    exact Int.le_trans (haccepted.supply_le hkeeps ih.1) (Int.add_le_add_right (ih.2 a) _)

/-- The block that issues the sample asset. -/
theorem supply_le_minted_issued : ∃ st undo,
    supervisedStart.connectBlock sampleEnv issuanceBlock = .ok (st, undo) ∧
      ∀ a, st.supply sampleEnv sampleBinding a ≤ supervisedStart.supply sampleEnv sampleBinding a +
        sampleEnv.minted sampleBinding (supervisedStart.height + 1) issuanceBlock undo a := by
  obtain ⟨p, hissuance, -⟩ := exists_ok (supervisedStart.connectBlock sampleEnv issuanceBlock)
    (fun _ => true) (by decide +kernel)
  exact ⟨p.1, p.2, hissuance, supply_le_minted (.block
    (.start (supervisedStart_funded _ supervisedStart_initial))
    ⟨hardenedAt_sampleEnv _, by decide +kernel⟩ hissuance)⟩

end Sequentia
