import Mathlib.Algebra.Order.BigOperators.Group.List
import Mathlib.Data.List.Pairwise
import Sequentia.Amounts.Conservation
import Sequentia.CoinsReaders

/-!
# Supervised assets in the clear

No unspent output hides an amount of a supervised asset. An output in an asset has its source
in an input that spends the asset or issues it, so the rules on what touches a supervised
asset carry the fact along. They read the registry of the parent block: for an asset that the
block itself declares, the transactions of the block have to keep the rule of their own
accord.
-/

namespace Sequentia

open Std AmountCrypto.Binding List

/-- The output hides neither its asset nor its amount. -/
def CTxOut.InClear (out : CTxOut) : Prop :=
  out.nAsset.isExplicit = true ∧ out.nValue.isExplicit = true

/-- The assets and reissuance tokens that a transaction issues for the first time. -/
def ChainEnv.newIds (env : ChainEnv) (height : ℕ) (tx : CTransaction) : List CAsset :=
  (tx.vin.filter CTxIn.isNewIssuance).flatMap fun txin =>
    [issuedAsset env.crypto (env.supervisionOf height tx) txin,
      issuedToken env.crypto (env.supervisionOf height tx) txin]

/-- What is issued for the first time is new. Its names are hashes over the output that the
issuance spends, so this excludes collisions. -/
structure SupervisedState.FreshIssuances (env : ChainEnv) (B : env.amounts.Binding)
    (st : SupervisedState) (block : CBlock) : Prop where
  nodup : (block.vtx.tail.flatMap (env.newIds (st.height + 1))).Nodup
  unused : ∀ a ∈ block.vtx.tail.flatMap (env.newIds (st.height + 1)),
    a ≠ env.params.peggedAsset ∧ a ∉ st.registry ∧
      ∀ e ∈ st.coins.toList, B.asset? e.2.out.nAsset ≠ some a

/-- The input spends an output of the block in the asset, or reissues the asset. -/
def CBlock.moves (crypto : Crypto) (block : CBlock) (a : CAsset) (txin : CTxIn) : Bool :=
  (!txin.isPegin && block.vtx.any fun tx => tx.txid == txin.prevout.hash &&
      (tx.vout[txin.prevout.n]?).any fun out => out.nAsset == .explicit a) ||
    (txin.isReissuance && calculateAsset crypto txin.assetIssuance.assetEntropy == a)

/-- The transactions of a block that move an asset which the block declares hide nothing. -/
def CBlock.DeclaresInClear (crypto : Crypto) (block : CBlock) : Prop :=
  ∀ tx ∈ block.vtx.tail, ∀ a ∈ block.declared, tx.vin.any (block.moves crypto a) = true →
    ∀ out ∈ tx.vout, out.InClear

/-- What keeps supervised assets in the clear: the hardening is in force wherever supervision
is, issued assets are new, and those declared move in the clear in their first block. -/
structure KeepsInClear (env : ChainEnv) (B : env.amounts.Binding) (st : SupervisedState)
    (block : CBlock) : Prop extends KeepsAmounts env st block where
  fresh : st.FreshIssuances env B block
  inClear : block.DeclaresInClear env.crypto

section Source

variable {env : ChainEnv} {B : env.amounts.Binding} {height : ℕ} {tx : CTransaction}
  {spent : List Coin}

theorem asset?_explicit (a : CAsset) : B.asset? (.explicit a) = some a := B.generate a

/-- The asset behind an output that hides nothing is the one it names. -/
theorem CTxOut.InClear.asset_eq {out : CTxOut} (hclear : out.InClear) {a : CAsset}
    (hasset : B.asset? out.nAsset = some a) : out.nAsset = .explicit a := by
  cases hout : out.nAsset with
  | explicit b =>
    rw [hout, asset?_explicit] at hasset
    rw [Option.some.inj hasset]
  | null => simp [CTxOut.InClear, hout, CConfidentialAsset.isExplicit] at hclear
  | commitment bytes => simp [CTxOut.InClear, hout, CConfidentialAsset.isExplicit] at hclear

theorem inClear_of_coinbaseOutput {params : Params} {out : CTxOut}
    (hout : coinbaseOutput params out = true) : out.InClear := by
  unfold coinbaseOutput CTxOut.explicit? at hout
  cases hasset : out.nAsset <;> cases hvalue : out.nValue <;>
    simp_all [CTxOut.InClear, CConfidentialAsset.isExplicit, CConfidentialValue.isExplicit]

/-- An output that holds an amount of an asset has its source in an input that spends the asset
or issues it. -/
theorem ChainEnv.Conserves.exists_source (hconserves : env.Conserves B height tx spent)
    {supervisionActive : Bool} (hsound : ∀ out ∈ tx.vout, B.Sound supervisionActive out)
    (hspendable : ∀ p ∈ env.spentOutputs tx spent, B.Spendable p.2) {out : CTxOut}
    (hout : out ∈ tx.vout) {a : CAsset} (hpos : 0 < B.amount out a) :
    ∃ p ∈ env.spentOutputs tx spent, B.asset? p.2.nAsset = some a ∨
      (p.1.assetIssuance.isNull = false ∧
        (a = issuedAsset env.crypto (env.supervisionOf height tx) p.1 ∨
          (a = issuedToken env.crypto (env.supervisionOf height tx) p.1 ∧
            p.1.isReissuance = false))) := by
  have hnonneg : ∀ x ∈ tx.vout.map fun out => B.amount out a, 0 ≤ x := by
    intro x hx
    obtain ⟨out, hout, rfl⟩ := mem_map.mp hx
    obtain ⟨b, v, hholds, -⟩ := hsound out hout
    rw [hholds.amount a]
    split
    · exact hholds.nonneg
    · exact Int.le_refl 0
  have hle := single_le_sum hnonneg _ (mem_map_of_mem hout)
  rw [← hconserves.balance a] at hle
  have hne : ∃ p ∈ env.spentOutputs tx spent, B.amount p.2 a +
      B.issued env.crypto (env.supervisionOf height tx) p.1 a ≠ 0 := by
    by_contra hall
    have hzero : ((env.spentOutputs tx spent).map fun p => B.amount p.2 a +
        B.issued env.crypto (env.supervisionOf height tx) p.1 a).sum = 0 := by
      refine sum_eq_zero fun x hx => ?_
      obtain ⟨p, hp, rfl⟩ := mem_map.mp hx
      by_contra hx
      exact hall ⟨p, hp, hx⟩
    omega
  obtain ⟨p, hp, hne⟩ := hne
  refine ⟨p, hp, ?_⟩
  by_cases hissued : B.issued env.crypto (env.supervisionOf height tx) p.1 a = 0
  · left
    obtain ⟨b, v, hholds, -⟩ := hspendable p hp
    rw [hissued, Int.add_zero, hholds.amount a] at hne
    rw [hholds.asset]
    by_contra heq
    exact hne (if_neg fun h => heq (by rw [h]))
  · exact Or.inr (hconserves.issuesOwn p hp a hissued)

end Source

section Blocks

variable {env : ChainEnv} {B : env.amounts.Binding} {st st' : SupervisedState} {block : CBlock}
  {undo : CBlockUndo}

variable {p : CTransaction × CTxUndo} {a : CAsset}

variable (haccepted : AcceptedBlock env st block st' undo)

include haccepted

theorem AcceptedBlock.inClear_of_touches
    (hactive : env.params.supervisionActive (st.height + 1) = true)
    (hp : p ∈ block.vtx.tail.zip undo)
    (htouches : touchesSupervised env st.registry p.1 p.2 = true) :
    ∀ out ∈ p.1.vout, out.InClear := by
  obtain ⟨declaration, htx⟩ := haccepted.supervisedTx hactive p hp
  exact htx.explicit htouches

theorem AcceptedBlock.moves_of_spent (hp : p ∈ block.vtx.tail.zip undo) {txin : CTxIn} {coin : Coin}
    (hmem : (txin, coin) ∈ p.1.vin.zip p.2) (hpegin : txin.isPegin = false)
    (hasset : coin.out.nAsset = .explicit a)
    (hnew : ∀ e ∈ st.coins.toList, B.asset? e.2.out.nAsset ≠ some a) :
    p.1.vin.any (block.moves env.crypto a) = true := by
  obtain ⟨coinbase, -, hspends⟩ := haccepted.connected.spends_eq
  have hspent : (txin.prevout, coin) ∈ block.spentEntries undo := by
    refine mem_flatMap.mpr ⟨p, hspends ▸ mem_cons_of_mem _ hp, ?_⟩
    exact mem_map.mpr ⟨(txin, coin), mem_filter.mpr ⟨hmem, by simp [hpegin]⟩, rfl⟩
  rcases mem_append.mp (haccepted.connected.mem_of_spent hspent) with hold | hcreated
  · refine absurd ?_ (hnew _ hold)
    rw [hasset, asset?_explicit]
  · obtain ⟨tx, htx, hentry⟩ := mem_flatMap.mp hcreated
    obtain ⟨⟨out, n⟩, hout, heq⟩ := mem_map.mp (mem_of_mem_filter hentry)
    obtain ⟨houtpoint, hcoin⟩ := Prod.mk.inj heq
    have hget := mk_mem_zipIdx_iff_getElem?.mp hout
    refine any_eq_true.mpr ⟨txin, (of_mem_zip hmem).1, ?_⟩
    rw [CBlock.moves, Bool.or_eq_true, Bool.and_eq_true]
    refine Or.inl ⟨by simp [hpegin], any_eq_true.mpr ⟨tx, htx, ?_⟩⟩
    rw [← houtpoint, hget, Bool.and_eq_true]
    rw [← hcoin] at hasset
    exact ⟨beq_self_eq_true _, by simpa using hasset⟩

omit haccepted

/-- A new issuance of an asset that the block declares is the one declared: its transaction
hides nothing. -/
theorem HardenedBlock.inClear_of_newIds (hblock : HardenedBlock env st block st' undo)
    (hfresh : st.FreshIssuances env B block) (hp : p ∈ block.vtx.tail.zip undo)
    (ha : a ∈ block.declared) (hnew : a ∈ env.newIds (st.height + 1) p.1) :
    ∀ out ∈ p.1.vout, out.InClear := by
  obtain ⟨p', hp', decl, rfl, htx, hissuance⟩ := hblock.supervisedIssuance ha
  obtain ⟨txin, htxin, hissues, heq⟩ := hissuance.input
  have hsupervision : env.supervisionOf (st.height + 1) p'.1 = some decl.descriptor := by
    rw [ChainEnv.supervisionOf, if_pos hblock.active, htx.fromTx]
    rfl
  have hnew' : decl.asset ∈ env.newIds (st.height + 1) p'.1 := by
    refine mem_flatMap.mpr ⟨txin, mem_filter.mpr ⟨htxin, hissues⟩, ?_⟩
    rw [hsupervision, heq]
    exact mem_cons_self
  have hsame : p'.1 = p.1 := by
    by_contra hne
    have hsymm : Std.Symm (Function.onFun List.Disjoint (env.newIds (st.height + 1))) :=
      ⟨fun _ _ h _ ha hb => h hb ha⟩
    have hpairwise := (nodup_flatMap.mp hfresh.nodup).2
    exact hpairwise.forall (of_mem_zip hp').1 (of_mem_zip hp).1 hne hnew' hnew
  rw [← hsame]
  exact hissuance.explicit

def SupervisedState.Watches (env : ChainEnv) (st : SupervisedState) (block : CBlock)
    (a : CAsset) : Prop :=
  env.params.supervisionActive (st.height + 1) = true ∧ (a ∈ st.registry ∨ a ∈ block.declared)

/-- Every coin holds an amount of an asset, in the clear if the asset is supervised. -/
structure SupervisedState.InClear (env : ChainEnv) (B : env.amounts.Binding)
    (st : SupervisedState) : Prop extends st.Accounted env B where
  active : ∀ a ∈ st.registry, env.params.supervisionActive st.height = true
  notPegged : ∀ a ∈ st.registry, a ≠ env.params.peggedAsset
  inClear : ∀ e ∈ st.coins.toList, ∀ a ∈ st.registry, B.asset? e.2.out.nAsset = some a →
    e.2.out.InClear

/-- A declared asset is among those issued for the first time. -/
theorem HardenedBlock.mem_newIds (hblock : HardenedBlock env st block st' undo)
    (ha : a ∈ block.declared) : a ∈ block.vtx.tail.flatMap (env.newIds (st.height + 1)) := by
  obtain ⟨p, hp, decl, rfl, htx, hissuance⟩ := hblock.supervisedIssuance ha
  obtain ⟨txin, htxin, hissues, heq⟩ := hissuance.input
  refine mem_flatMap.mpr ⟨p.1, (of_mem_zip hp).1, mem_flatMap.mpr
    ⟨txin, mem_filter.mpr ⟨htxin, hissues⟩, ?_⟩⟩
  rw [ChainEnv.supervisionOf, if_pos hblock.active, htx.fromTx, heq]
  exact mem_cons_self

variable (haccepted : AcceptedBlock env st block st' undo)

include haccepted

theorem AcceptedBlock.inClear_of_source
    (hkeeps : KeepsInClear env B st block) (hst : st.InClear env B)
    (hwatched : st.Watches env block a) (hp : p ∈ block.vtx.tail.zip undo)
    (hspent : ∀ q ∈ p.1.vin.zip p.2, q.1.isPegin = false →
      B.asset? q.2.out.nAsset = some a → q.2.out.InClear) {q : CTxIn × CTxOut}
    (hq : q ∈ env.spentOutputs p.1 p.2)
    (hsource : B.asset? q.2.nAsset = some a ∨ (q.1.assetIssuance.isNull = false ∧
      (a = issuedAsset env.crypto (env.supervisionOf (st.height + 1) p.1) q.1 ∨
        (a = issuedToken env.crypto (env.supervisionOf (st.height + 1) p.1) q.1 ∧
          q.1.isReissuance = false)))) : ∀ out ∈ p.1.vout, out.InClear := by
  obtain ⟨hactive, hwatched⟩ := hwatched
  have hblock : HardenedBlock env st block st' undo :=
    ⟨haccepted, hactive, hkeeps.hardened hactive⟩
  have hdeclared := fun ha => hkeeps.fresh.unused a (hblock.mem_newIds ha)
  have hmem := (of_mem_zip hp).1
  obtain ⟨coin, hcoin, hout⟩ := mem_spentOutputs.mp hq
  rcases hsource with hasset | ⟨hnull, hissued⟩
  · -- The input spends an output in the asset, which is not a peg-in.
    rcases (spentOutput_cases hout).2 with ⟨hpegin, heq⟩ | ⟨-, hpegged, -⟩
    · rw [heq] at hasset
      have hexplicit := (hspent _ hcoin hpegin hasset).asset_eq hasset
      rcases hwatched with ha | ha
      · refine haccepted.inClear_of_touches hactive hp ?_
        rw [touchesSupervised, Bool.or_eq_true]
        refine Or.inl (any_eq_true.mpr ⟨(q.1, coin), hcoin, ?_⟩)
        dsimp only [spendsSupervised]
        rw [hpegin, hexplicit]
        exact isSupervised_iff.mpr ha
      · refine hkeeps.inClear p.1 hmem a ha ?_
        exact haccepted.moves_of_spent hp hcoin hpegin hexplicit (hdeclared ha).2.2
    · rw [hpegged, asset?_explicit, Option.some.injEq] at hasset
      rcases hwatched with ha | ha
      · exact absurd hasset.symm (hst.notPegged a ha)
      · exact absurd hasset.symm (hdeclared ha).1
  · have htxin := (of_mem_zip hcoin).1
    cases hreissues : q.1.isReissuance with
    | true =>
      -- The input reissues the asset.
      have heq : calculateAsset env.crypto q.1.assetIssuance.assetEntropy = a := by
        rcases hissued with heq | ⟨-, hnot⟩
        · simp only [CTxIn.isReissuance, Bool.and_eq_true, Bool.not_eq_true'] at hreissues
          rw [heq, issuedAsset]
          unfold issuanceEntropy
          rw [if_neg (by simp [hreissues.2])]
        · rw [hreissues] at hnot
          cases hnot
      rcases hwatched with ha | ha
      · refine haccepted.inClear_of_touches hactive hp ?_
        rw [touchesSupervised, Bool.or_eq_true]
        refine Or.inr (any_eq_true.mpr ⟨q.1, htxin, ?_⟩)
        rw [reissuesSupervised, hreissues, heq, isSupervised_iff.mpr ha]
        rfl
      · refine hkeeps.inClear p.1 hmem a ha (any_eq_true.mpr ⟨q.1, htxin, ?_⟩)
        rw [CBlock.moves, hreissues, heq, beq_self_eq_true, Bool.and_self, Bool.or_true]
    | false =>
      -- The input issues the asset for the first time.
      have hissues : q.1.isNewIssuance = true := by
        simp only [CTxIn.isReissuance, hnull, Bool.not_false, Bool.true_and,
          Bool.not_eq_false'] at hreissues
        simp [CTxIn.isNewIssuance, hnull, hreissues]
      have hnew : a ∈ env.newIds (st.height + 1) p.1 := by
        refine mem_flatMap.mpr ⟨q.1, mem_filter.mpr ⟨htxin, hissues⟩, ?_⟩
        rcases hissued with heq | ⟨heq, -⟩
        · rw [heq]
          exact mem_cons_self
        · rw [heq]
          exact mem_cons_of_mem _ mem_cons_self
      rcases hwatched with ha | ha
      · have hunused := hkeeps.fresh.unused a (mem_flatMap.mpr ⟨p.1, hmem, hnew⟩)
        exact absurd ha hunused.2.1
      · exact hblock.inClear_of_newIds hkeeps.fresh hp ha hnew

theorem AcceptedBlock.inClear
    (hkeeps : KeepsInClear env B st block) (hst : st.InClear env B) : st'.InClear env B := by
  obtain ⟨haccounted, hspent⟩ :=
    haccepted.accounted hkeeps.fits hkeeps.hardened hst.toAccounted
  have hunused := fun {a} hactive (ha : a ∈ block.declared) => hkeeps.fresh.unused a
    (HardenedBlock.mem_newIds ⟨haccepted, hactive, hkeeps.hardened hactive⟩ ha)
  have hcoinbase : ∀ tx ∈ block.vtx.head?, ∀ out ∈ tx.vout, out.InClear := by
    intro tx htx out hout
    obtain ⟨feeMap, -, hverify⟩ := haccepted.verifyCoinbase (B := B)
    have hverify := hverify tx htx
    simp only [verifyCoinbaseAmount, Bool.and_eq_true, all_eq_true] at hverify
    exact inClear_of_coinbaseOutput (hverify.1.2 out hout)
  obtain ⟨-, hcoins⟩ := connectCoins_forall
    (P := fun out => ∀ a, st.Watches env block a → B.asset? out.nAsset = some a → out.InClear)
    haccepted.coins
    (fun e he a hwatched hasset => by
      obtain ⟨hactive, ha | ha⟩ := hwatched
      · exact hst.inClear e he a ha hasset
      · exact absurd hasset ((hunused hactive ha).2.2 e he))
    (fun tx htx out hout _ a _ _ => hcoinbase tx htx out hout)
    (fun p hp hclear out hout hspendable a hwatched hasset => by
      obtain ⟨feeMap, feeMap', hinputs⟩ := haccepted.acceptedInputs p hp
      have hmem := mem_of_mem_tail (of_mem_zip hp).1
      obtain ⟨hsound, hconserves⟩ := hinputs.conserves (hkeeps.fits p.1 hmem) (hspent p hp).1
      have hconserves := hconserves
        (fun q hq => haccepted.isNull_of_skipped hkeeps.hardened hp hq) (hspent p hp).2
      obtain ⟨-, b, v, hholds, hzero⟩ :=
        haccepted.unspent hst.registry hp hout (hsound out hout) hspendable
      by_cases hv : v = 0
      · obtain ⟨hvalue, hname, -⟩ := hzero hv
        rw [CTxOut.InClear, hvalue, hname]
        exact ⟨rfl, rfl⟩
      · have hb : b = a := Option.some.inj (hholds.asset.symm.trans hasset)
        have hpos : 0 < B.amount out a := by
          have := hholds.nonneg
          rw [← hb, hholds.amount_self]
          omega
        obtain ⟨q, hq, hsource⟩ := hconserves.exists_source hsound
          (hinputs.spendable (hspent p hp).1) hout hpos
        exact haccepted.inClear_of_source hkeeps hst hwatched hp
          (fun q hq hpegin => hclear q hq hpegin a hwatched) hq hsource out hout)
  have hwatches : ∀ a ∈ st'.registry, st.Watches env block a := by
    intro a ha
    rcases haccepted.mem_registry ha with ha | ⟨hactive, ha⟩
    · exact ⟨supervisionActive_mono (Nat.le_succ _) (hst.active a ha), Or.inl ha⟩
    · exact ⟨hactive, Or.inr ha⟩
  refine ⟨haccounted, fun a ha => ?_, fun a ha => ?_, fun e he a ha => hcoins e he a (hwatches a ha)⟩
  · rw [haccepted.height]
    exact (hwatches a ha).1
  · obtain ⟨hactive, ha | ha⟩ := hwatches a ha
    · exact hst.notPegged a ha
    · exact (hunused hactive ha).1

omit haccepted

end Blocks

/-- Along a chain under the hardening in which declared assets are new and move in the clear in
their first block, no unspent output hides an amount of a supervised asset. -/
theorem supervised_assets_in_clear {env : ChainEnv} {B : env.amounts.Binding}
    {st : SupervisedState}
    (hchain : SupervisedChain env (SupervisedState.Funded env B) (KeepsInClear env B) st) :
    ∀ e ∈ st.coins.toList, ∀ a ∈ st.registry, B.asset? e.2.out.nAsset = some a →
      e.2.out.InClear := by
  have hclear : st.InClear env B := by
    induction hchain with
    | @start st hfunded =>
      have hnone : ∀ a, a ∉ st.registry := fun a ha => by
        rw [hfunded.initial.registry] at ha
        simp at ha
      exact ⟨hfunded.accounted, fun a ha => absurd ha (hnone a), fun a ha => absurd ha (hnone a),
        fun e _ a ha => absurd ha (hnone a)⟩
    | block hchain hkeeps hconnect ih =>
      exact (acceptedBlock_of_connectBlock hconnect).inClear hkeeps ih
  exact hclear.inClear

/-- The commitment that hides the whole supply of the sample asset. -/
def hiddenOpening (bytes : Bytes) : Option (CAsset × ℕ) :=
  if bytes = [9] then some (sampleAsset, 100) else none

def hiddenEnv : ChainEnv := { sampleEnv with amounts := transparentAmounts hiddenOpening }

/-- What the commitments of the chain hold. -/
def hiddenBinding : hiddenEnv.amounts.Binding := transparentBinding hiddenOpening

def hiddenOut : CTxOut := ⟨.commitment (0x0a :: sampleAsset.bytes), .commitment [9], openScript⟩

/-- The transaction that moves the sample asset into a hidden output. -/
def hidingTx : CTransaction where
  txid := 25
  vin := [{ prevout := ⟨20, 1⟩ }]
  vout := [hiddenOut]
  vtxoutwit := [⟨[1], [1]⟩]

/-- The block that issues the sample asset, and moves it into a hidden output. -/
def hidingBlock : CBlock where
  vtx := [emptyCoinbase 30, issuanceTx, hidingTx]
  txids_nodup := by decide

theorem supervisedStart_initial_hidden : supervisedStart.Initial hiddenEnv :=
  ⟨rfl, supervisedStart_initial.heights, rfl⟩

theorem freshIssuances_supervisedStart {block : CBlock}
    (hnodup : (block.vtx.tail.flatMap (hiddenEnv.newIds 10)).Nodup)
    (hpolicy : 1 ∉ block.vtx.tail.flatMap (hiddenEnv.newIds 10)) :
    supervisedStart.FreshIssuances hiddenEnv hiddenBinding block where
  nodup := hnodup
  unused a ha := by
    have hne : a ≠ 1 := fun h => hpolicy (h ▸ ha)
    refine ⟨hne, by simp [supervisedStart], fun e he hasset => hne ?_⟩
    rw [(supervisedStart_coins e he).2.1, asset?_explicit] at hasset
    exact (Option.some.inj hasset).symm

/-- An asset that is issued and moved into a hidden output in one block is supervised after it,
and the output stays hidden. -/
theorem hidden_output_accepted : ∃ st e a,
    SupervisedChain hiddenEnv (SupervisedState.Funded hiddenEnv hiddenBinding)
      (fun st block => KeepsAmounts hiddenEnv st block ∧
        st.FreshIssuances hiddenEnv hiddenBinding block) st ∧
    e ∈ st.coins.toList ∧ a ∈ st.registry ∧ hiddenBinding.asset? e.2.out.nAsset = some a ∧
    ¬ e.2.out.InClear := by
  obtain ⟨⟨st, undo⟩, hhiding, hrun⟩ := Checks.exists_ok
    (supervisedStart.connectBlock hiddenEnv hidingBlock)
    (fun r => r.1.registry.contains sampleAsset && r.1.coins.toList.any fun e =>
      e.2.out == hiddenOut) (by decide +kernel)
  rw [Bool.and_eq_true] at hrun
  obtain ⟨e, he, hout⟩ := any_eq_true.mp hrun.2
  rw [beq_iff_eq] at hout
  refine ⟨st, e, sampleAsset, .block (.start (supervisedStart_funded _
    supervisedStart_initial_hidden)) ⟨⟨id, by decide +kernel⟩,
      freshIssuances_supervisedStart (by decide +kernel) (by decide +kernel)⟩ hhiding, he,
    ExtTreeMap.mem_iff_contains.mpr hrun.1, ?_, ?_⟩
  · rw [hout]
    decide +kernel
  · rw [hout]
    exact fun hclear => Bool.noConfusion hclear.1

/-- The block that issues the sample asset keeps it in the clear. -/
theorem supervised_assets_in_clear_issued : ∃ st undo,
    supervisedStart.connectBlock hiddenEnv issuanceBlock = .ok (st, undo) ∧
      sampleAsset ∈ st.registry ∧ ∀ e ∈ st.coins.toList, ∀ a ∈ st.registry,
        hiddenBinding.asset? e.2.out.nAsset = some a → e.2.out.InClear := by
  obtain ⟨⟨st, undo⟩, hissuance, hrun⟩ := Checks.exists_ok
    (supervisedStart.connectBlock hiddenEnv issuanceBlock)
    (fun r => r.1.registry.contains sampleAsset) (by decide +kernel)
  refine ⟨st, undo, hissuance, ExtTreeMap.mem_iff_contains.mpr hrun,
    supervised_assets_in_clear (.block (.start (supervisedStart_funded _
      supervisedStart_initial_hidden)) ⟨⟨id, by decide +kernel⟩,
        freshIssuances_supervisedStart (by decide +kernel) (by decide +kernel), ?_⟩ hissuance)⟩
  intro tx htx a ha hmoves
  have hnone : ∀ tx ∈ issuanceBlock.vtx.tail, ∀ a ∈ issuanceBlock.declared,
      tx.vin.any (issuanceBlock.moves hiddenEnv.crypto a) = false := by decide +kernel
  rw [hnone tx htx a ha] at hmoves
  cases hmoves

end Sequentia
