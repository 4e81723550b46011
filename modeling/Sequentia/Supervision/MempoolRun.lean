import Sequentia.CoinsReaders
import Sequentia.Supervision.MempoolRules

/-!
# The mempool along a run

Between tip changes every entry passes the supervision part of the input checks. A run of the
node accepts and removes entries, connects and disconnects blocks, and brings the mempool up to
date after a reorganisation. An invariant carries the property along: the inputs of every entry
are available, or belong to a transaction that waits to be accepted again.
-/

namespace Sequentia

open Std Checks List

section Names

variable (names : Uint256 → CTransaction)

/-- The output at an outpoint, where a transaction identifier names one transaction. -/
def outputOf (o : COutPoint) : Option CTxOut := (names o.hash).vout[o.n]?

/-- The output that an input spends; that of a peg-in is empty. -/
def namedOut (txin : CTxIn) : CTxOut :=
  if txin.isPegin then Coin.null.out else (outputOf names txin.prevout).getD Coin.null.out

/-- The outputs that a transaction spends. -/
def namedOuts (tx : CTransaction) : List CTxOut := tx.vin.map (namedOut names)

/-- The coins are outputs of the transactions that their outpoints name. -/
def CCoinsView.Named (coins : CCoinsView) : Prop :=
  ∀ (o : COutPoint) (coin : Coin), coins[o]? = some coin → outputOf names o = some coin.out

def HistoryOf : SupervisedState → List (SupervisedState × CBlock × CBlockUndo) → Prop
  | _, [] => True
  | chain, (before, block, undo) :: history =>
    chain.height = before.height + 1 ∧
      connectCoins before.coins (before.height + 1) block = .ok (chain.coins, undo) ∧
      (∀ tx ∈ block.vtx, names tx.txid = tx) ∧ CCoinsView.Named names before.coins ∧
      HistoryOf before history

/-- The outpoint is available: in the mempool, in the chain, or in a disconnected block. -/
def MempoolState.Available (s : MempoolState) (o : COutPoint) : Prop :=
  (∃ t ∈ s.pool, t.txid = o.hash) ∨ (∃ coin, s.chain.coins[o]? = some coin) ∨
    ∃ t ∈ s.disconnectpool, t.txid = o.hash

/-- The transactions of the node are named, and the inputs of its entries are available and can
be spent. -/
structure MempoolState.Tracked (s : MempoolState) : Prop where
  pool : ∀ tx ∈ s.pool, names tx.txid = tx
  disconnectpool : ∀ tx ∈ s.disconnectpool, names tx.txid = tx
  coins : CCoinsView.Named names s.chain.coins
  history : HistoryOf names s.chain s.history
  available : ∀ tx ∈ s.pool, ∀ txin ∈ tx.vin, txin.isPegin = false → s.Available txin.prevout
  spendable : ∀ tx ∈ s.pool, ∀ txin ∈ tx.vin, txin.isPegin = false →
    ∃ out, outputOf names txin.prevout = some out ∧ isUnspendable out.scriptPubKey = false

end Names

variable {env : ChainEnv} {names : Uint256 → CTransaction} {s s' : MempoolState}

theorem mem_zip_map {α β : Type} {l : List α} {f : α → β} {p : α × β} :
    p ∈ l.zip (l.map f) ↔ p.1 ∈ l ∧ p.2 = f p.1 := by
  have hzip : l.zip (l.map f) = l.map fun a => (a, f a) := by
    induction l with
    | nil => rfl
    | cons a l ih => rw [map_cons, zip_cons_cons, ih, map_cons]
  rw [hzip, mem_map]
  constructor
  · rintro ⟨a, ha, rfl⟩
    exact ⟨ha, rfl⟩
  · rintro ⟨hmem, heq⟩
    exact ⟨p.1, hmem, by rw [← heq]⟩

theorem MempoolState.Tracked.getCoin (htracked : s.Tracked names) {o : COutPoint} {coin : Coin}
    (hcoin : s.getCoin o = some coin) : outputOf names o = some coin.out := by
  unfold MempoolState.getCoin CTxMemPool.getCoin at hcoin
  split at hcoin
  · next tx hfind =>
    obtain ⟨out, hout, rfl⟩ := Option.map_eq_some_iff.mp hcoin
    have htxid : tx.txid = o.hash := by simpa using List.find?_some hfind
    rw [outputOf, ← htxid, htracked.pool tx (mem_of_find?_eq_some hfind), hout]
  · exact htracked.coins o coin hcoin

theorem MempoolState.Tracked.isSome_getCoin (htracked : s.Tracked names)
    (hpending : s.disconnectpool = []) {o : COutPoint} (havailable : s.Available o)
    {out : CTxOut} (hout : outputOf names o = some out) : (s.getCoin o).isSome = true := by
  unfold MempoolState.getCoin CTxMemPool.getCoin
  split
  · next tx hfind =>
    have htxid : tx.txid = o.hash := by simpa using List.find?_some hfind
    rw [outputOf, ← htxid, htracked.pool tx (mem_of_find?_eq_some hfind)] at hout
    rw [hout]
    rfl
  · next hnone =>
    rcases havailable with ⟨t, ht, heq⟩ | ⟨coin, hcoin⟩ | ⟨t, ht, -⟩
    · have := List.find?_eq_none.mp hnone t ht
      simp [heq] at this
    · rw [hcoin]
      rfl
    · rw [hpending] at ht
      cases ht

variable {tx : CTransaction}

theorem MempoolState.Tracked.spentCoins_eq (htracked : s.Tracked names)
    (hsome : ∀ txin ∈ tx.vin, txin.isPegin = false → (s.getCoin txin.prevout).isSome = true) :
    (spentCoins s.getCoin tx).map Coin.out = namedOuts names tx := by
  rw [spentCoins, map_map, namedOuts]
  refine map_congr_left fun txin htxin => ?_
  unfold namedOut
  rw [Function.comp_apply]
  cases hpegin : txin.isPegin with
  | true => rfl
  | false =>
    obtain ⟨coin, hcoin⟩ := Option.isSome_iff_exists.mp (hsome txin htxin hpegin)
    simp [hcoin, htracked.getCoin hcoin]

/-- Empty outputs break no rule. -/
theorem PassesSupervision.of_missing {r : SupervisionRegistry} {outs outs' : List CTxOut}
    (hpasses : PassesSupervision env r tx outs)
    (houts : ∀ p ∈ tx.vin.zip outs', p ∈ tx.vin.zip outs ∨ p.2 = Coin.null.out) :
    PassesSupervision env r tx outs' := by
  refine ⟨fun hempty p hp hpegin => ?_, hpasses.declaration, hpasses.records, hpasses.reissuance,
    fun htouches => hpasses.explicit (htouches.imp_left ?_)⟩
  · rcases houts p hp with hp | hnull
    · exact hpasses.spends hempty p hp hpegin
    · rw [hnull]
      rfl
  · rintro ⟨p, hp, hpegin, a, ha, hasset⟩
    rcases houts p hp with hp | hnull
    · exact ⟨p, hp, hpegin, a, ha, hasset⟩
    · rw [hnull] at hasset
      cases hasset

/-- The entries pass the rules of supervision. -/
def MempoolState.Passes (env : ChainEnv) (names : Uint256 → CTransaction) (s : MempoolState) :
    Prop :=
  env.params.supervisionActive (s.chain.height + 1) = true → ∀ tx ∈ s.pool,
    PassesSupervision env s.chain.registry tx (namedOuts names tx)

theorem MempoolState.Tracked.not_rejects (htracked : s.Tracked names) (hpasses : s.Passes env names)
    (htx : tx ∈ s.pool) : s.rejects env tx = false := by
  have hok : checkSupervisionPart env s.chain.registry (s.chain.height + 1) tx
      (spentCoins s.getCoin tx) = .ok () := by
    rw [checkSupervisionPart_iff]
    intro hactive
    refine (hpasses hactive tx htx).of_missing fun p hp => ?_
    rw [spentCoins, map_map, mem_zip_map] at hp
    rw [namedOuts, mem_zip_map]
    obtain ⟨htxin, hout⟩ := hp
    rw [Function.comp_apply] at hout
    unfold namedOut
    cases hpegin : p.1.isPegin with
    | true => exact Or.inr (by simpa [hpegin] using hout)
    | false =>
      cases hcoin : s.getCoin p.1.prevout with
      | none => exact Or.inr (by simpa [hpegin, hcoin] using hout)
      | some coin =>
        refine Or.inl ⟨htxin, ?_⟩
        simpa [hpegin, hcoin, htracked.getCoin hcoin] using hout
  rw [MempoolState.rejects, hok]
  rfl

/-- Entries that go with their descendants leave the others tracked. -/
theorem MempoolState.Tracked.shrink (htracked : s.Tracked names) {pool : CTxMemPool}
    (hsub : ∀ tx ∈ pool, tx ∈ s.pool ∧ ∀ txin ∈ tx.vin, ∀ t ∈ s.pool,
      t.txid = txin.prevout.hash → t ∈ pool) :
    ({ s with pool } : MempoolState).Tracked names where
  pool tx htx := htracked.pool tx (hsub tx htx).1
  disconnectpool := htracked.disconnectpool
  coins := htracked.coins
  history := htracked.history
  available tx htx txin htxin hpegin := by
    rcases htracked.available tx (hsub tx htx).1 txin htxin hpegin with ⟨t, ht, heq⟩ | havailable
    · exact Or.inl ⟨t, (hsub tx htx).2 txin htxin t ht heq, heq⟩
    · exact Or.inr havailable
  spendable tx htx := htracked.spendable tx (hsub tx htx).1

theorem MempoolState.Tracked.removeRecursive (htracked : s.Tracked names)
    (txids : List Uint256) :
    ({ s with pool := s.pool.removeRecursive txids } : MempoolState).Tracked names :=
  htracked.shrink fun _ htx =>
    ⟨(removeRecursive_spec htx).1, fun txin htxin => ((removeRecursive_spec htx).2.2 txin htxin).2⟩

theorem accepted_of_acceptToMemoryPool (haccept : acceptToMemoryPool env s tx = true)
    (htracked : s.Tracked names) :
    (∀ txin ∈ tx.vin, txin.isPegin = false → (s.getCoin txin.prevout).isSome = true ∧
      ∃ out, outputOf names txin.prevout = some out ∧ isUnspendable out.scriptPubKey = false) ∧
      (env.params.supervisionActive (s.chain.height + 1) = true →
        PassesSupervision env s.chain.registry tx (namedOuts names tx)) := by
  simp only [acceptToMemoryPool, Bool.and_eq_true, all_eq_true] at haccept
  obtain ⟨⟨⟨-, hinputs⟩, hspendable⟩, hcheck⟩ := haccept
  have hsome : ∀ txin ∈ tx.vin, txin.isPegin = false →
      (s.getCoin txin.prevout).isSome = true := by
    intro txin htxin hpegin
    simpa [hpegin] using hinputs txin htxin
  refine ⟨fun txin htxin hpegin => ⟨hsome txin htxin hpegin, ?_⟩, fun hactive => ?_⟩
  · obtain ⟨coin, hcoin⟩ := Option.isSome_iff_exists.mp (hsome txin htxin hpegin)
    have hmem : coin ∈ spentCoins s.getCoin tx :=
      mem_map.mpr ⟨txin, htxin, by simp [hpegin, hcoin]⟩
    exact ⟨coin.out, htracked.getCoin hcoin, by simpa using (hspendable coin hmem).1⟩
  · rw [← htracked.spentCoins_eq hsome]
    refine checkSupervisionPart_iff.mp ?_ hactive
    cases hresult : checkTxInputs env s.chain.registry (s.chain.height + 1) ∅ tx
        (spentCoins s.getCoin tx) with
    | error err =>
      rw [hresult] at hcheck
      cases hcheck
    | ok feeMap =>
      have haccepted := acceptedInputs_of_checkTxInputs hresult
      obtain ⟨supervision, hsupervision, -⟩ := haccepted.amounts
      refine bind_eq_ok.mpr ⟨(), forM_eq_ok.mpr fun p hp => ?_,
        bind_eq_ok.mpr ⟨supervision, hsupervision, rfl⟩⟩
      split
      · rfl
      · next hpegin =>
        have hinput := haccepted.inputs p hp
        simp only [checkInput, if_neg hpegin, ite_error_eq_ok] at hinput
        exact hinput.2

/-- An accepted transaction joins the mempool, and leaves the disconnected ones if it is among
them. -/
theorem MempoolState.Tracked.accept (htracked : s.Tracked names) (hname : names tx.txid = tx)
    (haccept : acceptToMemoryPool env s tx = true) {rest : List CTransaction}
    (hrest : s.disconnectpool ⊆ tx :: rest) (hrest' : rest ⊆ s.disconnectpool) :
    ({ s with pool := s.pool ++ [tx], disconnectpool := rest } : MempoolState).Tracked names := by
  obtain ⟨hinputs, -⟩ := accepted_of_acceptToMemoryPool haccept htracked
  refine ⟨?_, fun t ht => htracked.disconnectpool t (hrest' ht), htracked.coins, htracked.history,
    ?_, ?_⟩
  · intro t ht
    rcases mem_append.mp ht with ht | ht
    · exact htracked.pool t ht
    · rw [mem_singleton.mp ht, hname]
  · intro t ht txin htxin hpegin
    rcases mem_append.mp ht with ht | ht
    · rcases htracked.available t ht txin htxin hpegin with ⟨u, hu, heq⟩ | hcoin | ⟨u, hu, heq⟩
      · exact Or.inl ⟨u, mem_append_left _ hu, heq⟩
      · exact Or.inr (Or.inl hcoin)
      · rcases mem_cons.mp (hrest hu) with rfl | hu
        · exact Or.inl ⟨u, mem_append_right _ (mem_singleton.mpr rfl), heq⟩
        · exact Or.inr (Or.inr ⟨u, hu, heq⟩)
    · obtain rfl := mem_singleton.mp ht
      obtain ⟨coin, hcoin⟩ := Option.isSome_iff_exists.mp (hinputs txin htxin hpegin).1
      unfold MempoolState.getCoin CTxMemPool.getCoin at hcoin
      split at hcoin
      · next u hfind =>
        exact Or.inl ⟨u, mem_append_left _ (mem_of_find?_eq_some hfind),
          by simpa using List.find?_some hfind⟩
      · exact Or.inr (Or.inl ⟨coin, hcoin⟩)
  · intro t ht txin htxin hpegin
    rcases mem_append.mp ht with ht | ht
    · exact htracked.spendable t ht txin htxin hpegin
    · obtain rfl := mem_singleton.mp ht
      exact (hinputs txin htxin hpegin).2

end Sequentia
