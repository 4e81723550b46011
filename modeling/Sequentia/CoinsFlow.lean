import Sequentia.CoinsExchange

/-!
# Facts that transactions pass on

A fact about the unspent outputs holds along a block if every transaction passes it on from
the coins it spends to the outputs it creates. Transactions spend outputs of earlier ones in
the same block, so the induction follows the transaction loop.
-/

namespace Sequentia

open Std List

variable {view view' : CCoinsView} {nHeight : ℕ} {P : CTxOut → Prop}

theorem length_of_spendInputs {vin : List CTxIn} {undo : CTxUndo}
    (hspend : spendInputs view vin = some (view', undo)) : undo.length = vin.length := by
  induction vin generalizing view undo with
  | nil =>
    cases hspend
    rfl
  | cons txin vin ih =>
    rw [spendInputs] at hspend
    split at hspend
    · obtain ⟨⟨view'', undo'⟩, hrest, heq⟩ := Option.map_eq_some_iff.mp hspend
      cases heq
      rw [length_cons, length_cons, ih hrest]
    · split at hspend
      · cases hspend
      · obtain ⟨⟨view'', undo'⟩, hrest, heq⟩ := Option.map_eq_some_iff.mp hspend
        cases heq
        rw [length_cons, length_cons, ih hrest]

/-- The fact holds of the coins spent, and of those left. -/
theorem spendInputs_forall {tx : CTransaction} {undo : CTxUndo}
    (hspend : spendInputs view tx.vin = some (view', undo))
    (hview : ∀ e ∈ view.toList, P e.2.out) :
    (∀ q ∈ tx.vin.zip undo, q.1.isPegin = false → P q.2.out) ∧
      ∀ e ∈ view'.toList, P e.2.out := by
  have hperm := (spendInputs_perm hspend).2
  refine ⟨fun q hq hpegin => ?_, fun e he => ?_⟩
  · have hspent : (q.1.prevout, q.2) ∈ spentEntries tx undo :=
      mem_map.mpr ⟨q, mem_filter.mpr ⟨hq, by simp [hpegin]⟩, rfl⟩
    exact hview _ (hperm.subset (mem_append_right _ hspent))
  · exact hview e (hperm.subset (mem_append_left _ he))

/-- The fact holds after outputs are added. -/
theorem foldlM_addCoin_forall {overwrite : Bool} {entries : List (COutPoint × Coin)}
    (hadd : entries.foldlM (addCoin overwrite) view = some view')
    (hview : ∀ e ∈ view.toList, P e.2.out)
    (hentries : ∀ e ∈ entries, isUnspendable e.2.out.scriptPubKey = false → P e.2.out) :
    ∀ e ∈ view'.toList, P e.2.out := by
  induction entries generalizing view with
  | nil =>
    cases hadd
    exact hview
  | cons entry entries ih =>
    rw [foldlM_cons] at hadd
    obtain ⟨view₁, hentry, hrest⟩ := Option.bind_eq_some_iff.mp hadd
    rw [forall_mem_cons] at hentries
    refine ih hrest (fun e he => ?_) hentries.2
    rw [addCoin] at hentry
    split at hentry
    · cases hentry
      exact hview e he
    · next hspendable =>
      split at hentry
      · cases hentry
      · cases hentry
        rw [ExtTreeMap.mem_toList_iff_getElem?_eq_some, KeyedMap.getElem?_insert_eq] at he
        split at he
        · rw [← Option.some.inj he]
          exact hentries.1 (by simpa using hspendable)
        · exact hview e (ExtTreeMap.mem_toList_iff_getElem?_eq_some.mpr he)

/-- One transaction: the fact holds of what it spends, and is passed on. -/
theorem updateCoins_forall {tx : CTransaction} {undo : CTxUndo}
    (hupdate : updateCoins view tx nHeight = .ok (view', undo))
    (hview : ∀ e ∈ view.toList, P e.2.out)
    (hpass : (∀ q ∈ tx.vin.zip undo, q.1.isPegin = false → P q.2.out) →
      ∀ out ∈ tx.vout, isUnspendable out.scriptPubKey = false → P out) :
    (∀ q ∈ tx.vin.zip undo, q.1.isPegin = false → P q.2.out) ∧
      (tx.isCoinBase = false → undo.length = tx.vin.length) ∧ ∀ e ∈ view'.toList, P e.2.out := by
  revert hupdate
  fun_cases updateCoins view tx nHeight <;> rintro ⟨⟩
  next view₁ hadd hspent =>
  have hspends : (∀ q ∈ tx.vin.zip undo, q.1.isPegin = false → P q.2.out) ∧
      (tx.isCoinBase = false → undo.length = tx.vin.length) ∧ ∀ e ∈ view₁.toList, P e.2.out := by
    split at hspent
    · next hcoinbase =>
      cases hspent
      refine ⟨fun q hq => ?_, fun hnot => absurd hcoinbase (by simp [hnot]), hview⟩
      rw [zip_nil_right] at hq
      exact (not_mem_nil hq).elim
    · obtain ⟨hinputs, hleft⟩ := spendInputs_forall hspent hview
      exact ⟨hinputs, fun _ => length_of_spendInputs hspent, hleft⟩
  refine ⟨hspends.1, hspends.2.1, foldlM_addCoin_forall hadd hspends.2.2 fun e he => ?_⟩
  obtain ⟨⟨out, n⟩, hout, rfl⟩ := mem_map.mp he
  exact hpass hspends.1 out ((mem_zipIdx' hout).2 ▸ getElem_mem _)

/-- The transaction loop: the fact holds of everything spent on the way. -/
theorem connectTxs_forall {txs : List CTransaction} {undos : List CTxUndo}
    (hconnect : connectTxs nHeight view txs = .ok (view', undos))
    (hview : ∀ e ∈ view.toList, P e.2.out)
    (hpass : ∀ p ∈ txs.zip undos, (∀ q ∈ p.1.vin.zip p.2, q.1.isPegin = false → P q.2.out) →
      ∀ out ∈ p.1.vout, isUnspendable out.scriptPubKey = false → P out) :
    (∀ p ∈ txs.zip undos, (∀ q ∈ p.1.vin.zip p.2, q.1.isPegin = false → P q.2.out) ∧
      (p.1.isCoinBase = false → p.2.length = p.1.vin.length)) ∧
      ∀ e ∈ view'.toList, P e.2.out := by
  induction txs generalizing view undos with
  | nil =>
    cases hconnect
    exact ⟨fun p hp => (not_mem_nil hp).elim, hview⟩
  | cons tx txs ih =>
    rw [connectTxs] at hconnect
    split at hconnect
    · cases hconnect
    · next view₁ undo hupdate =>
      split at hconnect
      · cases hconnect
      · next view₂ undos' hrest =>
        cases hconnect
        rw [zip_cons_cons, forall_mem_cons] at hpass ⊢
        obtain ⟨hspent, hlength, hview₁⟩ := updateCoins_forall hupdate hview hpass.1
        obtain ⟨hspents, hview'⟩ := ih hrest hview₁ hpass.2
        exact ⟨⟨⟨hspent, hlength⟩, hspents⟩, hview'⟩

theorem connectCoins_forall {block : CBlock} {undo : CBlockUndo}
    (hconnect : connectCoins view nHeight block = .ok (view', undo))
    (hview : ∀ e ∈ view.toList, P e.2.out)
    (hcoinbase : ∀ tx ∈ block.vtx.head?, ∀ out ∈ tx.vout,
      isUnspendable out.scriptPubKey = false → P out)
    (hpass : ∀ p ∈ block.vtx.tail.zip undo,
      (∀ q ∈ p.1.vin.zip p.2, q.1.isPegin = false → P q.2.out) →
      ∀ out ∈ p.1.vout, isUnspendable out.scriptPubKey = false → P out) :
    (∀ p ∈ block.vtx.tail.zip undo,
      (∀ q ∈ p.1.vin.zip p.2, q.1.isPegin = false → P q.2.out) ∧
        p.2.length = p.1.vin.length) ∧
      ∀ e ∈ view'.toList, P e.2.out := by
  revert hconnect
  fun_cases connectCoins view nHeight block <;> rintro ⟨⟩
  next coinbase txs hvtx hfirst hothers _ undos hrun =>
  rw [hvtx, tail_cons] at hpass ⊢
  rw [hvtx, List.head?_cons] at hcoinbase
  have hundos := connectTxs_coinbase (by simpa using hfirst) (hvtx ▸ hrun)
  rw [hundos, hvtx] at hrun
  have hall := connectTxs_forall hrun hview (by
    rw [zip_cons_cons, forall_mem_cons]
    exact ⟨fun _ => hcoinbase coinbase rfl, hpass⟩)
  rw [zip_cons_cons, forall_mem_cons] at hall
  refine ⟨fun p hp => ?_, hall.2⟩
  obtain ⟨hspent, hlength⟩ := hall.1.2 p hp
  refine ⟨hspent, hlength ?_⟩
  simpa using fun h => hothers (any_eq_true.mpr ⟨p.1, (of_mem_zip hp).1, h⟩)

end Sequentia
