import Sequentia.CoinsExchange

/-!
# What a reader of the coins sees

The registries read records from coins: from the outputs of a block, from its undo data
and from the UTXO set. A reader that takes nothing from unspendable outputs sees the
exchange law of a block in all three.
-/

namespace Sequentia

open List

section Readers

variable {ι : Type*} {g : COutPoint × Coin → List ι}

/-- What a reader takes from the outputs of a block. -/
def CBlock.createdItems (g : COutPoint × Coin → List ι) (block : CBlock) (undo : CBlockUndo)
    (nHeight : ℕ) : List ι :=
  (block.spends undo).flatMap fun p => (outputCoins nHeight p.1).flatMap g

/-- What a reader takes from the undo data of a block. -/
def CBlock.spentItems (g : COutPoint × Coin → List ι) (block : CBlock) (undo : CBlockUndo) :
    List ι :=
  (block.spends undo).flatMap fun p => (inputCoins p.1 p.2).flatMap g

/-- A reader that takes nothing from an unspendable output sees the created coins in the
outputs of a transaction. -/
theorem flatMap_outputCoins (hg : ∀ e, isUnspendable e.2.out.scriptPubKey = true → g e = [])
    (nHeight : ℕ) (tx : CTransaction) :
    (outputCoins nHeight tx).flatMap g = (createdEntries nHeight tx).flatMap g := by
  unfold createdEntries
  induction outputCoins nHeight tx with
  | nil => rfl
  | cons e l ih =>
    rw [flatMap_cons, ih, filter_cons]
    split
    · rfl
    · next hunspendable => rw [hg e (by simpa using hunspendable), nil_append]

theorem flatMap_inputCoins (hg : ∀ e, isUnspendable e.2.out.scriptPubKey = true → g e = [])
    {tx : CTransaction} {undo : CTxUndo}
    (hnull : ∀ p ∈ tx.vin.zip undo, p.1.isPegin = true → p.2 = Coin.null) :
    (inputCoins tx undo).flatMap g = (spentEntries tx undo).flatMap g := by
  unfold inputCoins spentEntries
  generalize tx.vin.zip undo = l at hnull
  induction l with
  | nil => rfl
  | cons p l ih =>
    rw [forall_mem_cons] at hnull
    rw [map_cons, flatMap_cons, ih hnull.2, filter_cons]
    split
    · rfl
    · next hpegin =>
      rw [hnull.1 (by simpa using hpegin), hg _ (by rfl), nil_append]

theorem map_fst_pairUndo (txs : List CTransaction) (undos : List CTxUndo) :
    (pairUndo txs undos).map Prod.fst = txs := by
  induction txs generalizing undos with
  | nil => rfl
  | cons tx txs ih =>
    cases undos with
    | nil => simp [pairUndo, ih]
    | cons undo undos => simp [pairUndo, ih]

theorem map_snd_pairUndo {txs : List CTransaction} {undos : List CTxUndo}
    (hlength : undos.length = txs.length) : (pairUndo txs undos).map Prod.snd = undos := by
  induction txs generalizing undos with
  | nil => simp_all [pairUndo]
  | cons tx txs ih =>
    cases undos with
    | nil => simp at hlength
    | cons undo undos => simp [pairUndo, ih (Nat.succ.inj hlength)]

section Connected

variable {view view' : CCoinsView} {nHeight : ℕ} {block : CBlock} {undo : CBlockUndo}

variable (hconnected : Connected view view' nHeight block undo) {entry : COutPoint × Coin}

include hconnected

theorem Connected.mem_of_spent
    (hspent : entry ∈ block.spentEntries undo) :
    entry ∈ view.toList ++ block.createdEntries nHeight :=
  hconnected.delta.subset (mem_append_right _ hspent)

theorem Connected.spent_of_mem_undo
    {coin : Coin} (hcoin : coin ∈ undo.flatten) (hne : coin ≠ Coin.null) :
    ∃ o, (o, coin) ∈ block.spentEntries undo := by
  obtain ⟨u, hu, hcoin⟩ := mem_flatten.mp hcoin
  have hpairs : (block.spends undo).map Prod.snd = [] :: undo :=
    map_snd_pairUndo (by simpa using hconnected.undo_length)
  obtain ⟨⟨tx, u⟩, hq, rfl⟩ := mem_map.mp (hpairs ▸ mem_cons_of_mem [] hu)
  have hundo := hconnected.undoOf _ hq
  rw [← map_snd_zip hundo.length_le] at hcoin
  obtain ⟨⟨txin, coin⟩, hp, rfl⟩ := mem_map.mp hcoin
  refine ⟨txin.prevout, mem_flatMap.mpr ⟨_, hq, ?_⟩⟩
  refine mem_map.mpr ⟨_, mem_filter.mpr ⟨hp, ?_⟩, rfl⟩
  cases hpegin : txin.isPegin with
  | false => rfl
  | true => exact absurd (hundo.pegin_null _ hp hpegin) hne

omit hconnected

theorem mem_undo_of_spent
    (hspent : entry ∈ block.spentEntries undo) : entry.2 ∈ undo.flatten := by
  obtain ⟨⟨tx, u⟩, hq, hentry⟩ := mem_flatMap.mp hspent
  obtain ⟨⟨txin, coin⟩, hp, rfl⟩ := mem_map.mp hentry
  have hcoin : coin ∈ u := (of_mem_zip (mem_of_mem_filter hp)).2
  have hmem : ∀ (txs : List CTransaction) (undos : List CTxUndo) (q : CTransaction × CTxUndo),
      q ∈ pairUndo txs undos → q.2 = [] ∨ q.2 ∈ undos := by
    intro txs
    induction txs with
    | nil => simp [pairUndo]
    | cons tx txs ih =>
      intro undos q hq
      cases undos with
      | nil =>
        rcases mem_cons.mp hq with rfl | hq
        · exact Or.inl rfl
        · exact ih [] q hq
      | cons undo undos =>
        rcases mem_cons.mp hq with rfl | hq
        · exact Or.inr mem_cons_self
        · exact (ih undos q hq).imp_right (mem_cons_of_mem _)
  rcases hmem _ _ _ hq with hnil | hmem
  · simp only at hnil
    rw [hnil] at hcoin
    cases hcoin
  · rcases mem_cons.mp hmem with hnil | hmem
    · simp only at hnil
      rw [hnil] at hcoin
      cases hcoin
    · exact mem_flatten.mpr ⟨u, hmem, hcoin⟩

theorem output_of_created
    (hcreated : entry ∈ block.createdEntries nHeight) :
    entry.2.out ∈ block.vtx.flatMap CTransaction.vout ∧ entry.2.nHeight = nHeight := by
  obtain ⟨tx, htx, hentry⟩ := mem_flatMap.mp hcreated
  obtain ⟨⟨out, n⟩, hout, rfl⟩ := mem_map.mp (mem_of_mem_filter hentry)
  refine ⟨mem_flatMap.mpr ⟨tx, htx, ?_⟩, rfl⟩
  exact (mem_zipIdx' hout).2 ▸ getElem_mem _

/-- Such a reader sees the coins a block spends. -/
theorem Connected.spentItems_eq (hconnected : Connected view view' nHeight block undo)
    (hg : ∀ e, isUnspendable e.2.out.scriptPubKey = true → g e = []) :
    block.spentItems g undo = (block.spentEntries undo).flatMap g := by
  rw [CBlock.spentItems, CBlock.spentEntries, flatMap_assoc]
  exact flatMap_congr fun p hp => flatMap_inputCoins hg (hconnected.undoOf p hp).pegin_null

theorem createdItems_eq (hg : ∀ e, isUnspendable e.2.out.scriptPubKey = true → g e = []) :
    block.createdItems g undo nHeight = (block.createdEntries nHeight).flatMap g := by
  rw [CBlock.createdItems]
  conv_rhs => rw [CBlock.createdEntries, ← map_fst_pairUndo block.vtx ([] :: undo),
    flatMap_map, flatMap_assoc]
  exact flatMap_congr fun p _ => flatMap_outputCoins hg nHeight p.1

/-- The exchange law as such a reader sees it. -/
theorem Connected.delta_flatMap (hconnected : Connected view view' nHeight block undo)
    (hg : ∀ e, isUnspendable e.2.out.scriptPubKey = true → g e = []) :
    (view'.toList.flatMap g ++ block.spentItems g undo).Perm
      (view.toList.flatMap g ++ block.createdItems g undo nHeight) := by
  rw [hconnected.spentItems_eq hg, createdItems_eq hg, ← flatMap_append,
    ← flatMap_append]
  exact hconnected.delta.flatMap_right g

end Connected

end Readers

end Sequentia
