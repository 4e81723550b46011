import Sequentia.Coins

/-!
# The exchange law of a connected block

What is unspent after a block together with what the block spent is what was unspent
before together with what the block created. The law is first proved for the inputs and
outputs of one transaction, then for the transaction loop.
-/

namespace Sequentia

open Std ExtTreeMap
open scoped List

/-- The undo data of a transaction belongs to its inputs. -/
structure UndoOf (vin : List CTxIn) (undo : CTxUndo) : Prop where
  length_le : undo.length ≤ vin.length
  pegin_null : ∀ p ∈ vin.zip undo, p.1.isPegin = true → p.2 = Coin.null

variable {undo : CTxUndo} {view view' : CCoinsView} {tx : CTransaction} {o : COutPoint}
  {overwrite : Bool} {entry : COutPoint × Coin} {entries : List (COutPoint × Coin)} {nHeight : ℕ}
  {txs : List CTransaction}

theorem UndoOf.cons {txin : CTxIn} {vin : List CTxIn} {coin : Coin} (hundo : UndoOf vin undo)
    (hpegin : txin.isPegin = true → coin = Coin.null) : UndoOf (txin :: vin) (coin :: undo) :=
  ⟨Nat.succ_le_succ hundo.length_le, List.forall_mem_cons.mpr ⟨hpegin, hundo.pegin_null⟩⟩

theorem spendInputs_perm (hspend : spendInputs view tx.vin = some (view', undo)) :
    UndoOf tx.vin undo ∧ (view'.toList ++ spentEntries tx undo).Perm view.toList := by
  unfold spentEntries
  generalize tx.vin = vin at hspend
  induction vin generalizing view undo with
  | nil =>
    simp only [spendInputs, Option.some.injEq, Prod.mk.injEq] at hspend
    obtain ⟨rfl, rfl⟩ := hspend
    exact ⟨⟨Nat.le_refl 0, by simp⟩, by simp⟩
  | cons txin vin ih =>
    rw [spendInputs] at hspend
    split at hspend
    · next hpegin =>
      obtain ⟨⟨view'', undo'⟩, hrest, heq⟩ := Option.map_eq_some_iff.mp hspend
      simp only [Prod.mk.injEq] at heq
      obtain ⟨rfl, rfl⟩ := heq
      obtain ⟨hundo, hperm⟩ := ih hrest
      exact ⟨hundo.cons fun _ => rfl, by simpa [hpegin] using hperm⟩
    · next hpegin =>
      split at hspend
      · cases hspend
      · next coin hcoin =>
        obtain ⟨⟨view'', undo'⟩, hrest, heq⟩ := Option.map_eq_some_iff.mp hspend
        simp only [Prod.mk.injEq] at heq
        obtain ⟨rfl, rfl⟩ := heq
        obtain ⟨hundo, hperm⟩ := ih hrest
        refine ⟨hundo.cons fun h => absurd h hpegin, ?_⟩
        simp only [List.zip_cons_cons, hpegin, Bool.not_false, List.filter_cons_of_pos,
          List.map_cons]
        exact List.perm_middle.trans
          ((hperm.cons _).trans (KeyedMap.toList_erase_perm hcoin).symm)

theorem spendInputs_none (hspend : spendInputs view tx.vin = some (view', undo))
    (hnone : view[o]? = none) : view'[o]? = none := by
  cases hcoin : view'[o]? with
  | none => rfl
  | some coin =>
    have hmem := (spendInputs_perm hspend).2.subset
      (List.mem_append_left _ (mem_toList_iff_getElem?_eq_some.mpr hcoin))
    rw [mem_toList_iff_getElem?_eq_some, hnone] at hmem
    cases hmem

theorem addCoin_none (hadd : addCoin overwrite view entry = some view') (hne : entry.1 ≠ o)
    (hnone : view[o]? = none) : view'[o]? = none := by
  revert hadd
  fun_cases addCoin overwrite view entry <;> rintro ⟨⟩
  · exact hnone
  · rw [KeyedMap.getElem?_insert_eq, if_neg hne, hnone]

theorem foldlM_addCoin_none (hadd : entries.foldlM (addCoin overwrite) view = some view')
    (hother : ∀ entry ∈ entries, entry.1 ≠ o) (hnone : view[o]? = none) : view'[o]? = none := by
  induction entries generalizing view with
  | nil =>
    rw [List.foldlM_nil] at hadd
    exact Option.some.inj hadd ▸ hnone
  | cons entry entries ih =>
    rw [List.foldlM_cons] at hadd
    obtain ⟨view₁, hentry, hrest⟩ := Option.bind_eq_some_iff.mp hadd
    exact ih hrest (fun e he => hother e (List.mem_cons_of_mem _ he))
      (addCoin_none hentry (hother entry List.mem_cons_self) hnone)

theorem foldlM_addCoin_perm (hnodup : (entries.map Prod.fst).Nodup)
    (hfresh : ∀ entry ∈ entries, view[entry.1]? = none)
    (hadd : entries.foldlM (addCoin overwrite) view = some view') :
    view'.toList.Perm
      (view.toList ++ entries.filter fun entry => !isUnspendable entry.2.out.scriptPubKey) := by
  induction entries generalizing view with
  | nil =>
    rw [List.foldlM_nil] at hadd
    simp [Option.some.inj hadd]
  | cons entry entries ih =>
    rw [List.foldlM_cons] at hadd
    obtain ⟨view₁, hentry, hrest⟩ := Option.bind_eq_some_iff.mp hadd
    rw [List.map_cons, List.nodup_cons] at hnodup
    have hfresh₁ : ∀ e ∈ entries, view₁[e.1]? = none := fun e he =>
      addCoin_none hentry (fun heq => hnodup.1 (heq ▸ List.mem_map_of_mem he))
        (hfresh e (List.mem_cons_of_mem _ he))
    refine (ih hnodup.2 hfresh₁ hrest).trans ?_
    unfold addCoin at hentry
    split at hentry
    · next hunspendable =>
      rw [Option.some.inj hentry, List.filter_cons_of_neg (by simp [hunspendable])]
    · next hspendable =>
      split at hentry
      · cases hentry
      · rw [← Option.some.inj hentry, List.filter_cons_of_pos (by simp [hspendable])]
        exact ((KeyedMap.toList_insert_perm (hfresh entry List.mem_cons_self)).append_right _).trans
          List.perm_middle.symm

theorem nodup_outputCoins (nHeight : ℕ) (tx : CTransaction) :
    ((outputCoins nHeight tx).map Prod.fst).Nodup := by
  have hkeys : (outputCoins nHeight tx).map Prod.fst =
      (tx.vout.zipIdx.map Prod.snd).map fun n => (⟨tx.txid, n⟩ : COutPoint) := by
    simp only [outputCoins, List.map_map]
    rfl
  rw [hkeys, List.zipIdx_map_snd]
  refine (List.nodup_range').map ?_
  intro m n heq
  exact congrArg COutPoint.n heq

/-- The outputs of a transaction carry its identifier. -/
theorem hash_of_mem_outputCoins (hmem : entry ∈ outputCoins nHeight tx) :
    entry.1.hash = tx.txid := by
  obtain ⟨⟨out, n⟩, -, rfl⟩ := List.mem_map.mp hmem
  rfl

theorem updateCoins_perm (hfresh : ∀ entry ∈ outputCoins nHeight tx, view[entry.1]? = none)
    (hupdate : updateCoins view tx nHeight = .ok (view', undo)) :
    UndoOf tx.vin undo ∧
      (view'.toList ++ spentEntries tx undo).Perm (view.toList ++ createdEntries nHeight tx) := by
  revert hupdate
  fun_cases updateCoins view tx nHeight <;> rintro ⟨⟩
  next view₁ hadd hinputs =>
  split at hinputs
  · simp only [Option.some.injEq, Prod.mk.injEq] at hinputs
    obtain ⟨rfl, rfl⟩ := hinputs
    refine ⟨⟨Nat.zero_le _, by simp⟩, ?_⟩
    simpa [spentEntries, createdEntries] using
      foldlM_addCoin_perm (nodup_outputCoins nHeight tx) hfresh hadd
  · obtain ⟨hnull, hspent⟩ := spendInputs_perm hinputs
    refine ⟨hnull, ?_⟩
    have hcreated := foldlM_addCoin_perm (nodup_outputCoins nHeight tx)
      (fun entry hentry => spendInputs_none hinputs (hfresh entry hentry)) hadd
    refine (hcreated.append_right _).trans ?_
    rw [List.append_assoc]
    refine (List.perm_append_comm.append_left _).trans ?_
    rw [← List.append_assoc]
    exact hspent.append_right _

/-- A transaction adds no coin under another identifier. -/
theorem updateCoins_none (hupdate : updateCoins view tx nHeight = .ok (view', undo))
    (hne : tx.txid ≠ o.hash) (hnone : view[o]? = none) : view'[o]? = none := by
  revert hupdate
  fun_cases updateCoins view tx nHeight <;> rintro ⟨⟩
  next view₁ hadd hinputs =>
  have hnone₁ : view₁[o]? = none := by
    split at hinputs
    · simp only [Option.some.injEq, Prod.mk.injEq] at hinputs
      exact hinputs.1 ▸ hnone
    · exact spendInputs_none hinputs hnone
  have hother : ∀ entry ∈ outputCoins nHeight tx, entry.1 ≠ o := fun entry hentry heq =>
    hne (heq ▸ (hash_of_mem_outputCoins hentry).symm)
  exact foldlM_addCoin_none hadd hother hnone₁

/-- A run of transactions with distinct identifiers and fresh outputs exchanges the coins
it spends for those it creates. -/
theorem connectTxs_perm {undos : List CTxUndo} (hnodup : (txs.map CTransaction.txid).Nodup)
    (hfresh : ∀ tx ∈ txs, ∀ entry ∈ outputCoins nHeight tx, view[entry.1]? = none)
    (hconnect : connectTxs nHeight view txs = .ok (view', undos)) :
    undos.length = txs.length ∧
      (∀ q ∈ pairUndo txs undos, UndoOf q.1.vin q.2) ∧
      (view'.toList ++ (pairUndo txs undos).flatMap fun (tx, spent) => spentEntries tx spent).Perm
        (view.toList ++ txs.flatMap (createdEntries nHeight)) := by
  induction txs generalizing view undos with
  | nil =>
    simp only [connectTxs, Except.ok.injEq, Prod.mk.injEq] at hconnect
    obtain ⟨rfl, rfl⟩ := hconnect
    simp [pairUndo]
  | cons tx txs ih =>
    rw [connectTxs] at hconnect
    split at hconnect
    · cases hconnect
    · next view₁ undo hupdate =>
      split at hconnect
      · cases hconnect
      · next view₂ undos₁ hrest =>
        simp only [Except.ok.injEq, Prod.mk.injEq] at hconnect
        obtain ⟨rfl, rfl⟩ := hconnect
        rw [List.map_cons, List.nodup_cons] at hnodup
        have hfresh₁ : ∀ tx' ∈ txs, ∀ entry ∈ outputCoins nHeight tx', view₁[entry.1]? = none := by
          intro tx' htx' entry hentry
          refine updateCoins_none hupdate ?_
            (hfresh tx' (List.mem_cons_of_mem _ htx') entry hentry)
          rw [hash_of_mem_outputCoins hentry]
          exact fun heq => hnodup.1 (heq ▸ List.mem_map_of_mem htx')
        obtain ⟨hlength, hnulls, hperm⟩ := ih hnodup.2 hfresh₁ hrest
        obtain ⟨hnull, htx⟩ := updateCoins_perm (hfresh tx List.mem_cons_self) hupdate
        refine ⟨by simp [hlength], List.forall_mem_cons.mpr ⟨hnull, hnulls⟩, ?_⟩
        simp only [pairUndo, List.flatMap_cons]
        let rest := (pairUndo txs undos₁).flatMap fun (tx, spent) => spentEntries tx spent
        let created := txs.flatMap (createdEntries nHeight)
        calc view₂.toList ++ (spentEntries tx undo ++ rest)
            ~ (view₂.toList ++ rest) ++ spentEntries tx undo := by
              rw [List.append_assoc]
              exact List.perm_append_comm.append_left _
          _ ~ (view₁.toList ++ created) ++ spentEntries tx undo := hperm.append_right _
          _ ~ (view₁.toList ++ spentEntries tx undo) ++ created := by
              rw [List.append_assoc, List.append_assoc]
              exact List.perm_append_comm.append_left _
          _ ~ (view.toList ++ createdEntries nHeight tx) ++ created := htx.append_right _
          _ ~ view.toList ++ (createdEntries nHeight tx ++ created) := by
              rw [List.append_assoc]

/-- What connecting a block does to the UTXO set. -/
structure Connected (view view' : CCoinsView) (nHeight : ℕ) (block : CBlock)
    (undo : CBlockUndo) : Prop where
  coinbase : ∃ coinbase txs, block.vtx = coinbase :: txs
  /-- There is undo data for every transaction but the coinbase. -/
  undo_length : undo.length + 1 = block.vtx.length
  /-- The undo data belongs to the inputs. -/
  undoOf : ∀ q ∈ block.spends undo, UndoOf q.1.vin q.2
  /-- The exchange law. -/
  delta : (view'.toList ++ block.spentEntries undo).Perm
    (view.toList ++ block.createdEntries nHeight)
  /-- The coins created are at fresh and distinct outpoints. -/
  nodup : ((view.toList ++ block.createdEntries nHeight).map Prod.fst).Nodup

/-- The outputs of transactions with distinct identifiers are at distinct outpoints. -/
theorem nodup_flatMap_createdEntries (hnodup : (txs.map CTransaction.txid).Nodup) :
    ((txs.flatMap (createdEntries nHeight)).map Prod.fst).Nodup := by
  induction txs with
  | nil => simp
  | cons tx txs ih =>
    rw [List.map_cons, List.nodup_cons] at hnodup
    rw [List.flatMap_cons, List.map_append, List.nodup_append']
    refine ⟨?_, ih hnodup.2, ?_⟩
    · exact (nodup_outputCoins nHeight tx).sublist (List.filter_sublist.map _)
    · intro o ho ho'
      obtain ⟨entry, hentry, rfl⟩ := List.mem_map.mp ho
      obtain ⟨entry', hentry', heq⟩ := List.mem_map.mp ho'
      obtain ⟨tx', htx', hentry'⟩ := List.mem_flatMap.mp hentry'
      have hhash := hash_of_mem_outputCoins (List.mem_of_mem_filter hentry)
      have hhash' := hash_of_mem_outputCoins (List.mem_of_mem_filter hentry')
      rw [heq, hhash] at hhash'
      exact hnodup.1 (hhash' ▸ List.mem_map_of_mem htx')

theorem connectTxs_coinbase {coinbase : CTransaction} {undos : List CTxUndo}
    (hcoinbase : coinbase.isCoinBase = true)
    (hconnect : connectTxs nHeight view (coinbase :: txs) = .ok (view', undos)) :
    undos = [] :: undos.tail := by
  rw [connectTxs] at hconnect
  split at hconnect
  · cases hconnect
  · next view₁ undo hupdate =>
    have hundo : undo = [] := by
      simp only [updateCoins, hcoinbase, if_true] at hupdate
      split at hupdate
      · cases hupdate
      · exact (Prod.mk.inj (Except.ok.inj hupdate)).2.symm
    split at hconnect
    · cases hconnect
    · rw [← (Prod.mk.inj (Except.ok.inj hconnect)).2, hundo]
      rfl

theorem connected_of_connectCoins {block : CBlock} {undo : CBlockUndo}
    (hconnect : connectCoins view nHeight block = .ok (view', undo)) :
    Connected view view' nHeight block undo := by
  revert hconnect
  fun_cases connectCoins view nHeight block <;> rintro ⟨⟩
  next coinbase txs hvtx hcoinbase _ hbip30 undos hrun =>
  have hfresh : ∀ tx ∈ block.vtx, ∀ entry ∈ outputCoins nHeight tx, view[entry.1]? = none := by
    intro tx htx entry hentry
    simp only [overwritesCoin, List.any_eq_true, not_exists, not_and] at hbip30
    have := hbip30 tx htx entry hentry
    simpa using this
  obtain ⟨hlength, hnulls, hperm⟩ := connectTxs_perm block.txids_nodup hfresh hrun
  have hundos : undos = [] :: undos.tail :=
    connectTxs_coinbase (by simpa using hcoinbase) (hvtx ▸ hrun)
  refine ⟨⟨coinbase, txs, hvtx⟩, ?_, ?_, ?_, ?_⟩
  · rw [← hlength, hundos]
    simp
  · rwa [hundos] at hnulls
  · rwa [hundos] at hperm
  · rw [List.map_append, List.nodup_append']
    refine ⟨KeyedMap.nodup_keys_toList view, nodup_flatMap_createdEntries block.txids_nodup, ?_⟩
    intro o ho ho'
    obtain ⟨⟨_, coin⟩, hcoin, rfl⟩ := List.mem_map.mp ho
    obtain ⟨entry, hentry, heq⟩ := List.mem_map.mp ho'
    obtain ⟨tx, htx, hentry⟩ := List.mem_flatMap.mp hentry
    have hnone := hfresh tx htx entry (List.mem_of_mem_filter hentry)
    rw [mem_toList_iff_getElem?_eq_some] at hcoin
    simp [heq, hcoin] at hnone

end Sequentia
