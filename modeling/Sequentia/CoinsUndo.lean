import Sequentia.CoinsFlow

/-!
# Taking a block out of the UTXO set

`DisconnectBlock` undoes the transactions of a block, the last one first: it removes the outputs of
a transaction and puts the coins back that its inputs spent, the last one first. Connecting and then
disconnecting a block leaves the UTXO set as it was. Spent marks of peg-ins and the one-time rewrite
of coins are not modelled.
-/

namespace Sequentia

open Std ExtTreeMap List

/-- `AccessByTxid`: the first unspent output of a transaction. -/
def accessByTxid (view : CCoinsView) (txid : Uint256) : Option Coin :=
  (view.toList.find? fun entry => entry.1.hash == txid).map Prod.snd

/-- The coin that `ApplyTxInUndo` restores. Undo data without a height takes it from another output
of the transaction; without one, only a chain with `connect_genesis_outputs` goes on. -/
def restoredCoin (genesis : Bool) (view : CCoinsView) (prevout : COutPoint)
    (undo : Coin) : Option Coin :=
  if undo.nHeight = 0 then
    match accessByTxid view prevout.hash with
    | some alternate =>
      some { undo with nHeight := alternate.nHeight, fCoinBase := alternate.fCoinBase }
    | none => if genesis then some undo else none
  else some undo

/-- `ApplyTxInUndo`: the view, and whether the result is still clean; `none` is
`DISCONNECT_FAILED`. -/
def applyTxInUndo (genesis : Bool) (input : CTxIn × Coin) (st : CCoinsView × Bool) :
    Option (CCoinsView × Bool) :=
  if input.1.isPegin then some st
  else do
    let overwrites := st.1.contains input.1.prevout
    let coin ← restoredCoin genesis st.1 input.1.prevout input.2
    let view ← addCoin overwrites st.1 (input.1.prevout, coin)
    some (view, st.2 && !overwrites)

/-- An output in `DisconnectBlock`: it has to be there as the block made it. -/
def disconnectOutput (st : CCoinsView × Bool) (entry : COutPoint × Coin) : CCoinsView × Bool :=
  if isUnspendable entry.2.out.scriptPubKey then st
  else (st.1.erase entry.1, st.2 && st.1[entry.1]? == some entry.2)

/-- A transaction other than the coinbase in `DisconnectBlock`. -/
def disconnectTx (genesis : Bool) (nHeight : ℕ) (p : CTransaction × CTxUndo)
    (st : CCoinsView × Bool) : Option (CCoinsView × Bool) :=
  let st := (outputCoins nHeight p.1).foldl disconnectOutput st
  if p.2.length ≠ p.1.vin.length then none
  else (p.1.vin.zip p.2).foldrM (applyTxInUndo genesis) st

/-- `DisconnectBlock`: the view before the block, and whether the result is clean. -/
def disconnectCoins (genesis : Bool) (view : CCoinsView) (nHeight : ℕ)
    (block : CBlock) (undo : CBlockUndo) : Option (CCoinsView × Bool) :=
  match block.vtx with
  | [] => none
  | coinbase :: txs =>
    if undo.length ≠ txs.length then none
    else do
      let st ← (txs.zip undo).foldrM (disconnectTx genesis nHeight) (view, true)
      some ((outputCoins nHeight coinbase).foldl disconnectOutput st)

/-- What undo data relies on: coins are spendable, the coins of one transaction agree about the
block it was in, and coins of the genesis block are there only if they are connected. -/
def Kept (genesis : Bool) (origin : Uint256 → ℕ × Bool) (view : CCoinsView) : Prop :=
  ∀ e ∈ view.toList, isUnspendable e.2.out.scriptPubKey = false ∧
    origin e.1.hash = (e.2.nHeight, e.2.fCoinBase) ∧
    (e.2.nHeight = 0 → genesis = true)

variable {genesis clean overwrite : Bool} {origin : Uint256 → ℕ × Bool}
  {view view' : CCoinsView} {o : COutPoint} {coin : Coin} {nHeight : ℕ} {tx : CTransaction}
  {undo : CTxUndo} {entries : List (COutPoint × Coin)} {txs : List CTransaction}

/-- A coin taken out and put back. -/
theorem insert_erase (hcoin : view[o]? = some coin) : (view.erase o).insert o coin = view := by
  refine ext_getElem? fun x => ?_
  rw [KeyedMap.getElem?_insert_eq, KeyedMap.getElem?_erase_eq]
  split
  · next heq => rw [← heq, hcoin]
  · rfl

theorem erase_insert (hnone : view[o]? = none) : (view.insert o coin).erase o = view := by
  refine ext_getElem? fun x => ?_
  rw [KeyedMap.getElem?_erase_eq, KeyedMap.getElem?_insert_eq]
  split
  · next heq => rw [← heq, hnone]
  · rfl

theorem Kept.of_subset (hkept : Kept genesis origin view)
    (hsubset : view'.toList ⊆ view.toList) : Kept genesis origin view' :=
  fun e he => hkept e (hsubset he)

/-- A coin that was spent is restored as it was. -/
theorem restoredCoin_erase (hkept : Kept genesis origin view)
    (hcoin : view[o]? = some coin) :
    restoredCoin genesis (view.erase o) o coin = some coin := by
  obtain ⟨-, horigin, hgenesis⟩ := hkept (o, coin) (mem_toList_iff_getElem?_eq_some.mpr hcoin)
  unfold restoredCoin
  split
  · next hzero =>
    cases hother : accessByTxid (view.erase o) o.hash with
    | none => exact if_pos (hgenesis hzero)
    | some alternate =>
      obtain ⟨⟨o', _⟩, hfind, rfl⟩ := Option.map_eq_some_iff.mp hother
      have hhash : o'.hash = o.hash := by simpa using find?_some hfind
      have hmem := mem_toList_iff_getElem?_eq_some.mp (mem_of_find?_eq_some hfind)
      rw [KeyedMap.getElem?_erase_eq] at hmem
      split at hmem
      · cases hmem
      · obtain ⟨-, horigin', -⟩ := hkept _ (mem_toList_iff_getElem?_eq_some.mpr hmem)
        rw [hhash, horigin, Prod.mk.injEq] at horigin'
        dsimp only at horigin' ⊢
        rw [← horigin'.1, ← horigin'.2]
  · rfl

/-- Restoring what the inputs of a transaction spent. -/
theorem foldrM_applyTxInUndo {vin : List CTxIn} (hkept : Kept genesis origin view)
    (hspend : spendInputs view vin = some (view', undo)) :
    (vin.zip undo).foldrM (applyTxInUndo genesis) (view', clean) =
      some (view, clean) := by
  induction vin generalizing view undo with
  | nil =>
    cases hspend
    rfl
  | cons txin vin ih =>
    rw [spendInputs] at hspend
    split at hspend
    · next hpegin =>
      obtain ⟨⟨view₁, undo₁⟩, hrest, heq⟩ := Option.map_eq_some_iff.mp hspend
      cases heq
      rw [zip_cons_cons, foldrM_cons, ih hkept hrest]
      exact if_pos hpegin
    · next hpegin =>
      split at hspend
      · cases hspend
      · next coin hcoin =>
        obtain ⟨⟨view₁, undo₁⟩, hrest, heq⟩ := Option.map_eq_some_iff.mp hspend
        cases heq
        have hsubset : (view.erase txin.prevout).toList ⊆ view.toList := fun e he =>
          (KeyedMap.toList_erase_perm hcoin).symm.subset (mem_cons_of_mem _ he)
        have hmem := mem_toList_iff_getElem?_eq_some.mpr hcoin
        rw [zip_cons_cons, foldrM_cons, ih (hkept.of_subset hsubset) hrest, Option.bind_eq_bind,
          Option.bind_some, applyTxInUndo, if_neg hpegin]
        simp [restoredCoin_erase hkept hcoin, addCoin, (hkept _ hmem).1, insert_erase hcoin]

/-- A coin elsewhere can be taken out before or after outputs are added. -/
theorem foldlM_addCoin_erase (hother : ∀ e ∈ entries, e.1 ≠ o)
    (hadd : entries.foldlM (addCoin overwrite) view = some view') :
    entries.foldlM (addCoin overwrite) (view.erase o) = some (view'.erase o) := by
  induction entries generalizing view with
  | nil =>
    cases hadd
    rfl
  | cons entry entries ih =>
    rw [forall_mem_cons] at hother
    rw [foldlM_cons] at hadd ⊢
    obtain ⟨view₁, hentry, hrest⟩ := Option.bind_eq_some_iff.mp hadd
    refine Option.bind_eq_some_iff.mpr ⟨view₁.erase o, ?_, ih hother.2 hrest⟩
    have hsame : (view.erase o).contains entry.1 = view.contains entry.1 := by
      rw [contains_eq_isSome_getElem?, KeyedMap.getElem?_erase_eq, if_neg hother.1.symm,
        contains_eq_isSome_getElem?]
    revert hentry
    unfold addCoin
    rw [hsame]
    split
    · rintro ⟨⟩
      rfl
    · split
      · rintro ⟨⟩
      · rintro ⟨⟩
        refine congrArg some (ext_getElem? fun x => ?_)
        simp only [KeyedMap.getElem?_insert_eq, KeyedMap.getElem?_erase_eq]
        grind

/-- Taking out the outputs that were added. -/
theorem foldl_disconnectOutput (hnodup : (entries.map Prod.fst).Nodup)
    (hfresh : ∀ e ∈ entries, view[e.1]? = none)
    (hadd : entries.foldlM (addCoin overwrite) view = some view') :
    entries.foldl disconnectOutput (view', clean) = (view, clean) := by
  induction entries generalizing view view' clean with
  | nil =>
    cases hadd
    rfl
  | cons entry entries ih =>
    rw [foldlM_cons] at hadd
    obtain ⟨view₁, hentry, hrest⟩ := Option.bind_eq_some_iff.mp hadd
    rw [map_cons, nodup_cons] at hnodup
    rw [forall_mem_cons] at hfresh
    have hother : ∀ e ∈ entries, e.1 ≠ entry.1 := fun e he heq =>
      hnodup.1 (heq ▸ mem_map_of_mem he)
    rw [foldl_cons, disconnectOutput]
    unfold addCoin at hentry
    split at hentry
    · next hunspendable =>
      cases hentry
      rw [if_pos hunspendable]
      exact ih hnodup.2 hfresh.2 hrest
    · next hspendable =>
      split at hentry
      · cases hentry
      · cases hentry
        have hfresh₁ : ∀ e ∈ entries, (view.insert entry.1 entry.2)[e.1]? = none := fun e he => by
          rw [KeyedMap.getElem?_insert_eq, if_neg (hother e he).symm, hfresh.2 e he]
        have hthere : view'[entry.1]? = some entry.2 := by
          refine mem_toList_iff_getElem?_eq_some.mp
            ((foldlM_addCoin_perm hnodup.2 hfresh₁ hrest).symm.subset (mem_append_left _ ?_))
          rw [mem_toList_iff_getElem?_eq_some, KeyedMap.getElem?_insert_eq, if_pos rfl]
        have herase := foldlM_addCoin_erase hother hrest
        rw [erase_insert hfresh.1] at herase
        rw [if_neg hspendable, hthere, beq_self_eq_true, Bool.and_true]
        exact ih hnodup.2 hfresh.2 herase

/-- A transaction keeps this. -/
theorem Kept.updateCoins (hheight : nHeight ≠ 0)
    (horigin : origin tx.txid = (nHeight, tx.isCoinBase)) (hkept : Kept genesis origin view)
    (hfresh : ∀ e ∈ outputCoins nHeight tx, view[e.1]? = none)
    (hupdate : updateCoins view tx nHeight = .ok (view', undo)) :
    Kept genesis origin view' := by
  intro e he
  rcases mem_append.mp ((updateCoins_perm hfresh hupdate).2.subset (mem_append_left _ he)) with
    hold | hnew
  · exact hkept e hold
  · obtain ⟨hmem, hspendable⟩ := mem_filter.mp hnew
    obtain ⟨⟨out, n⟩, -, rfl⟩ := mem_map.mp hmem
    exact ⟨by simpa using hspendable, horigin, fun hzero => absurd hzero hheight⟩

/-- Undoing one transaction. -/
theorem disconnectTx_updateCoins (hkept : Kept genesis origin view)
    (hcoinbase : tx.isCoinBase = false)
    (hfresh : ∀ e ∈ outputCoins nHeight tx, view[e.1]? = none)
    (hupdate : updateCoins view tx nHeight = .ok (view', undo)) :
    disconnectTx genesis nHeight (tx, undo) (view', clean) = some (view, clean) := by
  revert hupdate
  fun_cases Sequentia.updateCoins view tx nHeight <;> rintro ⟨⟩
  next view₁ hadd hspend =>
  rw [hcoinbase] at hspend
  have hlength := length_of_spendInputs hspend
  rw [disconnectTx, foldl_disconnectOutput (nodup_outputCoins nHeight tx)
    (fun e he => spendInputs_none hspend (hfresh e he)) hadd, if_neg (not_not.mpr hlength)]
  exact foldrM_applyTxInUndo hkept hspend

/-- The first transaction of a run, and the others after it. -/
theorem connectTxs_cons {undos : List CTxUndo}
    (hnodup : ((tx :: txs).map CTransaction.txid).Nodup)
    (hfresh : ∀ t ∈ tx :: txs, ∀ e ∈ outputCoins nHeight t, view[e.1]? = none)
    (hconnect : connectTxs nHeight view (tx :: txs) = .ok (view', undos)) :
    ∃ view₁ undo undos₁, undos = undo :: undos₁ ∧ updateCoins view tx nHeight = .ok (view₁, undo) ∧
      connectTxs nHeight view₁ txs = .ok (view', undos₁) ∧
      ∀ t ∈ txs, ∀ e ∈ outputCoins nHeight t, view₁[e.1]? = none := by
  rw [connectTxs] at hconnect
  split at hconnect
  · cases hconnect
  · next view₁ undo hupdate =>
    split at hconnect
    · cases hconnect
    · next view₂ undos₁ hrest =>
      cases hconnect
      rw [map_cons, nodup_cons] at hnodup
      refine ⟨view₁, undo, undos₁, rfl, hupdate, hrest, fun t ht e he => ?_⟩
      refine updateCoins_none hupdate ?_ (hfresh t (mem_cons_of_mem _ ht) e he)
      rw [hash_of_mem_outputCoins he]
      exact fun heq => hnodup.1 (heq ▸ mem_map_of_mem ht)

/-- Undoing a run of transactions, the last one first. -/
theorem foldrM_disconnectTx {undos : List CTxUndo} (hheight : nHeight ≠ 0)
    (horigin : ∀ tx ∈ txs, origin tx.txid = (nHeight, tx.isCoinBase))
    (hcoinbase : ∀ tx ∈ txs, tx.isCoinBase = false) (hnodup : (txs.map CTransaction.txid).Nodup)
    (hkept : Kept genesis origin view)
    (hfresh : ∀ tx ∈ txs, ∀ e ∈ outputCoins nHeight tx, view[e.1]? = none)
    (hconnect : connectTxs nHeight view txs = .ok (view', undos)) :
    Kept genesis origin view' ∧ undos.length = txs.length ∧
      (txs.zip undos).foldrM (disconnectTx genesis nHeight) (view', clean) =
        some (view, clean) := by
  induction txs generalizing view undos with
  | nil =>
    cases hconnect
    exact ⟨hkept, rfl, rfl⟩
  | cons tx txs ih =>
    obtain ⟨view₁, undo, undos₁, rfl, hupdate, hrest, hfresh₁⟩ :=
      connectTxs_cons hnodup hfresh hconnect
    rw [forall_mem_cons] at horigin hcoinbase hfresh
    obtain ⟨hkept', hlength, hundone⟩ := ih horigin.2 hcoinbase.2 (nodup_cons.mp hnodup).2
      (hkept.updateCoins hheight horigin.1 hfresh.1 hupdate) hfresh₁ hrest
    refine ⟨hkept', congrArg Nat.succ hlength, ?_⟩
    rw [zip_cons_cons, foldrM_cons, hundone]
    exact disconnectTx_updateCoins hkept hcoinbase.1 hfresh.1 hupdate

/-- Disconnecting a block that was connected restores the UTXO set, cleanly. -/
theorem disconnectCoins_connectCoins {block : CBlock} {undo : CBlockUndo} (hheight : nHeight ≠ 0)
    (horigin : ∀ tx ∈ block.vtx, origin tx.txid = (nHeight, tx.isCoinBase))
    (hkept : Kept genesis origin view)
    (hconnect : connectCoins view nHeight block = .ok (view', undo)) :
    Kept genesis origin view' ∧
      disconnectCoins genesis view' nHeight block undo = some (view, true) := by
  revert hconnect
  fun_cases connectCoins view nHeight block <;> rintro ⟨⟩
  next coinbase txs hvtx hfirst hothers hbip30 undos hrun =>
  have hfresh : ∀ tx ∈ block.vtx, ∀ e ∈ outputCoins nHeight tx, view[e.1]? = none := by
    intro tx htx e he
    simp only [overwritesCoin, any_eq_true, not_exists, not_and] at hbip30
    simpa using hbip30 tx htx e he
  have hnodup := block.txids_nodup
  have hcoinbase : ∀ tx ∈ txs, tx.isCoinBase = false := by simpa using hothers
  rw [hvtx] at hrun hfresh hnodup horigin
  obtain ⟨view₁, undo₁, undos₁, rfl, hupdate, hrest, hfresh₁⟩ := connectTxs_cons hnodup hfresh hrun
  rw [forall_mem_cons] at horigin hfresh
  obtain ⟨hkept', hlength, hundone⟩ := foldrM_disconnectTx hheight horigin.2 hcoinbase
    (nodup_cons.mp hnodup).2 (hkept.updateCoins hheight horigin.1 hfresh.1 hupdate) hfresh₁ hrest
  refine ⟨hkept', ?_⟩
  rw [disconnectCoins, hvtx, tail_cons]
  dsimp only
  rw [if_neg (not_not.mpr hlength), hundone]
  -- The outputs of the coinbase go last; it has no inputs to restore.
  revert hupdate
  fun_cases Sequentia.updateCoins view coinbase nHeight <;> rintro ⟨⟩
  next view₂ hadd hspend =>
  rw [if_pos (by simpa using hfirst)] at hspend
  cases hspend
  exact congrArg some (foldl_disconnectOutput (nodup_outputCoins nHeight coinbase) hfresh.1 hadd)

end Sequentia
