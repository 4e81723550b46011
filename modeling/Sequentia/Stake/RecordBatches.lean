import Sequentia.Stake.BlockLayers
import Sequentia.Stake.RuleFacts

/-!
# A block as a batch of record steps

The delegation and payout records of a block that passed the rules form a batch: created
records are unambiguous, and a block spends no record that it creates. For delegations the
rules also make sure that a record whose controller gets a new one is spent.
-/

namespace Sequentia

open Slots List

section Reader

variable {κ ν η : Type}

/-- A reader of records: a spendable coin carries at most one, identified by its
outpoint. -/
structure RecordReader (g : COutPoint × Coin → List (Entry COutPoint κ ν η)) : Prop where
  /-- The outpoint identifies the record. -/
  id_eq : ∀ e, ∀ E ∈ g e, E.id = e.1
  /-- One coin carries one record. -/
  length_le : ∀ e, (g e).length ≤ 1
  /-- Unspendable outputs carry none. -/
  unspendable : ∀ e, isUnspendable e.2.out.scriptPubKey = true → g e = []

variable {g : COutPoint × Coin → List (Entry COutPoint κ ν η)} {view view' : CCoinsView}
  {block : CBlock} {undo : CBlockUndo} {height : ℕ}

theorem RecordReader.nodup (hg : RecordReader g) {l : List (COutPoint × Coin)}
    (hl : (l.map Prod.fst).Nodup) : (l.flatMap g).Nodup := by
  induction l with
  | nil => simp
  | cons e l ih =>
    rw [map_cons, nodup_cons] at hl
    rw [flatMap_cons, nodup_append']
    refine ⟨?_, ih hl.2, ?_⟩
    · rcases hge : g e with _ | ⟨E, _ | ⟨E', rest⟩⟩
      · simp
      · simp
      · simpa [hge] using hg.length_le e
    · intro E hE hE'
      obtain ⟨e', he', hE'⟩ := mem_flatMap.mp hE'
      refine hl.1 (mem_map.mpr ⟨e', he', ?_⟩)
      rw [← hg.id_eq e E hE, hg.id_eq e' E hE']

theorem spentAll_recordSteps :
    spentAll (recordSteps g block undo height) = block.spentItems g undo := by
  simp only [spentAll, recordSteps, flatMap_map]
  rfl

theorem createdAll_recordSteps :
    createdAll (recordSteps g block undo height) = block.createdItems g undo height := by
  simp only [createdAll, recordSteps, flatMap_map]
  rfl

/-- The keys of the records a block creates are among those that a check of its outputs
goes through. -/
theorem createdItems_keys_sublist {key? : CTxOut → Option κ}
    (hkey : ∀ e : COutPoint × Coin, e.2.nHeight = height →
      ((g e).map Entry.key).Sublist (key? e.2.out).toList) :
    ((block.createdItems g undo height).map Entry.key).Sublist
      (block.outputs.filterMap key?) := by
  have htx : ∀ tx : CTransaction, (((outputCoins height tx).flatMap g).map Entry.key).Sublist
      (tx.vout.filterMap key?) := by
    intro tx
    unfold outputCoins
    generalize 0 = start
    induction tx.vout generalizing start with
    | nil => simp
    | cons out vout ih =>
      rw [zipIdx_cons, map_cons, flatMap_cons, map_append,
        filterMap_cons]
      have hhead := hkey (⟨tx.txid, start⟩, ⟨out, height, tx.isCoinBase⟩) rfl
      cases hout : key? out with
      | none =>
        simp only [hout, Option.toList_none, sublist_nil] at hhead
        rw [hhead, nil_append]
        exact ih _
      | some k =>
        simp only [hout, Option.toList_some] at hhead
        exact hhead.append (ih _)
  have hpairs : ∀ txs : List (CTransaction × CTxUndo),
      ((txs.flatMap fun p => (outputCoins height p.1).flatMap g).map Entry.key).Sublist
        (((txs.map Prod.fst).flatMap CTransaction.vout).filterMap key?) := by
    intro txs
    induction txs with
    | nil => simp
    | cons p txs ih =>
      simp only [flatMap_cons, map_append, map_cons, filterMap_append]
      exact (htx p.1).append ih
  have := hpairs (block.spends undo)
  rwa [CBlock.spends, map_fst_pairUndo] at this

theorem RecordReader.batch [DecidableEq κ] (hg : RecordReader g)
    (hconnected : Connected view view' height block undo)
    (hold : UniqueKeys (view.toList.flatMap g))
    (hcreated : UniqueKeys (block.createdItems g undo height))
    (hfresh : ∀ e ∈ block.spentEntries undo, e ∈ block.createdEntries height → g e = []) :
    Batch (view.toList.flatMap g) (view'.toList.flatMap g) (recordSteps g block undo height) where
  unique_old := hold
  unique_created := by rwa [createdAll_recordSteps]
  nodup := by
    rw [createdAll_recordSteps, createdItems_eq hg.unspendable, ← flatMap_append]
    exact hg.nodup hconnected.nodup
  delta := by
    rw [createdAll_recordSteps, spentAll_recordSteps]
    exact hconnected.delta_flatMap hg.unspendable
  spent_old := by
    rw [createdAll_recordSteps, spentAll_recordSteps, createdItems_eq hg.unspendable,
      hconnected.spentItems_eq hg.unspendable]
    intro E hE hE'
    obtain ⟨e, he, hE⟩ := mem_flatMap.mp hE
    obtain ⟨e', he', hE'⟩ := mem_flatMap.mp hE'
    have hfst : e.1 = e'.1 := by rw [← hg.id_eq e E hE, hg.id_eq e' E hE']
    obtain rfl := inj_on_of_nodup_map hconnected.nodup (hconnected.mem_of_spent he)
      (mem_append_right _ he') hfst
    rw [hfresh e he he'] at hE
    cases hE

end Reader

section Records

variable {params : Params} {st st' : ChainState} {block : CBlock} {undo : CBlockUndo}

variable {e : COutPoint × Coin}

theorem mem_delegEntries {E : DelegEntry} :
    E ∈ delegEntries e ↔ delegationFromTxOut e.2.out = some (E.key, E.content) ∧ E.id = e.1 ∧
      E.stamp = e.2.nHeight := by
  unfold delegEntries
  cases delegationFromTxOut e.2.out with
  | none => simp
  | some deleg =>
    obtain ⟨id, key, content, stamp⟩ := E
    simp only [mem_singleton, Entry.mk.injEq, Option.some.injEq, Prod.ext_iff]
    tauto

theorem delegEntries_reader : RecordReader delegEntries where
  id_eq e E hE := (mem_delegEntries.mp hE).2.1
  length_le e := by
    unfold delegEntries
    split <;> simp
  unspendable e := delegEntries_of_unspendable

theorem mem_payoutEntries {E : PayoutEntry} :
    E ∈ payoutEntries params e ↔ payoutFromTxOut e.2.out = some (E.key.1, E.content) ∧
      payoutRecordRecognized params E.content e.2.nHeight = true ∧ E.id = e.1 ∧
      E.key.2 = E.content.activation := by
  unfold payoutEntries
  cases payoutFromTxOut e.2.out with
  | none => simp
  | some payout =>
    obtain ⟨signer, policy⟩ := payout
    obtain ⟨id, ⟨signer', activation⟩, content, stamp⟩ := E
    by_cases hrecognized : payoutRecordRecognized params policy e.2.nHeight = true
    · simp only [hrecognized, if_true, mem_singleton, Entry.mk.injEq, Prod.mk.injEq,
        Option.some.injEq, and_true]
      constructor
      · rintro ⟨rfl, ⟨rfl, rfl⟩, rfl⟩
        exact ⟨⟨rfl, rfl⟩, hrecognized, rfl, rfl⟩
      · rintro ⟨⟨rfl, rfl⟩, -, rfl, rfl⟩
        exact ⟨rfl, ⟨rfl, rfl⟩, rfl⟩
    · simp only [hrecognized, if_false, Bool.false_eq_true, not_mem_nil, Option.some.injEq,
        Prod.mk.injEq, false_iff, not_and]
      rintro ⟨rfl, rfl⟩ h
      exact absurd h hrecognized

theorem payoutEntries_reader : RecordReader (payoutEntries params) where
  id_eq e E hE := (mem_payoutEntries.mp hE).2.2.1
  length_le e := by
    unfold payoutEntries
    split
    · split <;> simp
    · simp
  unspendable e := payoutEntries_of_unspendable

/-- A recognised record is one that the rules do not skip. -/
theorem not_inertSplit {policy : PosPayoutPolicy} {height : ℕ}
    (hrecognized : payoutRecordRecognized params policy height = true) :
    inertSplit params height policy = false := by
  simp only [payoutRecordRecognized, Bool.or_eq_true, bne_iff_ne, beq_iff_eq,
    decide_eq_true_eq] at hrecognized
  simp only [inertSplit, Params.splitPayoutActiveAt]
  rcases hrecognized with (hmode | hzero) | hheight
  · simp [hmode]
  · simp [hzero]
  · simp [hheight]

theorem payoutEntries_keys : ((payoutEntries params e).map Entry.key).Sublist
      (payoutKey params e.2.nHeight e.2.out).toList := by
  unfold payoutEntries payoutKey
  cases payoutFromTxOut e.2.out with
  | none => simp
  | some payout =>
    obtain ⟨signer, policy⟩ := payout
    by_cases hrecognized : payoutRecordRecognized params policy e.2.nHeight = true
    · simp [hrecognized, not_inertSplit hrecognized]
    · simp [hrecognized]

variable (hfacts : BlockFacts params st st' block undo)

include hfacts

theorem BlockFacts.delegEntries_of_recreated
    (hspent : e ∈ block.spentEntries undo) (hcreated : e ∈ block.createdEntries (st.height + 1)) :
    delegEntries e = [] := by
  refine eq_nil_iff_forall_not_mem.mpr fun E hE => ?_
  have hdeleg := (mem_delegEntries.mp hE).1
  exact hfacts.records.script_fresh e.2.out (output_of_created hcreated).1
    (Or.inl (by simp [delegKey, hdeleg])) e.2 (mem_undo_of_spent hspent)
    (Or.inl (by simp [hdeleg])) rfl

theorem BlockFacts.payoutEntries_of_recreated
    (hspent : e ∈ block.spentEntries undo) (hcreated : e ∈ block.createdEntries (st.height + 1)) :
    payoutEntries params e = [] := by
  refine eq_nil_iff_forall_not_mem.mpr fun E hE => ?_
  obtain ⟨hpayout, hrecognized, -, -⟩ := mem_payoutEntries.mp hE
  obtain ⟨hout, hheight⟩ := output_of_created hcreated
  rw [hheight] at hrecognized
  exact hfacts.records.script_fresh e.2.out hout
    (Or.inr (by simp [payoutKey, hpayout, not_inertSplit hrecognized])) e.2
    (mem_undo_of_spent hspent) (Or.inr (by simp [hpayout])) rfl

theorem BlockFacts.delegBatch (hold : UniqueKeys (st.coins.toList.flatMap delegEntries)) :
    Batch (st.coins.toList.flatMap delegEntries) (st'.coins.toList.flatMap delegEntries)
      (recordSteps delegEntries block undo (st.height + 1)) := by
  refine delegEntries_reader.batch hfacts.connected hold (uniqueKeys_of_nodup ?_)
    fun e hspent hcreated => hfacts.delegEntries_of_recreated hspent hcreated
  refine List.Sublist.nodup (createdItems_keys_sublist fun e _ => ?_) hfacts.records.deleg_nodup
  unfold delegEntries delegKey
  cases delegationFromTxOut e.2.out <;> rfl

theorem BlockFacts.payoutBatch
    (hold : UniqueKeys (st.coins.toList.flatMap (payoutEntries params))) :
    Batch (st.coins.toList.flatMap (payoutEntries params))
      (st'.coins.toList.flatMap (payoutEntries params))
      (recordSteps (payoutEntries params) block undo (st.height + 1)) := by
  refine payoutEntries_reader.batch hfacts.connected hold (uniqueKeys_of_nodup ?_)
    fun e hspent hcreated => hfacts.payoutEntries_of_recreated hspent hcreated
  refine List.Sublist.nodup (createdItems_keys_sublist fun e hheight => ?_)
    hfacts.records.payout_nodup
  exact hheight ▸ payoutEntries_keys

theorem BlockFacts.deleg_replaced (hold : UniqueKeys (st.coins.toList.flatMap delegEntries))
    (hhas : ∀ E ∈ st.coins.toList.flatMap delegEntries, st.registry.hasDelegation E.key = true) :
    ∀ N ∈ createdAll (recordSteps delegEntries block undo (st.height + 1)),
      ∀ E ∈ st.coins.toList.flatMap delegEntries, E.key = N.key →
        E ∈ spentAll (recordSteps delegEntries block undo (st.height + 1)) := by
  rw [createdAll_recordSteps, spentAll_recordSteps, createdItems_eq delegEntries_reader.unspendable,
    hfacts.connected.spentItems_eq delegEntries_reader.unspendable]
  intro N hN E hE hkey
  obtain ⟨e, he, hNe⟩ := mem_flatMap.mp hN
  have hdeleg := (mem_delegEntries.mp hNe).1
  obtain ⟨coin, hcoin, hcoinKey⟩ := hfacts.records.deleg_rotated e.2.out
    (output_of_created he).1 N.key (by simp [delegKey, hdeleg]) (hkey ▸ hhas E hE)
  obtain ⟨deleg, hcoinDeleg, hcontroller⟩ := Option.map_eq_some_iff.mp hcoinKey
  have hne : coin ≠ Coin.null := by
    rintro rfl
    have hunspendable := isUnspendable_of_delegationFromTxOut hcoinDeleg
    cases hunspendable
  obtain ⟨o, hspent⟩ := hfacts.connected.spent_of_mem_undo hcoin hne
  let E' : DelegEntry := ⟨o, deleg.1, deleg.2, coin.nHeight⟩
  have hE' : E' ∈ delegEntries (o, coin) := mem_delegEntries.mpr ⟨hcoinDeleg, rfl, rfl⟩
  -- The spent record is from before the block, so it is the one of this controller.
  rcases mem_append.mp (hfacts.connected.mem_of_spent hspent) with hbefore | hcreated
  · have hkey' : E.key = E'.key := by rw [hkey, ← hcontroller]
    rw [eq_of_uniqueKeys hold hE (mem_flatMap.mpr ⟨_, hbefore, hE'⟩) hkey']
    exact mem_flatMap.mpr ⟨_, hspent, hE'⟩
  · rw [hfacts.delegEntries_of_recreated hspent hcreated] at hE'
    cases hE'

omit hfacts

end Records

end Sequentia
