import Sequentia.Amounts.Flow
import Sequentia.Supervision.MempoolRun

/-!
# Entries when a block is connected

A block that is connected leaves the entries that conflict with nothing in it, and those that it
invalidates through records go. The node looks at records only: an entry that hides an output
in an asset which the block declares stays.
-/

namespace Sequentia

open Std Checks KeyedMap List ExtTreeMap Option

variable {env : ChainEnv} {names : Uint256 → CTransaction} {s s' : MempoolState}

section Connect

variable {block : CBlock} {undo : CBlockUndo} {view view' : CCoinsView} {height : ℕ}

theorem outputOf_of_created (hnamed : ∀ tx ∈ block.vtx, names tx.txid = tx)
    {o : COutPoint} {coin : Coin} (hcreated : (o, coin) ∈ block.createdEntries height) :
    outputOf names o = some coin.out ∧ ∃ tx ∈ block.vtx, tx.txid = o.hash := by
  obtain ⟨tx, htx, hentry⟩ := mem_flatMap.mp hcreated
  obtain ⟨⟨out, n⟩, hout, heq⟩ := mem_map.mp (mem_of_mem_filter hentry)
  obtain ⟨rfl, rfl⟩ := Prod.mk.inj heq
  refine ⟨?_, tx, htx, rfl⟩
  rw [outputOf, hnamed tx htx]
  exact mk_mem_zipIdx_iff_getElem?.mp hout

theorem Connected.named (hconnected : Connected view view' height block undo)
    (hnamed : ∀ tx ∈ block.vtx, names tx.txid = tx) (hview : CCoinsView.Named names view) :
    CCoinsView.Named names view' := by
  intro o coin hcoin
  have hmem := hconnected.delta.subset (mem_append_left _
    (mem_toList_iff_getElem?_eq_some.mpr hcoin))
  rcases mem_append.mp hmem with hold | hcreated
  · exact hview o coin (mem_toList_iff_getElem?_eq_some.mp hold)
  · exact (outputOf_of_created hnamed hcreated).1

/-- An outpoint that is there, or that a transaction of the block names, is there after the
block if no input of the block spends it. -/
theorem Connected.exists_coin (hconnected : Connected view view' height block undo)
    (hnamed : ∀ tx ∈ block.vtx, names tx.txid = tx) {o : COutPoint}
    (hunspent : ∀ tx ∈ block.vtx, ∀ txin ∈ tx.vin, o ≠ txin.prevout) {out : CTxOut}
    (hout : outputOf names o = some out) (hspendable : isUnspendable out.scriptPubKey = false)
    (hthere : (∃ coin, view[o]? = some coin) ∨ ∃ tx ∈ block.vtx, tx.txid = o.hash) :
    ∃ coin, view'[o]? = some coin := by
  obtain ⟨coin, hmem⟩ : ∃ coin, (o, coin) ∈ view.toList ++ block.createdEntries height := by
    rcases hthere with ⟨coin, hcoin⟩ | ⟨tx, htx, heq⟩
    · exact ⟨coin, mem_append_left _ (mem_toList_iff_getElem?_eq_some.mpr hcoin)⟩
    · refine ⟨⟨out, height, tx.isCoinBase⟩, mem_append_right _ (mem_flatMap.mpr
        ⟨tx, htx, mem_filter.mpr ⟨mem_map.mpr ⟨(out, o.n), ?_, ?_⟩, ?_⟩⟩)⟩
      · rw [outputOf, ← heq, hnamed tx htx] at hout
        exact mk_mem_zipIdx_iff_getElem?.mpr hout
      · rw [heq]
      · simp [hspendable]
  rcases mem_append.mp (hconnected.delta.symm.subset hmem) with hcoin | hspent
  · exact ⟨coin, mem_toList_iff_getElem?_eq_some.mp hcoin⟩
  · obtain ⟨⟨tx, undos⟩, hq, hentry⟩ := mem_flatMap.mp hspent
    obtain ⟨⟨txin, coin'⟩, hp, heq⟩ := mem_map.mp hentry
    have htx : tx ∈ block.vtx := by
      rw [← map_fst_pairUndo block.vtx ([] :: undo)]
      exact mem_map_of_mem hq
    have htxin := (of_mem_zip (mem_of_mem_filter hp)).1
    exact absurd (Prod.mk.inj heq).1.symm (hunspent tx htx txin htxin)

theorem MempoolState.Tracked.connect (htracked : s.Tracked names) {chain : SupervisedState}
    (hnamed : ∀ tx ∈ block.vtx, names tx.txid = tx)
    (hconnect : s.chain.connectBlock env block = .ok (chain, undo)) :
    ({ chain
       history := (s.chain, block, undo) :: s.history
       pool := s.pool.removeForBlock block.vtx
       disconnectpool := s.disconnectpool.filter fun tx =>
        !(block.vtx.map CTransaction.txid).contains tx.txid } : MempoolState).Tracked names := by
  have haccepted := acceptedBlock_of_connectBlock hconnect
  have hconnected := haccepted.connected
  refine ⟨fun tx htx => htracked.pool tx (removeForBlock_spec htx).1,
    fun tx htx => htracked.disconnectpool tx (mem_of_mem_filter htx),
    hconnected.named hnamed htracked.coins,
    ⟨haccepted.height, haccepted.coins, hnamed, htracked.coins, htracked.history⟩, ?_,
    fun tx htx => htracked.spendable tx (removeForBlock_spec htx).1⟩
  intro tx htx txin htxin hpegin
  obtain ⟨hpool, hblock, hparents⟩ := removeForBlock_spec htx
  obtain ⟨out, hout, hspendable⟩ := htracked.spendable tx hpool txin htxin hpegin
  have hcoin := hconnected.exists_coin hnamed
    (fun t ht txin' htxin' => (hblock t ht).2 txin htxin txin' htxin') hout hspendable
  have hconfirmed : txin.prevout.hash ∈ block.vtx.map CTransaction.txid →
      ∃ coin, chain.coins[txin.prevout]? = some coin := by
    intro hmem
    obtain ⟨t, ht, heq⟩ := mem_map.mp hmem
    exact hcoin (Or.inr ⟨t, ht, heq⟩)
  rcases htracked.available tx hpool txin htxin hpegin with ⟨t, ht, heq⟩ | hold | ⟨t, ht, heq⟩
  · rcases hparents txin htxin t ht heq with hkept | hin
    · exact Or.inl ⟨t, hkept, heq⟩
    · exact Or.inr (Or.inl (hconfirmed (heq ▸ hin)))
  · exact Or.inr (Or.inl (hcoin (Or.inl hold)))
  · by_cases hin : t.txid ∈ block.vtx.map CTransaction.txid
    · exact Or.inr (Or.inl (hconfirmed (heq ▸ hin)))
    · exact Or.inr (Or.inr ⟨t, mem_filter.mpr ⟨ht, by simpa using hin⟩, heq⟩)

end Connect

theorem mem_of_mem_decAt {κ : Type} [Ord κ] [TransOrd κ] [LawfulEqOrd κ] [DecidableEq κ]
    {m : ExtTreeMap κ ℕ} {k a : κ} (ha : a ∈ decAt m k) : a ∈ m := by
  revert ha
  fun_cases decAt m k
  · exact id
  · exact mem_of_mem_erase
  · next n hn _ =>
    rw [mem_insert, LawfulEqOrd.compare_eq_iff_eq]
    rintro (rfl | ha)
    · exact mem_iff_isSome_getElem?.mpr (by rw [hn]; rfl)
    · exact ha

theorem mem_of_mem_countDown {a : CAsset} {scripts : List SupervisionScript}
    {frozen : ExtTreeMap Uint256 ℕ} {target : Uint256}
    (htarget : target ∈ countDown a scripts frozen) : target ∈ frozen := by
  unfold countDown at htarget
  generalize scripts.filterMap (SupervisionScript.freezes a) = l at htarget
  induction l generalizing frozen with
  | nil => exact htarget
  | cons t l ih => exact mem_of_mem_decAt (ih htarget)

theorem eases_update {e : SupervisionEntry} {keys : Bool → XOnlyPubKey → XOnlyPubKey}
    {frozen : ExtTreeMap Uint256 ℕ → ExtTreeMap Uint256 ℕ} (hkeys : ∀ role k, keys role k = k)
    (hfrozen : ∀ target ∈ frozen e.frozen, target ∈ e.frozen) : e.Eases (e.update keys frozen) :=
  ⟨rfl, fun role => by rw [e.key_update, hkeys], hfrozen⟩

theorem silent_of_not_carriesRecords {block : CBlock} (hnone : block.carriesRecords = false)
    (a : CAsset) : block.created.filterMap (SupervisionScript.freezes a) = [] ∧
      ∀ role, block.created.filterMap (SupervisionScript.rotates a role) = [] := by
  have hsilent : ∀ x ∈ block.created, x = .other ∨ ∃ decl, x = .declaration decl := by
    intro x hx
    obtain ⟨script, hscript, rfl⟩ := mem_map.mp hx
    obtain ⟨tx, htx, hscript⟩ := mem_flatMap.mp hscript
    obtain ⟨out, hout, rfl⟩ := mem_map.mp hscript
    have hrecord : parseSupervisionRecordScript out.scriptPubKey = none := by
      by_contra hne
      refine Bool.false_ne_true (hnone.symm.trans (any_eq_true.mpr ⟨tx, htx,
        any_eq_true.mpr ⟨out, hout, ?_⟩⟩))
      exact isSome_iff_ne_none.mpr hne
    unfold readScript
    rw [hrecord]
    cases parseSupervisionScript out.scriptPubKey with
    | none => exact Or.inl rfl
    | some decl => exact Or.inr ⟨decl, rfl⟩
  refine ⟨filterMap_eq_nil_iff.mpr fun x hx => ?_,
    fun role => filterMap_eq_nil_iff.mpr fun x hx => ?_⟩
  · rcases hsilent x hx with rfl | ⟨decl, rfl⟩ <;> rfl
  · rcases hsilent x hx with rfl | ⟨decl, rfl⟩ <;> rfl

section Registry

variable {st st' : SupervisedState} {block : CBlock} {undo : CBlockUndo}

theorem HardenedBlock.widens (hblock : HardenedBlock env st block st' undo)
    (hnew : st.NewDeclarations block) (hnone : block.carriesRecords = false) :
    st.registry.Widens st'.registry block.declared := by
  intro a
  rcases hblock.getElem?_registry hnew a with
    ⟨decl, hdecl, rfl, hold, hentry⟩ | ⟨-, hupdate⟩
  · exact Or.inr (Or.inr ⟨mem_filterMap.mpr ⟨_, hdecl, rfl⟩, hold, decl.entry, hentry, rfl⟩)
  · cases hold : st.registry[a]? with
    | none =>
      rw [hold] at hupdate
      exact Or.inl ⟨rfl, hupdate⟩
    | some e =>
      rw [hold, map_some] at hupdate
      obtain ⟨hfreezes, hrotates⟩ := silent_of_not_carriesRecords hnone a
      refine Or.inr (Or.inl ⟨e, _, rfl, hupdate, eases_update (fun role k => ?_) fun t ht => ?_⟩)
      · rw [keyAfter, hrotates]
        rfl
      · have := mem_of_mem_countDown ht
        rwa [countUp, hfreezes] at this

/-- Disconnecting a block that neither declares nor rotates nor spends records leaves a registry
that allows more. -/
theorem widens_revert {r : SupervisionRegistry} (hdeclared : block.declared = [])
    (hrotates : ∀ a role, block.created.filterMap (SupervisionScript.rotates a role) = [])
    (hspent : ∀ a, undo.spent.filterMap (SupervisionScript.freezes a) = []) :
    r.Widens (supervisionRevertBlock r block undo) [] := by
  intro a
  have hrevert : (supervisionRevertBlock r block undo)[a]? = r[a]?.map fun e =>
      e.update (keyBefore a block.created) (countDown a block.created ∘ countUp a undo.spent) :=
    getElem?_revert (by simp [hdeclared])
  cases hold : r[a]? with
  | none =>
    rw [hold] at hrevert
    exact Or.inl ⟨rfl, hrevert⟩
  | some e =>
    rw [hold, map_some] at hrevert
    refine Or.inr (Or.inl ⟨e, _, rfl, hrevert, eases_update (fun role k => ?_) fun t ht => ?_⟩)
    · have hnil : block.created.filterMap (fun x =>
          (SupervisionScript.rotates a role x).map Prod.swap) = [] := by
        rw [filterMap_eq_nil_iff]
        intro x hx
        rw [filterMap_eq_nil_iff.mp (hrotates a role) x hx]
        rfl
      rw [keyBefore, hnil]
      rfl
    · have := mem_of_mem_countDown ht
      rwa [countUp, hspent] at this

/-- A supervised asset stays supervised. -/
theorem HardenedBlock.registry_subset (hblock : HardenedBlock env st block st' undo)
    (hnew : st.NewDeclarations block) {a : CAsset} (ha : a ∈ st.registry) : a ∈ st'.registry := by
  rw [mem_iff_isSome_getElem?] at ha ⊢
  rcases hblock.getElem?_registry hnew a with
    ⟨decl, -, -, hnone, -⟩ | ⟨-, hupdate⟩
  · rw [hnone] at ha
    cases ha
  · rw [hupdate, isSome_map]
    exact ha

end Registry

/-- A block that can be connected without leaving an invalid entry. -/
structure ConnectsCleanly (env : ChainEnv) (names : Uint256 → CTransaction) (s : MempoolState)
    (block : CBlock) : Prop where
  /-- The transactions of the block are those that their identifiers name. -/
  named : ∀ tx ∈ block.vtx, names tx.txid = tx
  hardened : env.HardenedAt (s.chain.height + 1)
  new : s.chain.NewDeclarations block
  /-- Supervision does not begin after the block, unless the mempool is empty. -/
  boundary : env.params.supervisionActive (s.chain.height + 2) = true →
    env.params.supervisionActive (s.chain.height + 1) = true ∨ s.pool = []
  /-- A block with records is not connected in the middle of a reorganisation. -/
  settled : block.carriesRecords = true → s.disconnectpool = []
  first : s.chain.registry.isEmpty = true → block.declared ≠ [] → ∀ tx ∈ s.pool,
    ∀ out ∈ namedOuts names tx, parseSupervisionRecordScript out.scriptPubKey = none
  clear : ∀ tx ∈ s.pool, ∀ a ∈ block.declared, MovesAsset env tx (namedOuts names tx) a →
    HidesNothing env tx a

/-- The tip can be disconnected without leaving an invalid entry: the block neither declares nor
rotates, and it spends no record. -/
def DisconnectsCleanly (s : MempoolState) : Prop :=
  ∀ p ∈ s.history.head?, p.2.1.declared = [] ∧
    (∀ a role, p.2.1.created.filterMap (SupervisionScript.rotates a role) = []) ∧
    ∀ a, p.2.2.spent.filterMap (SupervisionScript.freezes a) = []

def KeepsClean (env : ChainEnv) (names : Uint256 → CTransaction) (s : MempoolState) :
    MempoolEvent → Prop
  | .accept tx => names tx.txid = tx
  | .remove _ => True
  | .connect block => ConnectsCleanly env names s block
  | .disconnect => DisconnectsCleanly s
  | .update _ _ => True

/-- The states that a node reaches with an empty mempool at the start, by events that meet a
condition. -/
inductive MempoolRun (env : ChainEnv) (names : Uint256 → CTransaction)
    (Admits : MempoolState → MempoolEvent → Prop) : MempoolState → Prop where
  | start {chain : SupervisedState} (hcoins : CCoinsView.Named names chain.coins) :
    MempoolRun env names Admits ⟨chain, [], [], []⟩
  | event {s s' : MempoolState} {event : MempoolEvent} (hrun : MempoolRun env names Admits s)
    (hadmits : Admits s event) (hstep : s.step env event = some s') :
    MempoolRun env names Admits s'

/-- An entry that the registry does not invalidate passes, if it passed before and hides nothing
of the assets that are new. -/
theorem PassesSupervision.of_not_invalidates {r r' : SupervisionRegistry}
    {declared : List CAsset} {tx : CTransaction}
    (hpasses : PassesSupervision env r tx (namedOuts names tx)) (hempty : r'.isEmpty = false)
    (getCoin : COutPoint → Option Coin)
    (hseen : ∀ txin ∈ tx.vin, txin.isPegin = false →
      ∃ coin, getCoin txin.prevout = some coin ∧ outputOf names txin.prevout = some coin.out)
    (hvalid : supervisionInvalidates env r' getCoin tx = false)
    (hmem : ∀ a ∈ r', a ∈ r ∨ a ∈ declared)
    (hclear : ∀ a ∈ declared, MovesAsset env tx (namedOuts names tx) a → HidesNothing env tx a) :
    PassesSupervision env r' tx (namedOuts names tx) := by
  rw [supervisionInvalidates, hempty, Bool.not_false, Bool.true_and, Bool.or_eq_false_iff] at hvalid
  obtain ⟨hrecords, hspends⟩ := hvalid
  refine hpasses.of_mem (fun _ p hp hpegin => ?_) ?_ hmem hclear
  · rw [namedOuts, mem_zip_map] at hp
    obtain ⟨htxin, hout⟩ := hp
    obtain ⟨coin, hcoin, hname⟩ := hseen p.1 htxin hpegin
    have hspend := any_eq_false.mp hspends p.1 htxin
    rw [hcoin, hpegin] at hspend
    rw [hout, namedOut, if_neg (by simp [hpegin]), hname, getD_some]
    simpa using hspend
  · cases hcheck : checkSupervisionRecords env.crypto r' tx with
    | ok u => rfl
    | error err =>
      rw [hcheck] at hrecords
      cases hrecords

theorem connectTip_passes {block : CBlock} (htracked : s.Tracked names)
    (hpasses : s.Passes env names) (hclean : ConnectsCleanly env names s block)
    (hconnect : connectTip env s block = .ok s') :
    s'.Tracked names ∧ s'.Passes env names := by
  rw [connectTip, bind_eq_ok] at hconnect
  obtain ⟨⟨chain, undo⟩, hblock, hconnect⟩ := hconnect
  cases hconnect
  have haccepted := acceptedBlock_of_connectBlock hblock
  have hconnected := htracked.connect hclean.named hblock
  have hsub : ∀ tx ∈ removeStaleSupervision env (s.pool.removeForBlock block.vtx) chain,
      tx ∈ s.pool.removeForBlock block.vtx := by
    intro tx htx
    rw [removeStaleSupervision] at htx
    split at htx
    · exact htx
    · exact (removeRecursive_spec htx).1
  refine ⟨?_, fun hnext tx htx => ?_⟩
  · split
    · rw [removeStaleSupervision]
      split
      · exact hconnected
      · exact hconnected.removeRecursive _
    · exact hconnected
  · dsimp only at hnext htx ⊢
    rw [haccepted.height] at hnext htx
    have hmem : tx ∈ s.pool.removeForBlock block.vtx := by
      split at htx
      · exact hsub tx htx
      · exact htx
    have hpool := (removeForBlock_spec hmem).1
    rcases hclean.boundary hnext with hactive | hnil
    · have hblock : HardenedBlock env s.chain block chain undo :=
        ⟨haccepted, hactive, hclean.hardened hactive⟩
      have hold := hpasses hactive tx hpool
      have hregistry : ∀ a ∈ chain.registry, a ∈ s.chain.registry ∨ a ∈ block.declared :=
        fun a ha => (haccepted.mem_registry ha).imp_right And.right
      cases hrecords : block.carriesRecords with
      | false =>
        refine (hblock.widens hclean.new hrecords).passes hold
          (fun hempty hne p hp _ => ?_) (hclean.clear tx hpool)
        exact hclean.first hempty hne tx hpool p.2 (of_mem_zip hp).2
      | true =>
        rw [hrecords, hactive, Bool.and_self, if_pos rfl, removeStaleSupervision] at htx
        split at htx
        · next hempty =>
          have hsame : chain.registry = s.chain.registry := by
            have hnone : chain.registry = ∅ := isEmpty_iff.mp hempty
            refine ext_getElem? fun a => ?_
            have hnot : a ∉ s.chain.registry := fun ha => by
              have := hblock.registry_subset hclean.new ha
              simp [hnone] at this
            rw [mem_iff_isSome_getElem?, not_isSome_iff_eq_none] at hnot
            rw [hnot, hnone, ExtTreeMap.getElem?_empty]
          rw [hsame]
          exact hold
        · next hempty =>
          have hpending : (s.disconnectpool.filter fun tx =>
              !(block.vtx.map CTransaction.txid).contains tx.txid) = [] := by
            rw [hclean.settled hrecords]
            rfl
          refine hold.of_not_invalidates (by simpa using hempty)
            ((s.pool.removeForBlock block.vtx).getCoin chain.coins)
            (fun txin htxin hpegin => ?_) ?_ hregistry (hclean.clear tx hpool)
          · obtain ⟨out, hout, -⟩ := hconnected.spendable tx hmem txin htxin hpegin
            obtain ⟨coin, hcoin⟩ := isSome_iff_exists.mp (hconnected.isSome_getCoin hpending
              (hconnected.available tx hmem txin htxin hpegin) hout)
            exact ⟨coin, hcoin, hconnected.getCoin hcoin⟩
          · by_contra hinvalid
            refine (removeRecursive_spec htx).2.1 (mem_map_of_mem
              (mem_filter.mpr ⟨hmem, by simpa using hinvalid⟩))
    · rw [hnil] at hpool
      cases hpool

end Sequentia
