import Sequentia.Supervision.Rebuild

/-!
# Restarting a node

Along a chain the coins keep telling the registry, so that a node which starts rebuilds the
registry that it would have had. Two things break this: a key that is left a second time in
another direction, and a freeze record from before supervision that is spent once its asset
is supervised.
-/

namespace Sequentia

open Std KeyedMap Replay ExtTreeMap
open scoped List

section Exchange

variable {env : ChainEnv} {st st' : SupervisedState} {block : CBlock} {undo : CBlockUndo}

theorem readScript_of_isUnspendable {script : CScript} (h : isUnspendable script = true) :
    readScript script = .other := by
  cases hrecord : parseSupervisionRecordScript script with
  | some record => rw [isUnspendable_of_record hrecord] at h; cases h
  | none =>
    cases hdecl : parseSupervisionScript script with
    | some decl => rw [isUnspendable_of_declaration hdecl] at h; cases h
    | none => rw [readScript, hdecl, hrecord]

variable {coin : Coin} {params : Params} {height : ℕ} {view view' : CCoinsView}

theorem createdItems_live (hactive : params.supervisionActive height = true) :
    block.createdItems (fun e => liveScript params e.2) undo height =
      block.created.filter fun s => s ≠ .other := by
  have htx : ∀ tx : CTransaction, (outputCoins height tx).flatMap (fun e => liveScript params e.2) =
      (tx.vout.map fun out => readScript out.scriptPubKey).filter fun s => s ≠ .other := by
    intro tx
    rw [outputCoins, List.flatMap_map, List.map_eq_flatMap, List.filter_flatMap]
    conv_rhs => rw [← List.zipIdx_map_fst 0 tx.vout, List.flatMap_map]
    exact List.flatMap_congr fun p _ => if_pos hactive
  rw [CBlock.createdItems, CBlock.created, CBlock.outputScripts, List.map_flatMap,
    List.filter_flatMap]
  conv_rhs => rw [← map_fst_pairUndo block.vtx ([] :: undo), List.flatMap_map]
  refine List.flatMap_congr fun p _ => ?_
  rw [htx, List.map_map]
  rfl

theorem Connected.spentItems_live (hconnected : Connected view view' height block undo) :
    block.spentItems (fun e => liveScript params e.2) undo =
      undo.flatten.flatMap (liveScript params) := by
  have htx : ∀ p ∈ block.spends undo, (inputCoins p.1 p.2).flatMap
      (fun e => liveScript params e.2) = p.2.flatMap (liveScript params) := by
    intro p hp
    rw [inputCoins, List.flatMap_map]
    conv_rhs => rw [← List.map_snd_zip (hconnected.undoOf p hp).length_le, List.flatMap_map]
  have hpairs : (block.spends undo).map Prod.snd = [] :: undo :=
    map_snd_pairUndo (by simpa using hconnected.undo_length)
  rw [CBlock.spentItems, List.flatMap_congr htx]
  calc (block.spends undo).flatMap (fun p => p.2.flatMap (liveScript params))
      = ((block.spends undo).map Prod.snd).flatMap (fun u => u.flatMap (liveScript params)) := by
        rw [List.flatMap_map]
    _ = undo.flatten.flatMap (liveScript params) := by
        rw [hpairs, List.flatMap_cons, List.flatMap_nil, List.nil_append,
          ← List.flatMap_id, List.flatMap_assoc]
        rfl

/-- What makes the coins tell the registry along a chain. -/
structure KeepsTelling (env : ChainEnv) (st : SupervisedState) (block : CBlock) : Prop where
  hardened : env.HardenedAt (st.height + 1)
  new : st.NewDeclarations block
  noInertFreeze : ∀ tx ∈ block.vtx, ∀ txin ∈ tx.vin, ∀ coin, st.coins[txin.prevout]? = some coin →
    env.params.supervisionActive coin.nHeight = false →
    ∀ a ∈ st.registry, (readScript coin.out.scriptPubKey).freezes a = none
  forward : ∀ a role oldKey newKey newKey', .rotation a role oldKey newKey ∈ block.created →
    .rotation a role oldKey newKey' ∈ liveOf env.params st.coins.toList → newKey' = newKey

/-- A coin of the undo data was unspent before, at the outpoint of an input, or is created by
the block. -/
theorem Connected.undo_cases (hconnected : Connected view view' height block undo)
    (hcoin : coin ∈ undo.flatten) (hne : coin ≠ Coin.null) : coin.nHeight = height ∨
      ∃ tx ∈ block.vtx, ∃ txin ∈ tx.vin, view[txin.prevout]? = some coin := by
  obtain ⟨o, hspent⟩ := hconnected.spent_of_mem_undo hcoin hne
  have hmem := hconnected.mem_of_spent hspent
  obtain ⟨⟨tx, u⟩, hq, hentry⟩ := List.mem_flatMap.mp hspent
  obtain ⟨⟨txin, coin'⟩, hp, heq⟩ := List.mem_map.mp hentry
  obtain ⟨rfl, rfl⟩ := Prod.mk.inj heq
  rcases List.mem_append.mp hmem with hview | hcreated
  · right
    refine ⟨tx, ?_, txin, (List.of_mem_zip (List.mem_of_mem_filter hp)).1, ?_⟩
    · rw [← map_fst_pairUndo block.vtx ([] :: undo)]
      exact List.mem_map.mpr ⟨_, hq, rfl⟩
    · exact mem_toList_iff_getElem?_eq_some.mp hview
  · exact Or.inl (output_of_created hcreated).2

theorem KeepsTelling.freezes_eq_none (hkeeps : KeepsTelling env st block)
    (haccepted : AcceptedBlock env st block st' undo)
    (hactive : env.params.supervisionActive (st.height + 1) = true) (hcoin : coin ∈ undo.flatten)
    (hinactive : env.params.supervisionActive coin.nHeight = false) {a : CAsset}
    (ha : a ∈ st.registry) : (readScript coin.out.scriptPubKey).freezes a = none := by
  by_cases hnull : coin = Coin.null
  · subst hnull
    rfl
  · rcases haccepted.connected.undo_cases hcoin hnull with hheight | ⟨tx, htx, txin, htxin, hcoin⟩
    · rw [hheight, hactive] at hinactive
      cases hinactive
    · exact hkeeps.noInertFreeze tx htx txin htxin coin hcoin hinactive a ha

theorem mem_spent_of_live {s : SupervisionScript}
    (hs : s ∈ undo.flatten.flatMap (liveScript params)) : s ∈ undo.spent := by
  obtain ⟨coin, hcoin, hlive⟩ := List.mem_flatMap.mp hs
  unfold liveScript at hlive
  split at hlive
  · obtain rfl := List.mem_singleton.mp (List.mem_of_mem_filter hlive)
    exact List.mem_map_of_mem (List.mem_map_of_mem hcoin)
  · cases hlive

theorem AcceptedBlock.exchanges (haccepted : AcceptedBlock env st block st' undo)
    (hactive : env.params.supervisionActive (st.height + 1) = true)
    (hkeeps : KeepsTelling env st block)
    (htold : ToldBy st.registry (liveOf env.params st.coins.toList)) :
    Exchanges st.registry block undo (liveOf env.params st.coins.toList)
      (liveOf env.params st'.coins.toList) (undo.flatten.flatMap (liveScript env.params)) := by
  have hconnected := haccepted.connected
  have hperm := hconnected.delta_flatMap (g := fun e => liveScript env.params e.2)
    fun e he => by simp [liveScript, readScript_of_isUnspendable he]
  rw [hconnected.spentItems_live, createdItems_live hactive] at hperm
  refine ⟨hperm, fun s hs => ?_, fun a ha => ?_⟩
  · have hspendable : st.registry.isEmpty = false → s.Spendable st.registry := fun hempty =>
      haccepted.spendable hactive hempty s (mem_spent_of_live hs)
    have hsupervised : ∀ a, (s.freezes a).isSome ∨ (∃ role, (s.rotates a role).isSome) →
        a ∈ st.registry := by
      intro a habout
      by_contra hnot
      have hsilent : s.freezes a = none ∧ ∀ role, s.rotates a role = none := by
        rcases List.mem_append.mp (hperm.subset (List.mem_append_right _ hs)) with hlive | hcreated
        · exact htold.silent a hnot s hlive
        · exact (HardenedBlock.admitted ⟨haccepted, hactive, hkeeps.hardened hactive⟩ s
            (List.mem_of_mem_filter hcreated)).silent hnot
      rcases habout with hfreezes | ⟨role, hrotates⟩
      · simp [hsilent.1] at hfreezes
      · simp [hsilent.2] at hrotates
    cases s with
    | other => trivial
    | declaration decl =>
      obtain ⟨script, hscript, hread⟩ := List.mem_map.mp (mem_spent_of_live hs)
      obtain ⟨coin, hcoin, rfl⟩ := List.mem_map.mp hscript
      rw [readScript_eq_declaration, haccepted.not_declaration hcoin] at hread
      cases hread
    | freeze asset target => exact hsupervised asset (Or.inl (by simp [SupervisionScript.freezes]))
    | rotation asset role oldKey newKey =>
      have hmem := hsupervised asset (Or.inr ⟨role, by simp [SupervisionScript.rotates]⟩)
      refine hspendable (isEmpty_eq_false_iff.mpr fun hempty => ?_)
      rw [hempty] at hmem
      exact not_mem_empty hmem
  · have hcoins : undo.spent.filterMap (SupervisionScript.freezes a) =
        (undo.flatten.flatMap (liveScript env.params)).filterMap
          (SupervisionScript.freezes a) := by
      rw [CBlockUndo.spent, spentScripts, List.map_map, List.filterMap_map,
        List.filterMap_flatMap, List.filterMap_eq_flatMap_toList]
      refine List.flatMap_congr fun coin hcoin => ?_
      rw [filterMap_liveScript _ rfl]
      split
      · rfl
      · next hinactive =>
        rw [Function.comp_apply, Function.comp_apply,
          hkeeps.freezes_eq_none haccepted hactive hcoin (by simpa using hinactive) ha]
        rfl
    unfold freezeCount
    rw [hcoins]

end Exchange

/-- A state from which a restart rebuilds the registry. -/
structure Restartable (env : ChainEnv) (st : SupervisedState) : Prop where
  told : ToldBy st.registry (liveOf env.params st.coins.toList)
  /-- No key is left in two directions. -/
  forward : ∀ a role, Forward
    ((liveOf env.params st.coins.toList).filterMap (SupervisionScript.rotates a role))
  heights : ∀ e ∈ st.coins.toList, e.2.nHeight ≤ st.height

theorem liveOf_eq_nil {params : Params} {coins : List (COutPoint × Coin)} {height : ℕ}
    (hheights : ∀ e ∈ coins, e.2.nHeight ≤ height)
    (hinactive : params.supervisionActive height = false) : liveOf params coins = [] := by
  refine List.flatMap_eq_nil_iff.mpr fun e he => if_neg fun hactive => ?_
  rw [supervisionActive_mono (hheights e he) hactive] at hinactive
  cases hinactive

theorem toldBy_empty : ToldBy ∅ [] where
  nodup := List.nodup_nil
  mem_iff a := by simp
  entry decl entry hdecl := by cases hdecl
  silent a _ s hs := by cases hs

theorem Connected.heights {view view' : CCoinsView} {height : ℕ} {block : CBlock}
    {undo : CBlockUndo} (hconnected : Connected view view' (height + 1) block undo)
    (hheights : ∀ e ∈ view.toList, e.2.nHeight ≤ height) :
    ∀ e ∈ view'.toList, e.2.nHeight ≤ height + 1 := by
  intro e he
  rcases List.mem_append.mp (hconnected.delta.subset (List.mem_append_left _ he)) with h | h
  · have := hheights e h
    omega
  · exact Nat.le_of_eq (output_of_created h).2

section Chains

variable {env : ChainEnv} {st st' : SupervisedState} {block : CBlock} {undo : CBlockUndo}

theorem Restartable.forward_step (hrestartable : Restartable env st)
    (haccepted : AcceptedBlock env st block st' undo)
    (hactive : env.params.supervisionActive (st.height + 1) = true)
    (hkeeps : KeepsTelling env st block) (a : CAsset) (role : Bool) : Forward
      ((liveOf env.params st'.coins.toList).filterMap (SupervisionScript.rotates a role)) := by
  have hexchanges := haccepted.exchanges hactive hkeeps hrestartable.told
  have hperm := hexchanges.filterMap_of_spent (SupervisionScript.rotates a role) rfl fun _ _ => rfl
  refine Forward.subset ?_ hperm.subset
  have hlength := haccepted.length_rotates_le (hkeeps.hardened hactive) a role
  have hcross : ∀ k n n',
      (k, n) ∈ block.created.filterMap (SupervisionScript.rotates a role) →
      (k, n') ∈ (liveOf env.params st.coins.toList).filterMap (SupervisionScript.rotates a role) →
      n' = n := by
    intro k n n' hn hn'
    exact hkeeps.forward a role k n n' (mem_rotates_iff.mp hn) (mem_rotates_iff.mp hn')
  intro k n n' hn hn'
  rcases List.mem_append.mp hn with hn | hn <;> rcases List.mem_append.mp hn' with hn' | hn'
  · exact hrestartable.forward a role k n n' hn hn'
  · exact hcross k n' n hn' hn
  · exact (hcross k n n' hn hn').symm
  · cases hrotates : block.created.filterMap (SupervisionScript.rotates a role) with
    | nil =>
      rw [hrotates] at hn
      cases hn
    | cons p l =>
      obtain rfl : l = [] := by
        rw [hrotates] at hlength
        exact List.length_eq_zero_iff.mp (by simpa using hlength)
      rw [hrotates, List.mem_singleton] at hn hn'
      exact (Prod.mk.inj (hn.trans hn'.symm)).2

theorem Restartable.step (hrestartable : Restartable env st)
    (haccepted : AcceptedBlock env st block st' undo) (hkeeps : KeepsTelling env st block) :
    Restartable env st' := by
  have hheights := haccepted.connected.heights hrestartable.heights
  by_cases hactive : env.params.supervisionActive (st.height + 1) = true
  · exact
      { told := hrestartable.told.step ⟨haccepted, hactive, hkeeps.hardened hactive⟩ hkeeps.new
          (haccepted.exchanges hactive hkeeps hrestartable.told)
        forward := hrestartable.forward_step haccepted hactive hkeeps
        heights := by rwa [haccepted.height] }
  · -- Neither before nor after the block anything is live.
    have hinactive : env.params.supervisionActive (st.height + 1) = false := by
      simpa using hactive
    have hlive : liveOf env.params st.coins.toList = [] := liveOf_eq_nil
      (fun e he => Nat.le_succ_of_le (hrestartable.heights e he)) hinactive
    have hlive' : liveOf env.params st'.coins.toList = [] := liveOf_eq_nil hheights hinactive
    have htold := hrestartable.told
    rw [hlive] at htold
    refine ⟨?_, fun a role => ?_, by rwa [haccepted.height]⟩
    · rw [hlive', haccepted.registry_inactive hactive]
      exact htold
    · rw [hlive']
      intro k n n' hn
      cases hn

/-- Along a chain that keeps the coins telling, the registry is rebuilt from the coins, in
whatever order they are read. -/
theorem rebuild_yields_registry
    (hchain : SupervisedChain env (SupervisedState.Initial env) (KeepsTelling env) st)
    {cursor : List (COutPoint × Coin)} (hcursor : cursor.Perm st.coins.toList) :
    rebuildSupervisionRegistry env.params cursor = some st.registry := by
  have hrestartable : Restartable env st := by
    clear hcursor
    induction hchain with
    | start hinitial =>
      have hlive := liveOf_eq_nil hinitial.heights hinitial.inactive
      refine ⟨?_, fun a role => ?_, hinitial.heights⟩
      · rw [hlive, hinitial.registry]
        exact toldBy_empty
      · rw [hlive]
        intro k n n' hn
        cases hn
    | block hchain hadmits hconnect ih =>
      exact ih.step (acceptedBlock_of_connectBlock hconnect) hadmits
  have hlive : liveOf env.params st.coins.toList ~ liveOf env.params cursor :=
    hcursor.symm.flatMap_right _
  exact rebuild_of_toldBy (hrestartable.told.perm hlive) fun a role =>
    (hrestartable.forward a role).subset (hlive.filterMap _).symm.subset

end Chains

def rotateOperationalBlock (coinbase txid : Uint256) (hne : ([coinbase, txid] : List Uint256).Nodup)
    (spends : COutPoint) (oldKey newKey : XOnlyPubKey) : CBlock :=
  recordBlock coinbase txid hne spends
    [signedRecord .rotateOperational newKey oldKey (sampleKey 1) spends]

/-- The operational key is rotated to another one, back, and on to a third one; the coins are
read in the order of their transactions, the last rotation first. -/
def returningKeyBlocks : List CBlock :=
  [rotateOperationalBlock 31 23 (by decide) ⟨20, 0⟩ (sampleKey 0) (sampleKey 2),
    rotateOperationalBlock 32 22 (by decide) ⟨23, 0⟩ (sampleKey 2) (sampleKey 0),
    rotateOperationalBlock 33 21 (by decide) ⟨22, 0⟩ (sampleKey 0) (sampleKey 3)]

/-- After a key was rotated away, back and away again the registry cannot be rebuilt. -/
theorem returning_key_not_rebuilt : ∃ st,
    SupervisedChain sampleEnv (SupervisedState.Initial sampleEnv)
    (fun st block => sampleEnv.HardenedAt (st.height + 1) ∧ st.NewDeclarations block) st ∧
      rebuildSupervisionRegistry sampleEnv.params st.coins.toList = none := by
  obtain ⟨⟨st, undo⟩, hissuance, hrun⟩ := Checks.exists_ok
    (supervisedStart.connectBlock sampleEnv issuanceBlock)
    (fun r => (r.1.connectBlocks sampleEnv returningKeyBlocks).toOption.any fun st' =>
      (rebuildSupervisionRegistry sampleEnv.params st'.coins.toList).isNone) (by decide +kernel)
  obtain ⟨st', hrotations, hrun⟩ := Checks.exists_ok _ _ hrun
  have hchain : SupervisedChain sampleEnv (SupervisedState.Initial sampleEnv)
      (fun st block => sampleEnv.HardenedAt (st.height + 1) ∧ st.NewDeclarations block) st :=
    .block (.start supervisedStart_initial)
      ⟨hardenedAt_sampleEnv _, newDeclarations_issuanceBlock⟩ hissuance
  have hnil : ∀ block ∈ returningKeyBlocks, block.declared = [] := by decide +kernel
  refine ⟨st', hchain.connectBlocks (fun block hblock st => ?_) hrotations,
    Option.isNone_iff_eq_none.mp hrun⟩
  exact ⟨hardenedAt_sampleEnv _, newDeclarations_of_nil (hnil block hblock) st⟩

/-- The registry with the sample asset is rebuilt. -/
theorem rebuild_yields_registry_issued : ∃ st undo,
    supervisedStart.connectBlock sampleEnv issuanceBlock = .ok (st, undo) ∧
      sampleAsset ∈ st.registry ∧
      rebuildSupervisionRegistry sampleEnv.params st.coins.toList = some st.registry := by
  obtain ⟨⟨st, undo⟩, hissuance, hrun⟩ := Checks.exists_ok
    (supervisedStart.connectBlock sampleEnv issuanceBlock)
    (fun r => r.1.registry.contains sampleAsset) (by decide +kernel)
  have hkeeps : KeepsTelling sampleEnv supervisedStart issuanceBlock :=
    { hardened := hardenedAt_sampleEnv _
      new := newDeclarations_issuanceBlock
      noInertFreeze := fun tx _ txin _ coin _ _ a ha => by simp [supervisedStart] at ha
      forward := fun a role oldKey newKey newKey' hmem => by
        simp [created_issuanceBlock] at hmem }
  exact ⟨st, undo, hissuance, mem_iff_contains.mpr hrun,
    rebuild_yields_registry (.block (.start supervisedStart_initial) hkeeps hissuance)
      (List.Perm.refl _)⟩

end Sequentia
