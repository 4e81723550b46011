import Sequentia.Lib.Replay
import Sequentia.Supervision.Revert

/-!
# The registry and the coins

The declarations and records among the unspent outputs, and what they say about the
registry: which assets are supervised and under which terms, how often a target is frozen,
and along which rotations a key was reached. Blocks keep the two in step.
-/

namespace Sequentia

open Std KeyedMap Replay ExtTreeMap
open scoped List

def liveScript (params : Params) (coin : Coin) : List SupervisionScript :=
  if params.supervisionActive coin.nHeight then
    [readScript coin.out.scriptPubKey].filter fun s => s ≠ .other
  else []

/-- The declarations and records in coins. -/
def liveOf (params : Params) (coins : List (COutPoint × Coin)) : List SupervisionScript :=
  coins.flatMap fun e => liveScript params e.2

/-- What the unspent records of a declared asset say about its entry. -/
structure Tracks (decl : SupervisionDeclaration) (entry : SupervisionEntry)
    (live : List SupervisionScript) : Prop where
  /-- The terms are those of the declaration. -/
  descriptor : entry.descriptor = decl.descriptor
  frozen : Counts entry.frozen (freezeCount decl.asset live)
  keys : ∀ role, Leads (decl.entry.key role)
    (live.filterMap (SupervisionScript.rotates decl.asset role)) (entry.key role)

/-- The unspent declarations and records tell the registry. -/
structure ToldBy (r : SupervisionRegistry) (live : List SupervisionScript) : Prop where
  nodup : (live.filterMap SupervisionScript.declares).Nodup
  mem_iff : ∀ a, a ∈ r ↔ a ∈ live.filterMap SupervisionScript.declares
  entry : ∀ (decl : SupervisionDeclaration) (entry : SupervisionEntry),
    .declaration decl ∈ live → r[decl.asset]? = some entry → Tracks decl entry live
  /-- Records are about supervised assets. -/
  silent : ∀ a, a ∉ r → ∀ s ∈ live, s.freezes a = none ∧ ∀ role, s.rotates a role = none

section Lists

variable {live live' : List SupervisionScript} {a : CAsset}

theorem freezeCount_eq_zero (hsilent : ∀ s ∈ live, s.freezes a = none) :
    freezeCount a live = fun _ => 0 := by
  funext target
  rw [freezeCount, List.filterMap_eq_nil_iff.mpr hsilent]
  rfl

/-- Scripts that say nothing are not missed. -/
theorem filterMap_filter_other {β : Type*} (f : SupervisionScript → Option β)
    (hother : f .other = none) (l : List SupervisionScript) :
    (l.filter fun s => s ≠ .other).filterMap f = l.filterMap f := by
  rw [List.filterMap_filter]
  refine List.filterMap_congr fun s _ => ?_
  by_cases heq : s = .other
  · simp [heq, hother]
  · simp [heq]

theorem filterMap_liveScript {β : Type*} (f : SupervisionScript → Option β)
    (hother : f .other = none) (params : Params) (coin : Coin) :
    (liveScript params coin).filterMap f = if params.supervisionActive coin.nHeight then
      (f (readScript coin.out.scriptPubKey)).toList else [] := by
  unfold liveScript
  split
  · rw [filterMap_filter_other f hother]
    cases hf : f (readScript coin.out.scriptPubKey) <;> simp [hf]
  · rfl

theorem eq_of_declares (hnodup : (live.filterMap SupervisionScript.declares).Nodup)
    {decl decl' : SupervisionDeclaration} (hdecl : .declaration decl ∈ live)
    (hdecl' : .declaration decl' ∈ live) (hasset : decl.asset = decl'.asset) : decl = decl' := by
  obtain ⟨l₁, l₂, rfl⟩ := List.append_of_mem hdecl
  rw [List.filterMap_append] at hnodup
  have hother := (List.nodup_cons.mp (List.perm_middle.nodup_iff.mp hnodup)).1
  rw [← List.filterMap_append, hasset] at hother
  rcases List.mem_cons.mp (List.perm_middle.subset hdecl') with heq | hmem
  · exact (SupervisionScript.declaration.inj heq).symm
  · exact (hother (List.mem_filterMap.mpr ⟨_, hmem, rfl⟩)).elim

/-- The order of the scripts does not matter. -/
theorem ToldBy.perm {r : SupervisionRegistry} (htold : ToldBy r live) (hperm : live ~ live') :
    ToldBy r live' where
  nodup := (hperm.filterMap _).nodup_iff.mp htold.nodup
  mem_iff a := (htold.mem_iff a).trans (hperm.filterMap _).mem_iff
  entry decl entry hdecl hentry := by
    have htracks := htold.entry decl entry (hperm.mem_iff.mpr hdecl) hentry
    have hcount : freezeCount decl.asset live = freezeCount decl.asset live' :=
      funext fun target => (hperm.filterMap _).count_eq target
    exact ⟨htracks.descriptor, hcount ▸ htracks.frozen,
      fun role => (htracks.keys role).perm (hperm.filterMap _)⟩
  silent a ha s hs := htold.silent a ha s (hperm.mem_iff.mpr hs)

end Lists

section Step

variable {env : ChainEnv} {st st' : SupervisedState} {block : CBlock} {undo : CBlockUndo}
  {live live' spent : List SupervisionScript}

/-- How a block under supervision exchanges declarations and records. -/
structure Exchanges (r : SupervisionRegistry) (block : CBlock) (undo : CBlockUndo)
    (live live' spent : List SupervisionScript) : Prop where
  perm : live' ++ spent ~ live ++ block.created.filter fun s => s ≠ .other
  spendable : ∀ s ∈ spent, s.Spendable r
  counted : ∀ a ∈ r, freezeCount a undo.spent = freezeCount a spent

variable {r : SupervisionRegistry}

variable (hexchanges : Exchanges r block undo live live' spent)

include hexchanges

theorem Exchanges.filterMap {β : Type*}
    (f : SupervisionScript → Option β) (hother : f .other = none) :
    live'.filterMap f ++ spent.filterMap f ~ live.filterMap f ++ block.created.filterMap f := by
  have hperm := hexchanges.perm.filterMap f
  rwa [List.filterMap_append, List.filterMap_append, filterMap_filter_other f hother] at hperm

theorem Exchanges.filterMap_of_spent
    {β : Type*} (f : SupervisionScript → Option β) (hother : f .other = none)
    (hfreeze : ∀ a target, f (.freeze a target) = none) :
    live'.filterMap f ~ live.filterMap f ++ block.created.filterMap f := by
  have hspent : spent.filterMap f = [] := by
    refine List.filterMap_eq_nil_iff.mpr fun s hs => ?_
    have hspendable := hexchanges.spendable s hs
    cases s with
    | other => exact hother
    | declaration decl => exact hspendable.elim
    | freeze a target => exact hfreeze a target
    | rotation a role oldKey newKey => exact hspendable.elim
  have hperm := hexchanges.filterMap f hother
  rwa [hspent, List.append_nil] at hperm

theorem Exchanges.mem_or_mem
    {s : SupervisionScript} (hs : s ∈ live') : s ∈ live ∨ s ∈ block.created := by
  rcases List.mem_append.mp (hexchanges.perm.subset (List.mem_append_left _ hs)) with h | h
  · exact Or.inl h
  · exact Or.inr (List.mem_of_mem_filter h)

omit hexchanges

theorem HardenedBlock.mem_registry_iff (hblock : HardenedBlock env st block st' undo)
    (hnew : st.NewDeclarations block) (a : CAsset) :
    a ∈ st'.registry ↔ a ∈ st.registry ∨ a ∈ block.declared := by
  simp only [mem_iff_isSome_getElem?]
  rcases hblock.getElem?_registry hnew a with
    ⟨decl, hdecl, rfl, hnone, hsome⟩ | ⟨hdeclared, hupdate⟩
  · have hmem : decl.asset ∈ block.declared := List.mem_filterMap.mpr ⟨_, hdecl, rfl⟩
    simp [hsome, hmem]
  · simp [hupdate, hdeclared]

theorem Exchanges.freezeCount_eq (hexchanges : Exchanges r block undo live live' spent) {a : CAsset}
    (ha : a ∈ r) : freezeCount a live' = fun target =>
      freezeCount a live target + freezeCount a block.created target -
        freezeCount a undo.spent target := by
  funext target
  have hcount := (hexchanges.filterMap (SupervisionScript.freezes a) rfl).count_eq target
  rw [List.count_append, List.count_append] at hcount
  rw [hexchanges.counted a ha]
  unfold freezeCount
  omega

theorem Tracks.update {decl : SupervisionDeclaration} {entry : SupervisionEntry}
    (htracks : Tracks decl entry live) (hblock : HardenedBlock env st block st' undo)
    (hentry : st.registry[decl.asset]? = some entry)
    (hexchanges : Exchanges st.registry block undo live live' spent) :
    Tracks decl (entry.update (keyAfter decl.asset block.created)
      (countDown decl.asset undo.spent ∘ countUp decl.asset block.created)) live' := by
  refine ⟨htracks.descriptor, ?_, fun role => ?_⟩
  · have hmem : decl.asset ∈ st.registry := by
      rw [mem_iff_isSome_getElem?, hentry]
      rfl
    rw [hexchanges.freezeCount_eq hmem]
    exact (htracks.frozen.foldl_addAt _).foldl_decAt _
  · have hperm := hexchanges.filterMap_of_spent
      (SupervisionScript.rotates decl.asset role) rfl fun _ _ => rfl
    rw [SupervisionEntry.key_update]
    rcases hblock.keyAfter_cases hentry role with
      ⟨hnil, hafter⟩ | ⟨newKey, hone, -, hafter, -⟩
    · rw [hnil, List.append_nil] at hperm
      rw [hafter]
      exact (htracks.keys role).perm hperm.symm
    · rw [hone] at hperm
      rw [hafter]
      exact (htracks.keys role).snoc.perm hperm.symm

theorem ToldBy.step (htold : ToldBy st.registry live)
    (hblock : HardenedBlock env st block st' undo)
    (hnew : st.NewDeclarations block)
    (hexchanges : Exchanges st.registry block undo live live' spent) :
    ToldBy st'.registry live' := by
  have hdeclares := hexchanges.filterMap_of_spent SupervisionScript.declares rfl fun _ _ => rfl
  have hmem := hblock.mem_registry_iff hnew
  have hadmitted := hblock.admitted
  have hsilent : ∀ a, a ∉ st.registry → ∀ s ∈ live',
      s.freezes a = none ∧ ∀ role, s.rotates a role = none := by
    intro a ha s hs
    rcases hexchanges.mem_or_mem hs with hs | hs
    · exact htold.silent a ha s hs
    · exact (hadmitted s hs).silent ha
  refine ⟨?_, ?_, ?_, ?_⟩
  · rw [hdeclares.nodup_iff, List.nodup_append']
    refine ⟨htold.nodup, hnew.nodup, fun a ha ha' => hnew.new a ha' ?_⟩
    exact (htold.mem_iff a).mpr ha
  · intro a
    rw [hmem, htold.mem_iff, hdeclares.mem_iff, List.mem_append]
    rfl
  · intro decl entry' hdecl hentry'
    rcases hblock.getElem?_registry hnew decl.asset with
      ⟨decl', hdecl', hasset, hnone, hdeclared⟩ | ⟨hdeclared, hupdate⟩
    · -- The block declares the asset: nothing else is about it.
      have hnot : decl.asset ∉ st.registry := by
        rw [mem_iff_isSome_getElem?, hnone]
        simp
      have hcreated : .declaration decl ∈ block.created :=
        (hexchanges.mem_or_mem hdecl).resolve_left fun hlive => hnot
          ((htold.mem_iff _).mpr (List.mem_filterMap.mpr ⟨_, hlive, rfl⟩))
      obtain rfl := eq_of_declares hnew.nodup hdecl' hcreated hasset
      rw [hdeclared] at hentry'
      cases hentry'
      refine ⟨rfl, ?_, fun role => ?_⟩
      · rw [freezeCount_eq_zero fun s hs => (hsilent _ hnot s hs).1]
        exact counts_empty
      · rw [List.filterMap_eq_nil_iff.mpr fun s hs => (hsilent _ hnot s hs).2 role]
        exact leads_nil_iff.mpr rfl
    · -- The entry is updated by the records of the block.
      rw [hentry'] at hupdate
      obtain ⟨entry, hentry, rfl⟩ := Option.map_eq_some_iff.mp hupdate.symm
      have hlive : .declaration decl ∈ live := (hexchanges.mem_or_mem hdecl).resolve_right
        fun hcreated => hdeclared (List.mem_filterMap.mpr ⟨_, hcreated, rfl⟩)
      exact (htold.entry decl entry hlive hentry).update hblock hentry hexchanges
  · intro a ha
    exact hsilent a fun h => ha ((hmem a).mpr (Or.inl h))

end Step

end Sequentia
