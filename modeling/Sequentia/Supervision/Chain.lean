import Sequentia.Supervision.Accepted

/-!
# Chains of accepted blocks

The states that a node reaches by connecting blocks, from one that has not seen supervision
yet. The blocks may be narrowed down by a condition on the state before the block.
-/

namespace Sequentia

open Std

/-- A state before supervision is active: nothing is supervised, and every coin was created
at or below its height. -/
structure SupervisedState.Initial (env : ChainEnv) (st : SupervisedState) : Prop where
  registry : st.registry = ∅
  heights : ∀ e ∈ st.coins.toList, e.2.nHeight ≤ st.height
  inactive : env.params.supervisionActive st.height = false

/-- The states reached from a start by accepted blocks that meet a condition. -/
inductive SupervisedChain (env : ChainEnv) (Start : SupervisedState → Prop)
    (Admits : SupervisedState → CBlock → Prop) : SupervisedState → Prop where
  | start {st : SupervisedState} (hstart : Start st) : SupervisedChain env Start Admits st
  | block {st st' : SupervisedState} {block : CBlock} {undo : CBlockUndo}
    (hchain : SupervisedChain env Start Admits st) (hadmits : Admits st block)
    (hconnect : st.connectBlock env block = .ok (st', undo)) : SupervisedChain env Start Admits st'

def SupervisedState.connectBlocks (env : ChainEnv) (st : SupervisedState) (blocks : List CBlock) :
    Except Invalid SupervisedState :=
  blocks.foldlM (fun st block => (st.connectBlock env block).map Prod.fst) st

theorem SupervisedChain.connectBlocks {env : ChainEnv} {Start : SupervisedState → Prop}
    {Admits : SupervisedState → CBlock → Prop} {st st' : SupervisedState}
    (hchain : SupervisedChain env Start Admits st) {blocks : List CBlock}
    (hadmits : ∀ block ∈ blocks, ∀ st, Admits st block)
    (hconnect : st.connectBlocks env blocks = .ok st') : SupervisedChain env Start Admits st' := by
  induction blocks generalizing st with
  | nil =>
    cases hconnect
    exact hchain
  | cons block blocks ih =>
    rw [SupervisedState.connectBlocks, List.foldlM_cons] at hconnect
    obtain ⟨st₁, hblock, hrest⟩ := Checks.bind_eq_ok.mp hconnect
    cases hrun : st.connectBlock env block with
    | error err =>
      rw [hrun] at hblock
      cases hblock
    | ok p =>
      rw [hrun] at hblock
      cases hblock
      exact ih (.block hchain (hadmits block List.mem_cons_self st) hrun)
        (fun b hb => hadmits b (List.mem_cons_of_mem _ hb)) hrest

theorem supervisionActive_mono {params : Params} {h h' : ℕ} (hle : h ≤ h')
    (hactive : params.supervisionActive h = true) : params.supervisionActive h' = true := by
  simp only [Params.supervisionActive, Bool.and_eq_true, decide_eq_true_eq] at hactive ⊢
  omega

/-- A block under supervision is under the hardening as well. -/
def ChainEnv.HardenedAt (env : ChainEnv) (height : ℕ) : Prop :=
  env.params.supervisionActive height = true → env.params.posHardeningActiveAt height = true

/-- The block declares assets that are not supervised yet, and none twice. An asset is named
by a hash over the output that its issuance spends, so this excludes collisions. -/
structure SupervisedState.NewDeclarations (st : SupervisedState) (block : CBlock) : Prop where
  nodup : block.declared.Nodup
  new : ∀ a ∈ block.declared, a ∉ st.registry

section Steps

variable {env : ChainEnv} {st st' : SupervisedState} {block : CBlock} {undo : CBlockUndo}

theorem SupervisionScript.Admitted.silent {r : SupervisionRegistry} {s : SupervisionScript}
    (hadmitted : s.Admitted r) {a : CAsset} (ha : a ∉ r) :
    s.freezes a = none ∧ ∀ role, s.rotates a role = none := by
  cases s with
  | other => exact ⟨rfl, fun _ => rfl⟩
  | declaration decl => exact ⟨rfl, fun _ => rfl⟩
  | freeze asset target =>
    refine ⟨if_neg ?_, fun _ => rfl⟩
    rintro rfl
    exact ha hadmitted
  | rotation asset role oldKey newKey =>
    obtain ⟨entry, hentry, -⟩ := hadmitted
    refine ⟨rfl, fun _ => if_neg fun heq => ha ?_⟩
    rw [← heq.1, ExtTreeMap.mem_iff_isSome_getElem?, hentry]
    rfl

/-- The registry after a block under the hardening: the entry of an asset that the block
declares is new, and the others are updated. -/
theorem HardenedBlock.getElem?_registry (hblock : HardenedBlock env st block st' undo)
    (hnew : st.NewDeclarations block) (a : CAsset) :
    (∃ decl, .declaration decl ∈ block.created ∧ decl.asset = a ∧ st.registry[a]? = none ∧
      st'.registry[a]? = some decl.entry) ∨
    (a ∉ block.declared ∧ st'.registry[a]? = st.registry[a]?.map fun e =>
      e.update (keyAfter a block.created)
        (countDown a undo.spent ∘ countUp a block.created)) := by
  rw [hblock.registry, ChainEnv.applySupervision, if_pos hblock.active]
  by_cases hdeclared : a ∈ block.declared
  · left
    have hnone := hnew.new a hdeclared
    obtain ⟨s, hs, hdeclares⟩ := List.mem_filterMap.mp hdeclared
    cases s with
    | declaration decl =>
      cases hdeclares
      have hsilent := fun s hs =>
        (hblock.admitted s hs).silent hnone
      have hentry : st.registry[decl.asset]? = none := by
        rwa [ExtTreeMap.mem_iff_isSome_getElem?, Option.not_isSome_iff_eq_none] at hnone
      refine ⟨decl, hs, rfl, hentry, ?_⟩
      rw [supervisionApplyBlock_eq, getElem?_spend, getElem?_create_declared hnew.nodup hs hentry
        (fun s hs => (hsilent s hs).1) fun s hs => (hsilent s hs).2]
      simp [SupervisionEntry.update, countDown_empty, SupervisionDeclaration.entry]
    | _ => cases hdeclares
  · exact Or.inr ⟨hdeclared, getElem?_apply hdeclared⟩

theorem AcceptedBlock.registry_inactive (haccepted : AcceptedBlock env st block st' undo)
    (hinactive : ¬ env.params.supervisionActive (st.height + 1) = true) :
    st'.registry = st.registry := by
  rw [haccepted.registry, ChainEnv.applySupervision, if_neg hinactive]

end Steps

end Sequentia
