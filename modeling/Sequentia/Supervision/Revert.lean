import Sequentia.Supervision.Keys

/-!
# Reverting a block

Disconnecting a block counts the freezes it spent up again, takes back those it created,
moves the keys back along its rotations and removes the assets it declared. The counters
do not go below zero, so that a freeze record which was never counted leaves a trace.
-/

namespace Sequentia

open Std KeyedMap ExtTreeMap Option

def freezeCount (a : CAsset) (scripts : List SupervisionScript) (target : Uint256) : ℕ :=
  (scripts.filterMap (SupervisionScript.freezes a)).count target

def SupervisionRegistry.Counted (r : SupervisionRegistry) : Prop :=
  ∀ (a : CAsset) (entry : SupervisionEntry), r[a]? = some entry →
    ∃ total, Counts entry.frozen total

/-- An operation leaves no counter at zero. -/
theorem SupervisionRegistry.Counted.act {r : SupervisionRegistry} (hcounted : r.Counted)
    (x : SupervisionAction) : (r.act x).Counted := by
  intro a entry hentry
  rw [getElem?_act] at hentry
  by_cases heq : x.asset = a
  · rw [if_pos heq] at hentry
    cases x with
    | declare decl =>
      cases Option.some.inj hentry
      cases hold : r[a]? with
      | none => exact ⟨_, counts_empty⟩
      | some old => exact hcounted a old hold
    | remove asset => cases hentry
    | freeze asset target =>
      obtain ⟨old, hold, rfl⟩ := map_eq_some_iff.mp hentry
      obtain ⟨total, htotal⟩ := hcounted a old hold
      exact ⟨_, htotal.addAt target Nat.one_pos⟩
    | unfreeze asset target =>
      obtain ⟨old, hold, rfl⟩ := map_eq_some_iff.mp hentry
      obtain ⟨total, htotal⟩ := hcounted a old hold
      exact ⟨_, htotal.decAt target⟩
    | rotate asset role oldKey newKey =>
      obtain ⟨old, hold, rfl⟩ := map_eq_some_iff.mp hentry
      rw [SupervisionEntry.rotate_getD]
      exact hcounted a old hold
  · rw [if_neg heq] at hentry
    exact hcounted a entry hentry

theorem SupervisionRegistry.Counted.foldl {r : SupervisionRegistry} (hcounted : r.Counted)
    (xs : List SupervisionAction) : (xs.foldl SupervisionRegistry.act r).Counted := by
  induction xs generalizing r with
  | nil => exact hcounted
  | cons x xs ih => exact ih (hcounted.act x)

theorem SupervisedChain.counted {env : ChainEnv} {Admits : SupervisedState → CBlock → Prop}
    {st : SupervisedState}
    (hchain : SupervisedChain env (SupervisedState.Initial env) Admits st) :
    st.registry.Counted := by
  induction hchain with
  | start hinitial =>
    intro a entry hentry
    simp [hinitial.registry] at hentry
  | @block st st' block undo hchain hadmits hconnect ih =>
    rw [(acceptedBlock_of_connectBlock hconnect).registry, ChainEnv.applySupervision]
    split
    · rw [supervisionApplyBlock_eq]
      exact (ih.foldl _).foldl _
    · exact ih

section Revert

variable {env : ChainEnv} {st st' : SupervisedState} {block : CBlock} {undo : CBlockUndo}

theorem HardenedBlock.keyBefore_keyAfter (hblock : HardenedBlock env st block st' undo) {a : CAsset}
    {entry : SupervisionEntry} (hentry : st.registry[a]? = some entry) (role : Bool) :
    keyBefore a block.created role (keyAfter a block.created role (entry.key role)) =
      entry.key role := by
  rw [keyBefore, ← List.map_filterMap]
  rcases hblock.keyAfter_cases hentry role with
    ⟨hnil, hafter⟩ | ⟨newKey, hone, -, hafter, -⟩
  · rw [hnil, hafter]
    rfl
  · rw [hone, hafter]
    simp [moveKey]

/-- The freezes of supervised assets that a block spends are counted: they are in the registry
or created by the block. -/
def SupervisedState.SpendsCounted (st : SupervisedState) (block : CBlock) (undo : CBlockUndo) :
    Prop :=
  ∀ (a : CAsset) (entry : SupervisionEntry), st.registry[a]? = some entry → ∀ target,
    freezeCount a undo.spent target ≤
      entry.frozen[target]?.getD 0 + freezeCount a block.created target

theorem count_restored_iff {m : ExtTreeMap Uint256 ℕ} {total : Uint256 → ℕ}
    (hcounts : Counts m total) (a : CAsset) (created spent : List SupervisionScript) :
    countDown a created (countUp a spent (countDown a spent (countUp a created m))) = m ↔
      ∀ target, freezeCount a spent target ≤ m[target]?.getD 0 + freezeCount a created target := by
  have hreverted : Counts
      (countDown a created (countUp a spent (countDown a spent (countUp a created m))))
      fun target => total target + freezeCount a created target - freezeCount a spent target +
        freezeCount a spent target - freezeCount a created target :=
    (((hcounts.foldl_addAt _).foldl_decAt _).foldl_addAt _).foldl_decAt _
  rw [hreverted.eq_iff hcounts, funext_iff]
  refine forall_congr' fun target => ?_
  rw [hcounts.getD_eq]
  omega

/-- From the hardening height on, reverting a block after applying it restores the registry of
a chain of accepted blocks if and only if every asset the block declares is new and every
freeze it spends was counted. -/
theorem revert_restores_registry_iff
    (hchain : SupervisedChain env (SupervisedState.Initial env) (fun _ _ => True) st)
    (hactive : env.params.supervisionActive (st.height + 1) = true)
    (hhardening : env.params.posHardeningActiveAt (st.height + 1) = true)
    (hconnect : st.connectBlock env block = .ok (st', undo)) :
    supervisionRevertBlock st'.registry block undo = st.registry ↔
      (∀ a ∈ block.declared, a ∉ st.registry) ∧ st.SpendsCounted block undo := by
  have haccepted := acceptedBlock_of_connectBlock hconnect
  have hregistry : st'.registry = supervisionApplyBlock st.registry block undo := by
    rw [haccepted.registry, ChainEnv.applySupervision, if_pos hactive]
  rw [hregistry]
  constructor
  · intro hrestored
    have hnew : ∀ a ∈ block.declared, a ∉ st.registry := by
      intro a ha
      rw [mem_iff_isSome_getElem?, ← hrestored, getElem?_revert_declared ha]
      simp
    refine ⟨hnew, fun a entry hentry => ?_⟩
    have hdeclared : a ∉ block.declared := fun ha => hnew a ha (by
      rw [mem_iff_isSome_getElem?, hentry]
      rfl)
    have hupdate : (supervisionRevertBlock (supervisionApplyBlock st.registry block undo) block
        undo)[a]? = _ := getElem?_revert hdeclared
    rw [hrestored, getElem?_apply hdeclared, hentry, map_some, map_some] at hupdate
    obtain ⟨total, htotal⟩ := hchain.counted a entry hentry
    exact (count_restored_iff htotal a _ _).mp
      (congrArg SupervisionEntry.frozen (Option.some.inj hupdate)).symm
  · rintro ⟨hnew, hcounted⟩
    refine ext_getElem? fun a => ?_
    by_cases hdeclared : a ∈ block.declared
    · have hnone := hnew a hdeclared
      rw [mem_iff_isSome_getElem?, not_isSome_iff_eq_none] at hnone
      rw [getElem?_revert_declared hdeclared, hnone]
    · rw [getElem?_revert hdeclared, getElem?_apply hdeclared, Option.map_map]
      cases hentry : st.registry[a]? with
      | none => rfl
      | some entry =>
        obtain ⟨total, htotal⟩ := hchain.counted a entry hentry
        have hfrozen := (count_restored_iff htotal a _ _).mpr (hcounted a entry hentry)
        have hkey := HardenedBlock.keyBefore_keyAfter ⟨haccepted, hactive, hhardening⟩ hentry
        rw [map_some, Function.comp_apply]
        congr 1
        exact SupervisionEntry.ext rfl (hkey true) (hkey false) hfrozen

end Revert

/-- The record from before supervision is spent, with a signature of the operational key. -/
def inertSpendBlock : CBlock where
  vtx := [emptyCoinbase 31,
    { txid := 21
      vin := [{ prevout := ⟨8, 0⟩
                scriptSig := pushBytes ((sampleKey 0).bytes ++
                  (supervisionUnfreezeSigHash transparentCrypto ⟨8, 0⟩ sampleAsset 77).bytes) }]
      vout := [⟨.explicit 1, .explicit 5, openScript⟩] }]
  txids_nodup := by decide

/-- The sample asset is issued, and a block spends a record that was never counted: reverting
the block leaves a freeze behind. -/
theorem uncounted_freeze_left_behind : ∃ st st' undo,
    SupervisedChain sampleEnv (SupervisedState.Initial sampleEnv) (fun _ _ => True) st ∧
    sampleEnv.params.supervisionActive (st.height + 1) = true ∧
    sampleEnv.params.posHardeningActiveAt (st.height + 1) = true ∧
    st.connectBlock sampleEnv inertSpendBlock = .ok (st', undo) ∧ inertSpendBlock.declared = [] ∧
    supervisionRevertBlock st'.registry inertSpendBlock undo ≠ st.registry := by
  obtain ⟨⟨st, undo⟩, hissuance, hrun⟩ := Checks.exists_ok
    (supervisedStart.connectBlock sampleEnv issuanceBlock)
    (fun r => (r.1.connectBlock sampleEnv inertSpendBlock).toOption.any fun r' =>
      r.1.height == 10 && !r.1.registry.isFrozen sampleAsset 77 &&
      (supervisionRevertBlock r'.1.registry inertSpendBlock r'.2).isFrozen sampleAsset 77)
    (by decide +kernel)
  obtain ⟨⟨st', undo'⟩, hspend, hrun⟩ := Checks.exists_ok _ _ hrun
  simp only [Bool.and_eq_true, beq_iff_eq, Bool.not_eq_true'] at hrun
  obtain ⟨⟨hheight, hbefore⟩, hafter⟩ := hrun
  refine ⟨st, st', undo', .block (.start supervisedStart_initial) trivial hissuance,
    by rw [hheight]; decide, by rw [hheight]; decide, hspend, by decide +kernel, ?_⟩
  intro hrestored
  rw [hrestored, hbefore] at hafter
  cases hafter

/-- Reverting the block that issues the sample asset restores the empty registry. -/
theorem revert_restores_registry_issued : ∃ st' undo,
    supervisedStart.connectBlock sampleEnv issuanceBlock = .ok (st', undo) ∧
      sampleAsset ∈ st'.registry ∧
      supervisionRevertBlock st'.registry issuanceBlock undo = supervisedStart.registry := by
  obtain ⟨⟨st', undo⟩, hissuance, hrun⟩ := Checks.exists_ok
    (supervisedStart.connectBlock sampleEnv issuanceBlock)
    (fun r => r.1.registry.contains sampleAsset) (by decide +kernel)
  refine ⟨st', undo, hissuance, mem_iff_contains.mpr hrun,
    (revert_restores_registry_iff (.start supervisedStart_initial) (by decide) (by decide)
      hissuance).mpr ⟨newDeclarations_issuanceBlock.new, ?_⟩⟩
  intro a entry hentry
  simp [supervisedStart] at hentry

end Sequentia
