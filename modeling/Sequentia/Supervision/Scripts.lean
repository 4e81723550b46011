import Sequentia.Supervision.Entries

/-!
# A block as the registry reads it

The outputs and the undo data of a block are scripts, and a script is a declaration, a
freeze, a rotation or nothing. The entry of an asset after a block, and after the block is
reverted, is told by those that name the asset.
-/

namespace Sequentia

open Std KeyedMap List

/-- A script as the registry reads it. -/
inductive SupervisionScript where
  | other
  | declaration (decl : SupervisionDeclaration)
  | freeze (asset : CAsset) (target : Uint256)
  | rotation (asset : CAsset) (operationalRole : Bool) (oldKey newKey : XOnlyPubKey)
  deriving DecidableEq

def readScript (script : CScript) : SupervisionScript :=
  match parseSupervisionScript script with
  | some decl => .declaration decl
  | none =>
    match parseSupervisionRecordScript script with
    | none => .other
    | some record =>
      match record.kind with
      | .freeze => .freeze record.asset record.target
      | .rotateOperational | .rotateRecovery =>
        .rotation record.asset record.operationalRole record.oldKey record.newKey

namespace SupervisionScript

def declares : SupervisionScript → Option CAsset
  | .declaration decl => some decl.asset
  | _ => none

def freezes (a : CAsset) : SupervisionScript → Option Uint256
  | .freeze asset target => if asset = a then some target else none
  | _ => none

def rotates (a : CAsset) (operationalRole : Bool) :
    SupervisionScript → Option (XOnlyPubKey × XOnlyPubKey)
  | .rotation asset role oldKey newKey =>
    if asset = a ∧ role = operationalRole then some (oldKey, newKey) else none
  | _ => none

def create : SupervisionScript → Option SupervisionAction
  | .other => none
  | .declaration decl => some (.declare decl)
  | .freeze asset target => some (.freeze asset target)
  | .rotation asset role oldKey newKey => some (.rotate asset role oldKey newKey)

/-- What a script asks when its creation is undone. -/
def uncreate : SupervisionScript → Option SupervisionAction
  | .other => none
  | .declaration decl => some (.remove decl.asset)
  | .freeze asset target => some (.unfreeze asset target)
  | .rotation asset role oldKey newKey => some (.rotate asset role newKey oldKey)

/-- What a script asks when it is spent. -/
def spend : SupervisionScript → Option SupervisionAction
  | .freeze asset target => some (.unfreeze asset target)
  | _ => none

/-- What a script asks when its spending is undone. -/
def unspend : SupervisionScript → Option SupervisionAction
  | .freeze asset target => some (.freeze asset target)
  | _ => none

end SupervisionScript

open SupervisionScript SupervisionRegistry

variable (script : CScript)

theorem createAction_eq : createAction script = (readScript script).create := by
  fun_cases readScript script <;> simp [createAction, create, *]

theorem uncreateAction_eq :
    uncreateAction script = (readScript script).uncreate := by
  fun_cases readScript script <;> simp [uncreateAction, uncreate, *]

theorem freezeOf_eq : freezeOf script =
    match readScript script with
    | .freeze asset target => some (asset, target)
    | _ => none := by
  fun_cases readScript script
  case case1 decl hdecl => rw [freezeOf, parseSupervisionRecordScript_of_declaration hdecl]
  all_goals simp [freezeOf, *]

theorem spendAction_eq : spendAction script = (readScript script).spend := by
  rw [spendAction, freezeOf_eq]
  cases readScript script <;> rfl

theorem unspendAction_eq :
    unspendAction script = (readScript script).unspend := by
  rw [unspendAction, freezeOf_eq]
  cases readScript script <;> rfl

section Scripts

variable (a : CAsset) (scripts : List SupervisionScript)

def keyAfter (role : Bool) (key : XOnlyPubKey) : XOnlyPubKey :=
  (scripts.filterMap (rotates a role)).foldl moveKey key

/-- A key after the rotations of an asset and a role have each been undone. -/
def keyBefore (role : Bool) (key : XOnlyPubKey) : XOnlyPubKey :=
  (scripts.filterMap fun s => (s.rotates a role).map Prod.swap).foldl moveKey key

/-- The counters with the freezes of an asset added. -/
def countUp (frozen : ExtTreeMap Uint256 ℕ) : ExtTreeMap Uint256 ℕ :=
  (scripts.filterMap (freezes a)).foldl (fun m target => addAt m target 1) frozen

/-- The counters with the freezes of an asset taken away. -/
def countDown (frozen : ExtTreeMap Uint256 ℕ) : ExtTreeMap Uint256 ℕ :=
  (scripts.filterMap (freezes a)).foldl decAt frozen

variable {a scripts}

variable {ask : SupervisionScript → Option SupervisionAction} {decl : SupervisionDeclaration}

/-- Scripts that keep the entry of an asset, whatever they ask for: the keys move along the
rotations they ask for, and the counters change at the targets they freeze. -/
theorem getElem?_foldl_ask (keys : Bool → SupervisionScript → Option (XOnlyPubKey × XOnlyPubKey))
    (count : ExtTreeMap Uint256 ℕ → Uint256 → ExtTreeMap Uint256 ℕ)
    (hkeeps : ∀ s ∈ scripts, ∀ x ∈ ask s, x.Keeps a)
    (hkeys : ∀ role s, (ask s).bind (SupervisionAction.moves a role) = keys role s)
    (hcount : ∀ m s, ((ask s).map (SupervisionAction.recount a m)).getD m =
      ((s.freezes a).map (count m)).getD m) (r : SupervisionRegistry) :
    ((scripts.filterMap ask).foldl act r)[a]? = r[a]?.map fun e =>
      e.update (fun role => (scripts.filterMap (keys role)).foldl moveKey)
        ((scripts.filterMap (freezes a)).foldl count) := by
  rw [getElem?_foldl_act fun x hx => by
    obtain ⟨s, hs, hask⟩ := mem_filterMap.mp hx
    exact hkeeps s hs x hask]
  congr 1
  funext e
  congr 1
  · funext role
    rw [filterMap_filterMap, funext (hkeys role)]
  · funext m
    rw [foldl_filterMap, foldl_filterMap]
    congr 1
    funext m s
    have hs := hcount m s
    revert hs
    cases ask s <;> cases s.freezes a <;> exact id

theorem recount_freeze {asset : CAsset} {target : Uint256} {m : ExtTreeMap Uint256 ℕ}
    (count : ExtTreeMap Uint256 ℕ → Uint256 → ExtTreeMap Uint256 ℕ) :
    (if asset = a then count m target else m) =
      (((SupervisionScript.freeze asset target).freezes a).map (count m)).getD m := by
  rw [freezes, apply_ite (Option.map (count m)), apply_ite (Option.getD · m)]
  rfl

theorem keeps_of_not_mem (hdeclares : a ∉ scripts.filterMap declares) {s : SupervisionScript}
    (hs : s ∈ scripts) {x : SupervisionAction} (hx : s.create = some x ∨ s.uncreate = some x) :
    x.Keeps a := by
  cases s with
  | other => rcases hx with hx | hx <;> cases hx
  | declaration decl =>
    have hne : decl.asset ≠ a := fun heq =>
      hdeclares (mem_filterMap.mpr ⟨_, hs, congrArg some heq⟩)
    rcases hx with hx | hx <;> cases hx <;> exact hne
  | freeze asset target => rcases hx with hx | hx <;> cases hx <;> trivial
  | rotation asset role oldKey newKey => rcases hx with hx | hx <;> cases hx <;> trivial

theorem getElem?_create (hdeclares : a ∉ scripts.filterMap declares)
    (r : SupervisionRegistry) :
    ((scripts.filterMap create).foldl act r)[a]? =
      r[a]?.map fun e => e.update (keyAfter a scripts) (countUp a scripts) := by
  refine getElem?_foldl_ask _ _ (fun s hs x hx => keeps_of_not_mem hdeclares hs (.inl hx))
    (fun role s => ?_) (fun m s => ?_) r
  · cases s <;> rfl
  · cases s with
    | freeze asset target => exact recount_freeze (addAt · · 1)
    | _ => rfl

theorem getElem?_uncreate (hdeclares : a ∉ scripts.filterMap declares)
    (r : SupervisionRegistry) :
    ((scripts.filterMap uncreate).foldl act r)[a]? =
      r[a]?.map fun e => e.update (keyBefore a scripts) (countDown a scripts) := by
  refine getElem?_foldl_ask _ _ (fun s hs x hx => keeps_of_not_mem hdeclares hs (.inr hx))
    (fun role s => ?_) (fun m s => ?_) r
  · cases s with
    | rotation asset role' oldKey newKey =>
      by_cases heq : asset = a ∧ role' = role <;>
        simp [uncreate, rotates, SupervisionAction.moves, heq]
    | _ => rfl
  · cases s with
    | freeze asset target => exact recount_freeze decAt
    | _ => rfl

/-- An asset is gone once a declaration of it is undone. -/
theorem getElem?_uncreate_declared (hdeclares : a ∈ scripts.filterMap declares)
    (r : SupervisionRegistry) :
    ((scripts.filterMap uncreate).foldl act r)[a]? =
      none := by
  induction scripts generalizing r with
  | nil => cases hdeclares
  | cons s scripts ih =>
    rw [filterMap_cons]
    by_cases hrest : a ∈ scripts.filterMap declares
    · -- A later declaration removes the asset.
      cases s.uncreate with
      | none => exact ih hrest r
      | some x => exact ih hrest (r.act x)
    · -- This is the last declaration of it.
      cases s with
      | declaration decl =>
        obtain rfl : a = decl.asset := by
          rw [filterMap_cons] at hdeclares
          exact (mem_cons.mp hdeclares).resolve_right hrest
        rw [show (declaration decl).uncreate = some (.remove decl.asset) from rfl]
        dsimp only
        rw [foldl_cons, getElem?_uncreate hrest, getElem?_act, if_pos (by rfl)]
        rfl
      | _ => exact absurd hdeclares hrest

theorem getElem?_recount (count : ExtTreeMap Uint256 ℕ → Uint256 → ExtTreeMap Uint256 ℕ)
    (hask : ∀ s x, ask s = some x → x.Keeps a ∧ ∀ role, x.moves a role = none)
    (hcount : ∀ m s, ((ask s).map (SupervisionAction.recount a m)).getD m =
      ((s.freezes a).map (count m)).getD m) (r : SupervisionRegistry) :
    ((scripts.filterMap ask).foldl act r)[a]? = r[a]?.map fun e =>
      e.update (fun _ => id) ((scripts.filterMap (freezes a)).foldl count) := by
  have hnone : scripts.filterMap (fun _ => (none : Option (XOnlyPubKey × XOnlyPubKey))) = [] := by
    simp
  rw [getElem?_foldl_ask (fun _ _ => none) count _ _ hcount, hnone]
  · rfl
  · exact fun s _ x hx => (hask s x hx).1
  · intro role s
    cases hx : ask s with
    | none => rfl
    | some x => exact (hask s x hx).2 role

theorem getElem?_spend (r : SupervisionRegistry) :
    ((scripts.filterMap spend).foldl act r)[a]? =
      r[a]?.map fun e => e.update (fun _ => id) (countDown a scripts) := by
  refine getElem?_recount _ (fun s x hx => ?_) (fun m s => ?_) r
  · cases s with
    | freeze asset target =>
      cases hx
      exact ⟨trivial, fun _ => rfl⟩
    | _ => cases hx
  · cases s with
    | freeze asset target => exact recount_freeze decAt
    | _ => rfl

theorem getElem?_unspend (r : SupervisionRegistry) :
    ((scripts.filterMap unspend).foldl act r)[a]? =
      r[a]?.map fun e => e.update (fun _ => id) (countUp a scripts) := by
  refine getElem?_recount _ (fun s x hx => ?_) (fun m s => ?_) r
  · cases s with
    | freeze asset target =>
      cases hx
      exact ⟨trivial, fun _ => rfl⟩
    | _ => cases hx
  · cases s with
    | freeze asset target => exact recount_freeze (addAt · · 1)
    | _ => rfl

/-- The entry of an asset that has just been declared. -/
def SupervisionDeclaration.entry (decl : SupervisionDeclaration) : SupervisionEntry where
  descriptor := decl.descriptor
  operational := decl.descriptor.operationalKey
  recovery := decl.descriptor.recoveryKey
  frozen := ∅

theorem filterMap_create_declaration (decl : SupervisionDeclaration)
    (l : List SupervisionScript) :
    (declaration decl :: l).filterMap create =
      .declare decl :: l.filterMap create := rfl

/-- Scripts that say nothing about an asset leave its entry alone. -/
theorem SupervisionEntry.update_eq_self (hfreezes : ∀ s ∈ scripts, s.freezes a = none)
    (hrotates : ∀ s ∈ scripts, ∀ role, s.rotates a role = none) (entry : SupervisionEntry) :
    entry.update (keyAfter a scripts) (countUp a scripts) = entry := by
  have hkeys : ∀ role, scripts.filterMap (rotates a role) = [] := fun role =>
    filterMap_eq_nil_iff.mpr fun s hs => hrotates s hs role
  simp [update, keyAfter, hkeys, countUp, filterMap_eq_nil_iff.mpr hfreezes]

theorem countDown_empty (scripts : List SupervisionScript) : countDown a scripts ∅ = ∅ := by
  unfold countDown
  induction scripts.filterMap (freezes a) with
  | nil => rfl
  | cons target targets ih =>
    rw [foldl_cons, show decAt ∅ target = ∅ by simp [decAt], ih]

theorem getElem?_create_declared (hnodup : (scripts.filterMap declares).Nodup)
    (hmem : .declaration decl ∈ scripts) {r : SupervisionRegistry} (hnew : r[decl.asset]? = none)
    (hfreezes : ∀ s ∈ scripts, s.freezes decl.asset = none)
    (hrotates : ∀ s ∈ scripts, ∀ role, s.rotates decl.asset role = none) :
    ((scripts.filterMap create).foldl act r)[decl.asset]? =
      some decl.entry := by
  obtain ⟨l₁, l₂, rfl⟩ := append_of_mem hmem
  rw [filterMap_append] at hnodup
  obtain ⟨h₁, h₂⟩ := not_or.mp <| mem_append.not.mp <|
    (nodup_cons.mp (perm_middle.nodup_iff.mp hnodup)).1
  have hsub : ∀ s ∈ l₂, s ∈ l₁ ++ declaration decl :: l₂ := fun s hs =>
    mem_append_right _ (mem_cons_of_mem _ hs)
  rw [filterMap_append, foldl_append, filterMap_create_declaration, foldl_cons,
    getElem?_create h₂, getElem?_act, if_pos (by rfl), getElem?_create h₁, hnew]
  simp only [SupervisionAction.onEntry, Option.map_none, Option.getD_none, Option.map_some]
  rw [SupervisionEntry.update_eq_self (fun s hs => hfreezes s (hsub s hs))
    (fun s hs => hrotates s (hsub s hs))]
  rfl

end Scripts

def CBlock.created (block : CBlock) : List SupervisionScript := block.outputScripts.map readScript

/-- The coins of the undo data as the registry reads them. -/
def CBlockUndo.spent (undo : CBlockUndo) : List SupervisionScript :=
  (spentScripts undo).map readScript

def CBlock.declared (block : CBlock) : List CAsset :=
  block.created.filterMap declares

section Blocks

variable {a : CAsset} {r : SupervisionRegistry} {block : CBlock} {undo : CBlockUndo}

theorem supervisionApplyBlock_eq : supervisionApplyBlock r block undo =
    (undo.spent.filterMap spend).foldl act
      ((block.created.filterMap create).foldl act r) := by
  rw [CBlockUndo.spent, CBlock.created, filterMap_map, filterMap_map,
    supervisionApplyBlock, funext createAction_eq, funext spendAction_eq]
  rfl

theorem supervisionRevertBlock_eq : supervisionRevertBlock r block undo =
    (block.created.filterMap uncreate).foldl act
      ((undo.spent.filterMap unspend).foldl act r) := by
  rw [CBlockUndo.spent, CBlock.created, filterMap_map, filterMap_map,
    supervisionRevertBlock, funext uncreateAction_eq, funext unspendAction_eq]
  rfl

theorem getElem?_apply (hdeclared : a ∉ block.declared) :
    (supervisionApplyBlock r block undo)[a]? = r[a]?.map fun e =>
      e.update (keyAfter a block.created) (countDown a undo.spent ∘ countUp a block.created) := by
  rw [supervisionApplyBlock_eq, getElem?_spend, getElem?_create hdeclared, Option.map_map]
  rfl

theorem getElem?_revert (hdeclared : a ∉ block.declared) :
    (supervisionRevertBlock r block undo)[a]? = r[a]?.map fun e =>
      e.update (keyBefore a block.created) (countDown a block.created ∘ countUp a undo.spent) := by
  rw [supervisionRevertBlock_eq, getElem?_uncreate hdeclared, getElem?_unspend, Option.map_map]
  rfl

theorem getElem?_revert_declared (hdeclared : a ∈ block.declared) :
    (supervisionRevertBlock r block undo)[a]? = none := by
  rw [supervisionRevertBlock_eq]
  exact getElem?_uncreate_declared hdeclared _

end Blocks

end Sequentia
