import Sequentia.Supervision.Registry

/-!
# One asset at a time

An operation on the registry concerns a single asset. Unless it adds or removes the asset,
it updates the entry: a rotation moves a key, a freeze record counts a target up or down,
and neither looks at what the other changes.
-/

namespace Sequentia

open Std KeyedMap

namespace SupervisionAction

/-- The asset that an operation concerns. -/
def asset : SupervisionAction → CAsset
  | .declare decl => decl.asset
  | .remove asset => asset
  | .freeze asset _ => asset
  | .unfreeze asset _ => asset
  | .rotate asset _ _ _ => asset

def onEntry : SupervisionAction → Option SupervisionEntry → Option SupervisionEntry
  | .declare decl, entry => some
      { descriptor := decl.descriptor
        operational := decl.descriptor.operationalKey
        recovery := decl.descriptor.recoveryKey
        frozen := (entry.map SupervisionEntry.frozen).getD ∅ }
  | .remove _, _ => none
  | .freeze _ target, entry => entry.map fun e => e.addFreeze target
  | .unfreeze _ target, entry => entry.map fun e => e.subFreeze target
  | .rotate _ operationalRole expectOld newKey, entry =>
      entry.map fun e => (e.rotate operationalRole expectOld newKey).getD e

end SupervisionAction

theorem getElem?_modify_eq (r : SupervisionRegistry) (k a : CAsset)
    (f : SupervisionEntry → SupervisionEntry) :
    (r.modify k f)[a]? = if k = a then r[a]?.map f else r[a]? := by
  rw [ExtTreeMap.getElem?_modify]
  simp only [LawfulEqOrd.compare_eq_iff_eq]
  split
  · next heq => rw [heq]
  · rfl

theorem getElem?_act (r : SupervisionRegistry) (x : SupervisionAction) (a : CAsset) :
    (r.act x)[a]? = if x.asset = a then x.onEntry r[a]? else r[a]? := by
  cases x with
  | declare decl =>
    refine (getElem?_insert_eq _ _ _ _).trans ?_
    simp only [SupervisionAction.asset, SupervisionAction.onEntry]
    by_cases heq : decl.asset = a
    · subst heq
      simp
    · simp [heq]
  | remove asset => exact getElem?_erase_eq _ _ _
  | freeze asset target => exact getElem?_modify_eq _ _ _ _
  | unfreeze asset target => exact getElem?_modify_eq _ _ _ _
  | rotate asset operationalRole expectOld newKey =>
    simp only [SupervisionRegistry.act, SupervisionRegistry.rotate, SupervisionAction.asset,
      SupervisionAction.onEntry]
    by_cases heq : asset = a
    · subst heq
      cases hentry : r[asset]? with
      | none => simp [hentry]
      | some entry =>
        cases hrotate : entry.rotate operationalRole expectOld newKey with
        | none => simp [hrotate, hentry]
        | some entry' => simp [hrotate]
    · cases hentry : r[asset]?.bind fun e => e.rotate operationalRole expectOld newKey with
      | none => simp [heq]
      | some entry' => simp [getElem?_insert_eq, heq]

/-- A rotation moves the key that it names. -/
def moveKey (key : XOnlyPubKey) (p : XOnlyPubKey × XOnlyPubKey) : XOnlyPubKey :=
  if key = p.1 then p.2 else key

namespace SupervisionEntry

variable (entry : SupervisionEntry)

/-- The entry with its keys moved and its counters changed. -/
def update (keys : Bool → XOnlyPubKey → XOnlyPubKey)
    (frozen : ExtTreeMap Uint256 ℕ → ExtTreeMap Uint256 ℕ) : SupervisionEntry where
  descriptor := entry.descriptor
  operational := keys true entry.operational
  recovery := keys false entry.recovery
  frozen := frozen entry.frozen

theorem key_update (keys : Bool → XOnlyPubKey → XOnlyPubKey)
    (frozen : ExtTreeMap Uint256 ℕ → ExtTreeMap Uint256 ℕ) (role : Bool) :
    (entry.update keys frozen).key role = keys role (entry.key role) := by
  cases role <;> rfl

theorem rotate_getD (role : Bool) (oldKey newKey : XOnlyPubKey) :
    (entry.rotate role oldKey newKey).getD entry =
      entry.update (fun role' k => if role = role' then moveKey k (oldKey, newKey) else k) id := by
  unfold rotate update moveKey
  cases role with
  | false => by_cases heq : entry.recovery = oldKey <;> simp [key, setKey, heq]
  | true => by_cases heq : entry.operational = oldKey <;> simp [key, setKey, heq]

end SupervisionEntry

namespace SupervisionAction

variable (a : CAsset)

/-- The operation changes the entry of the asset, if any, and neither adds nor removes it. -/
def Keeps : SupervisionAction → Prop
  | .declare decl => decl.asset ≠ a
  | .remove asset => asset ≠ a
  | _ => True

def moves (role : Bool) : SupervisionAction → Option (XOnlyPubKey × XOnlyPubKey)
  | .rotate asset role' oldKey newKey =>
    if asset = a ∧ role' = role then some (oldKey, newKey) else none
  | _ => none

/-- What an operation does to the counters of an asset. -/
def recount (frozen : ExtTreeMap Uint256 ℕ) : SupervisionAction → ExtTreeMap Uint256 ℕ
  | .freeze asset target => if asset = a then addAt frozen target 1 else frozen
  | .unfreeze asset target => if asset = a then decAt frozen target else frozen
  | _ => frozen

variable {a}

theorem moves_of_ne {x : SupervisionAction} (hne : x.asset ≠ a) (role : Bool) :
    x.moves a role = none := by
  cases x with
  | rotate asset role' oldKey newKey => exact if_neg fun h => hne h.1
  | _ => rfl

theorem recount_of_ne {x : SupervisionAction} (hne : x.asset ≠ a)
    (frozen : ExtTreeMap Uint256 ℕ) : x.recount a frozen = frozen := by
  cases x with
  | freeze asset target => exact if_neg hne
  | unfreeze asset target => exact if_neg hne
  | _ => rfl

theorem Keeps.getElem?_act {x : SupervisionAction} (hkeeps : x.Keeps a)
    (r : SupervisionRegistry) : (r.act x)[a]? = r[a]?.map fun e =>
      e.update (fun role k => (x.moves a role).toList.foldl moveKey k) (x.recount a) := by
  rw [Sequentia.getElem?_act]
  by_cases heq : x.asset = a
  · rw [if_pos heq]
    cases x with
    | declare decl => exact absurd heq hkeeps
    | remove asset => exact absurd heq hkeeps
    | freeze asset target =>
      simp [onEntry, moves, recount, show asset = a from heq, SupervisionEntry.addFreeze,
        SupervisionEntry.update]
    | unfreeze asset target =>
      simp [onEntry, moves, recount, show asset = a from heq, SupervisionEntry.subFreeze,
        SupervisionEntry.update]
    | rotate asset role oldKey newKey =>
      simp only [onEntry, SupervisionEntry.rotate_getD]
      congr 1
      funext e
      congr 1
      funext role' k
      by_cases hrole : role = role' <;> simp [moves, show asset = a from heq, hrole]
  · rw [if_neg heq]
    simp [moves_of_ne heq, recount_of_ne heq, SupervisionEntry.update]

end SupervisionAction

theorem getElem?_foldl_act {a : CAsset} {xs : List SupervisionAction}
    (hkeeps : ∀ x ∈ xs, x.Keeps a) (r : SupervisionRegistry) :
    (xs.foldl SupervisionRegistry.act r)[a]? = r[a]?.map fun e =>
      e.update (fun role => (xs.filterMap (SupervisionAction.moves a role)).foldl moveKey)
        (xs.foldl (SupervisionAction.recount a)) := by
  induction xs generalizing r with
  | nil => cases h : r[a]? <;> simp [h, SupervisionEntry.update]
  | cons x xs ih =>
    rw [List.foldl_cons, ih fun y hy => hkeeps y (List.mem_cons_of_mem x hy),
      (hkeeps x List.mem_cons_self).getElem?_act, Option.map_map]
    congr 1
    funext e
    cases htrue : x.moves a true <;> cases hfalse : x.moves a false <;>
      simp [SupervisionEntry.update, htrue, hfalse]

end Sequentia
