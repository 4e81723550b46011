import Mathlib.Logic.Function.Basic
import Sequentia.Lib.Forest
import Sequentia.Lib.Runs
import Sequentia.Transaction

/-!
# Recovery of blocks whose anchors are canonical again

The anchor watcher invalidates the lowest block of the active chain whose anchor left the parent's
best chain, and tags it. When the anchor is canonical again, the watcher clears the failure marks
with `ResetBlockFailureFlags`, the routine behind `reconsiderblock`: it clears the marks of the
block, of everything above it and of all its ancestors.

The blocks an operator invalidated or that failed validation are called foreign here. Their marks
are not the watcher's to clear.
-/

namespace Sequentia.Anchor

/-- The failure marks of `nStatus`. -/
structure FailureFlags where
  /-- `BLOCK_FAILED_VALID`. -/
  valid : Bool := false
  /-- `BLOCK_FAILED_CHILD`. -/
  child : Bool := false
  /-- `BLOCK_FAILED_ANCHOR`. -/
  anchor : Bool := false
  deriving DecidableEq

/-- `BLOCK_FAILED_MASK`. -/
def FailureFlags.mask (f : FailureFlags) : Bool := f.valid || f.child

/-- The block index, the active chain and the state of the watcher. -/
structure IndexNode where
  /-- The failure marks of the blocks. -/
  flags : Uint256 → FailureFlags := fun _ => {}
  /-- The tip of the active chain. -/
  tip : Uint256
  /-- `g_anchor_invalidated`. -/
  invalidated : Uint256 → Bool := fun _ => false
  /-- The block whose anchor the watcher is asking the parent about. -/
  checking : Option Uint256 := none
  /-- `m_anchor_invalidating`. -/
  invalidating : Option Uint256 := none
  /-- The blocks an operator invalidated or that failed validation; for reasoning only. -/
  foreign : Uint256 → Bool := fun _ => false
  /-- The blocks the watcher found to have an orphaned anchor; for reasoning only. -/
  orphaned : Uint256 → Bool := fun _ => false

namespace IndexNode

variable (F : Forest Uint256) (n : IndexNode)

/-- A block carries a mark of `BLOCK_FAILED_MASK`. -/
def marked (h : Uint256) : Bool := (n.flags h).mask

def Failed (h : Uint256) : Prop := ∃ y ∈ F.path h, n.marked y = true

instance (h : Uint256) : Decidable (n.Failed F h) :=
  inferInstanceAs (Decidable (∃ y ∈ F.path h, n.marked y = true))

/-- A change of the marks of one block. -/
def setFlags (h : Uint256) (f : FailureFlags) : IndexNode :=
  { n with flags := Function.update n.flags h f }

def disconnectTip (q : Uint256) : IndexNode :=
  { n.setFlags n.tip { n.flags n.tip with valid := true } with tip := q }

/-- The loop of `InvalidateBlock`, with the block to mark. It disconnects the tip until the block
to invalidate is not in the active chain, or until shutdown is requested. -/
def disconnectTips (pindex : Uint256) : ℕ → IndexNode → Uint256 → IndexNode × Uint256
  | 0, n, toMarkFailed => (n, toMarkFailed)
  | fuel + 1, n, toMarkFailed =>
    match F.parent n.tip with
    | some q =>
      if pindex ∈ F.path n.tip then
        let m := n.disconnectTip q
        let m := if q = toMarkFailed ∧ (m.flags toMarkFailed).valid then
            m.setFlags toMarkFailed { m.flags toMarkFailed with valid := false, child := true }
          else m
        disconnectTips pindex fuel m n.tip
      else (n, toMarkFailed)
    | none => (n, toMarkFailed)

/-- `InvalidateBlock`, with shutdown requested after some blocks, and whether it succeeds. -/
def invalidateBlock (pindex : Uint256) (fuel : ℕ) : IndexNode × Bool :=
  if F.parent pindex = none then (n, false)
  else
    match disconnectTips F pindex fuel n pindex with
    | (m, toMarkFailed) =>
      if toMarkFailed ∈ F.path m.tip then (m, false)
      else (m.setFlags toMarkFailed { m.flags toMarkFailed with valid := true }, true)

def resetBlockFailureFlags (pindex : Uint256) : IndexNode :=
  { n with flags := fun x =>
      if (pindex ∈ F.path x ∧ n.marked x = true) ∨ x ∈ F.path pindex then {} else n.flags x }

/-- `foreign_failure`: an ancestor is failed for another reason. -/
def foreignFailure (pindex : Uint256) : Bool :=
  (F.ancestors pindex).any fun a => (n.flags a).valid && !(n.flags a).anchor

/-- The marks that loading the block index adds. -/
def loadFlags (x : Uint256) : FailureFlags :=
  if n.marked x then n.flags x
  else { n.flags x with child := (F.ancestors x).any n.marked }

/-- The watcher is between two blocks. -/
def Idle : Prop := n.checking = none ∧ n.invalidating = none

instance : Decidable n.Idle := inferInstanceAs (Decidable (_ ∧ _))

end IndexNode

/-- What happens. -/
inductive RecoveryEvent where
  /-- `ActivateBestChain` moves the tip; it connects only blocks that are not marked. -/
  | setTip (h : Uint256)
  | fail (h : Uint256)
  /-- A block above a marked one is marked: by a header on top of it, or when looking for the best
  chain. -/
  | markChild (h : Uint256)
  | invalidate (h : Uint256)
  /-- The watcher invalidates a block with an orphaned anchor, with shutdown requested after some
  blocks. -/
  | watch (h : Uint256) (fuel : ℕ)
  /-- The watcher tags the block it invalidated, or undoes an interrupted invalidation. -/
  | conclude
  | check (h : Uint256)
  /-- The watcher drops a block that is in the active chain again from the recovery set. -/
  | drop (h : Uint256)
  /-- The parent answers whether the anchor of the block is canonical. -/
  | recover (ok : Bool)
  | restart

open IndexNode in
/-- The state after an event. -/
def IndexNode.next (F : Forest Uint256) (n : IndexNode) : RecoveryEvent → Option IndexNode
  | .setTip h => if ∀ x ∈ F.path h, n.marked x = false then some { n with tip := h } else none
  | .fail h =>
    if h ∈ F.path n.tip then none
    else some { n.setFlags h { n.flags h with valid := true } with
      foreign := Function.update n.foreign h true }
  | .markChild h =>
    if (F.ancestors h).any n.marked then some (n.setFlags h { n.flags h with child := true })
    else none
  | .invalidate h =>
    match n.invalidateBlock F h (F.height n.tip + 1) with
    | (m, true) => some { m with foreign := Function.update n.foreign h true }
    | (m, false) => some m
  | .watch h fuel =>
    if n.Idle then
      match { n with orphaned := Function.update n.orphaned h true }.invalidateBlock F h fuel with
      | (m, true) => some { m with invalidating := some h }
      | (m, false) => some m
    else none
  | .conclude =>
    match n.invalidating with
    | none => none
    | some h =>
      if h ∈ F.path n.tip then some { n.resetBlockFailureFlags F h with invalidating := none }
      else some { n.setFlags h { n.flags h with anchor := true } with
        invalidated := Function.update n.invalidated h true
        invalidating := none }
  | .check h =>
    if n.Idle ∧ n.invalidated h ∧ h ∉ F.path n.tip ∧ (n.marked h || (n.flags h).anchor) then
      some { n with checking := some h }
    else none
  | .drop h =>
    if n.Idle ∧ n.invalidated h ∧ h ∈ F.path n.tip then
      some { n with invalidated := Function.update n.invalidated h false }
    else none
  | .recover ok =>
    match n.checking with
    | none => none
    | some h =>
      if ok && !n.foreignFailure F h then
        some { n.resetBlockFailureFlags F h with checking := none }
      else some { n with checking := none }
  | .restart =>
    some { n with
      flags := n.loadFlags F
      invalidated := fun x => (n.flags x).valid && (n.flags x).anchor
      checking := none
      invalidating := none }

/-- A node that starts without marks. -/
def recoveryMachine (F : Forest Uint256) : Machine IndexNode RecoveryEvent where
  init n := ∃ tip, n = { tip := tip }
  next := IndexNode.next F

/-- The condition on an event: where the watcher clears marks, no foreign block is at or above the
block it recovers, and no foreign ancestor of it is tagged as anchor-orphaned. -/
def Spares (F : Forest Uint256) (n : IndexNode) : RecoveryEvent → Prop
  | .recover _ => ∀ h ∈ n.checking, (∀ b, n.foreign b = true → h ∉ F.path b) ∧
      ∀ b ∈ F.ancestors h, n.foreign b = true → (n.flags b).anchor = false
  | .conclude => ∀ h ∈ n.invalidating, h ∈ F.path n.tip → ∀ b, n.foreign b = true → h ∉ F.path b
  | _ => True

open IndexNode List Option

variable {F : Forest Uint256} {n m : IndexNode} {h x pindex q t : Uint256} {fuel : ℕ}

theorem marked_setFlags {f : FailureFlags} :
    (n.setFlags h f).marked x = if x = h then f.mask else n.marked x := by
  simp only [marked, setFlags, Function.update_apply]
  split <;> rfl

theorem valid_setFlags {f : FailureFlags} :
    ((n.setFlags h f).flags x).valid = if x = h then f.valid else (n.flags x).valid := by
  simp only [setFlags, Function.update_apply]
  split <;> rfl

theorem marked_of_valid (hvalid : (n.flags x).valid = true) : n.marked x = true := by
  simp [marked, FailureFlags.mask, hvalid]

/-- No block of the active chain is marked. -/
def CleanChain (F : Forest Uint256) (n : IndexNode) : Prop :=
  ∀ x ∈ F.path n.tip, n.marked x = false

theorem CleanChain.not_mem (hclean : CleanChain F n) (hx : n.marked x = true) :
    x ∉ F.path n.tip := fun hin => Bool.noConfusion (hx.symm.trans (hclean x hin))

/-- The parent of a block is not the block itself. -/
theorem ne_of_parent (hparent : F.parent h = some q) (hx : x ∈ F.path q) : x ≠ h := by
  rintro rfl
  have hle := Forest.height_le hx
  rw [Forest.height_child hparent] at hle
  omega

/-- What `disconnectTips` has done: it marked blocks at or above the one to invalidate, and the
block to mark is one of them. -/
structure Disconnected (F : Forest Uint256) (pindex : Uint256) (n m : IndexNode) : Prop where
  clean : CleanChain F m
  valid : ∀ x, (n.flags x).valid = true → (m.flags x).valid = true
  /-- What is marked was marked before or is at or above the block to invalidate. -/
  marked : ∀ x, m.marked x = true → n.marked x = true ∨ pindex ∈ F.path x
  frame : m = { n with flags := m.flags, tip := m.tip }

theorem Disconnected.trans {k : IndexNode} (h₁ : Disconnected F pindex n m)
    (h₂ : Disconnected F pindex m k) : Disconnected F pindex n k where
  clean := h₂.clean
  valid x h := h₂.valid x (h₁.valid x h)
  marked x h := (h₂.marked x h).elim (h₁.marked x) .inr
  frame := by
    rw [h₂.frame, h₁.frame]

section Clean

variable (hclean : CleanChain F n)

include hclean

theorem Disconnected.refl : Disconnected F pindex n n where
  clean := hclean
  valid _ h := h
  marked _ h := .inl h
  frame := rfl

/-- A block at or above the one to invalidate gets marks, and the tip is one of its ancestors or
stays. -/
theorem disconnected_setFlags {f : FailureFlags} (hin : pindex ∈ F.path t)
    (hvalid : (n.flags t).valid = true → f.valid = true) (htip : q ∈ F.path n.tip)
    (hout : t ∉ F.path q) : Disconnected F pindex n { n.setFlags t f with tip := q } where
  clean x hx := by
    have hne : x ≠ t := fun heq => hout (heq ▸ hx)
    exact (marked_setFlags.trans (if_neg hne)).trans (hclean x (Forest.path_subset htip hx))
  valid x hx := by
    refine valid_setFlags.trans ?_
    split
    · next heq => exact hvalid (heq ▸ hx)
    · exact hx
  marked x hx := by
    have hcases := marked_setFlags.symm.trans hx
    split at hcases
    · next heq => exact .inr (heq ▸ hin)
    · exact .inl hcases
  frame := rfl

theorem disconnected_disconnectTip (hparent : F.parent n.tip = some q)
    (hin : pindex ∈ F.path n.tip) : Disconnected F pindex n (n.disconnectTip q) := by
  refine disconnected_setFlags hclean hin (fun _ => rfl) ?_ fun hmem => ne_of_parent hparent hmem rfl
  rw [Forest.path_child hparent]
  exact mem_cons_of_mem _ (Forest.mem_path_self q)

/-- One turn of the loop: it disconnects the tip, and the new tip carries no mark to rewrite, or
it stops. -/
theorem disconnectTips_succ (pindex t : Uint256) (fuel : ℕ) :
    (∃ q, F.parent n.tip = some q ∧ pindex ∈ F.path n.tip ∧
      Disconnected F pindex n (n.disconnectTip q) ∧
      disconnectTips F pindex (fuel + 1) n t =
        disconnectTips F pindex fuel (n.disconnectTip q) n.tip) ∨
    (pindex ∈ F.path n.tip → F.parent n.tip = none) ∧
      disconnectTips F pindex (fuel + 1) n t = (n, t) := by
  rw [disconnectTips]
  cases hparent : F.parent n.tip with
  | none => exact .inr ⟨fun _ => rfl, rfl⟩
  | some q =>
    by_cases hin : pindex ∈ F.path n.tip
    · have hstep := disconnected_disconnectTip hclean hparent hin
      have hfree : ¬(q = t ∧ ((n.disconnectTip q).flags t).valid = true) := by
        rintro ⟨rfl, hvalid⟩
        exact hstep.clean.not_mem (marked_of_valid hvalid) (Forest.mem_path_self q)
      refine .inl ⟨q, rfl, hin, hstep, ?_⟩
      simp only [if_pos hin, if_neg hfree]
    · refine .inr ⟨fun h => absurd h hin, ?_⟩
      simp only [if_neg hin]

/-- The loop of `InvalidateBlock`. -/
theorem disconnected_disconnectTips (pindex : Uint256) (fuel : ℕ) (t : Uint256) :
    Disconnected F pindex n (disconnectTips F pindex fuel n t).1 ∧
      ((disconnectTips F pindex fuel n t).2 = t ∨
        pindex ∈ F.path (disconnectTips F pindex fuel n t).2) := by
  induction fuel generalizing n t with
  | zero => exact ⟨.refl hclean, .inl rfl⟩
  | succ fuel ih =>
    obtain ⟨q, -, hin, hstep, heq⟩ | ⟨-, heq⟩ := disconnectTips_succ hclean pindex t fuel
    · rw [heq]
      obtain ⟨hrest, hmark⟩ := ih hstep.clean n.tip
      exact ⟨hstep.trans hrest, .inr (hmark.elim (fun hself => hself.symm ▸ hin) id)⟩
    · rw [heq]
      exact ⟨.refl hclean, .inl rfl⟩

/-- A loop that is not interrupted ends with the block to invalidate. -/
theorem disconnectTips_complete (hgenesis : F.parent pindex ≠ none)
    (hleft : pindex ∉ F.path n.tip ∧ t = pindex ∨
      pindex ∈ F.path n.tip ∧ F.height n.tip < fuel + F.height pindex) :
    (disconnectTips F pindex fuel n t).2 = pindex := by
  induction fuel generalizing n t with
  | zero =>
    rcases hleft with ⟨-, rfl⟩ | ⟨hin, hlt⟩
    · rfl
    · have := Forest.height_le hin
      omega
  | succ fuel ih =>
    obtain ⟨q, hparent, hin, hstep, heq⟩ | ⟨hstop, heq⟩ := disconnectTips_succ hclean pindex t fuel
    · have hlt := (hleft.resolve_left fun h => h.1 hin).2
      rw [Forest.height_child hparent] at hlt
      rw [heq]
      refine ih hstep.clean ?_
      obtain hself | ⟨q', hq', hmem⟩ := Forest.mem_path_iff.mp hin
      · exact .inl ⟨fun hmem => ne_of_parent hparent hmem hself, hself.symm⟩
      · obtain rfl := Option.some.inj (hparent.symm.trans hq')
        exact .inr ⟨hmem, by change F.height q < _; omega⟩
    · rw [heq]
      refine (hleft.resolve_right fun ⟨hin, _⟩ => ?_).2
      have hroot := hstop hin
      rw [Forest.path_root hroot, mem_singleton] at hin
      exact hgenesis (hin ▸ hroot)

/-- The block to mark is left in the active chain only if nothing was disconnected. -/
theorem disconnectTips_eq (pindex t : Uint256) (fuel : ℕ)
    (hin : (disconnectTips F pindex fuel n t).2 ∈ F.path (disconnectTips F pindex fuel n t).1.tip) :
    disconnectTips F pindex fuel n t = (n, t) := by
  induction fuel generalizing n t with
  | zero => rfl
  | succ fuel ih =>
    obtain ⟨q, hparent, -, hstep, heq⟩ | ⟨-, heq⟩ := disconnectTips_succ hclean pindex t fuel
    · rw [heq] at hin
      rw [ih hstep.clean n.tip hin] at hin
      exact absurd rfl (ne_of_parent hparent hin)
    · exact heq

/-- `InvalidateBlock` keeps the active chain free of marks and marks only blocks at or above the
one it invalidates. If it fails, it has done nothing. If it succeeds and is not interrupted, the
block is marked. -/
theorem invalidateBlock_spec (pindex : Uint256) (fuel : ℕ) {done : Bool}
    (heq : n.invalidateBlock F pindex fuel = (m, done)) :
    Disconnected F pindex n m ∧ (done = false → m = n) ∧
      (done = true → F.height n.tip < fuel → (m.flags pindex).valid = true) := by
  unfold invalidateBlock at heq
  split at heq
  · cases heq
    exact ⟨.refl hclean, fun _ => rfl, nofun⟩
  next hgenesis =>
  obtain ⟨hloop, hmark⟩ := disconnected_disconnectTips hclean pindex fuel pindex
  have hsame := disconnectTips_eq hclean pindex pindex fuel
  have hend : F.height n.tip < fuel → (disconnectTips F pindex fuel n pindex).2 = pindex := by
    intro hfuel
    refine disconnectTips_complete hclean hgenesis ?_
    by_cases hin : pindex ∈ F.path n.tip
    · exact .inr ⟨hin, by omega⟩
    · exact .inl ⟨hin, rfl⟩
  generalize disconnectTips F pindex fuel n pindex = result at heq hloop hmark hsame hend
  obtain ⟨k, t⟩ := result
  dsimp only at heq hloop hmark hsame hend
  split at heq
  · next hin =>
    cases heq
    exact ⟨hloop, fun _ => congrArg Prod.fst (hsame hin), nofun⟩
  · next hout =>
    cases heq
    have hin : pindex ∈ F.path t := hmark.elim (fun h => h ▸ Forest.mem_path_self _) id
    refine ⟨hloop.trans ?_, nofun, fun _ hfuel => hend hfuel ▸ valid_setFlags.trans (if_pos rfl)⟩
    exact disconnected_setFlags hloop.clean hin (fun _ => rfl) (Forest.mem_path_self _) hout

end Clean

/-- What holds between two events. -/
structure RecoveryInv (F : Forest Uint256) (n : IndexNode) : Prop where
  clean : CleanChain F n
  foreign : ∀ b, n.foreign b = true → (n.flags b).valid = true
  cause : ∀ x, n.marked x = true → ∃ y ∈ F.path x, n.foreign y = true ∨ n.orphaned y = true

section Preserved

variable (hinv : RecoveryInv F n)

include hinv

/-- Every mark is at or above one that was there before or at or above a new cause. -/
theorem RecoveryInv.of_marks (hclean : CleanChain F m)
    (hforeign : ∀ b, m.foreign b = true → (m.flags b).valid = true)
    (hkept : ∀ y, n.foreign y = true ∨ n.orphaned y = true →
      m.foreign y = true ∨ m.orphaned y = true)
    (hmarked : ∀ x, m.marked x = true → ∃ y ∈ F.path x,
      n.marked y = true ∨ m.foreign y = true ∨ m.orphaned y = true) : RecoveryInv F m where
  clean := hclean
  foreign := hforeign
  cause x hx := by
    obtain ⟨y, hy, hold | hnew⟩ := hmarked x hx
    · obtain ⟨z, hz, hcause⟩ := hinv.cause y hold
      exact ⟨z, Forest.path_subset hy hz, hkept z hcause⟩
    · exact ⟨y, hy, hnew⟩

/-- Blocks at or above a cause are marked. -/
theorem RecoveryInv.disconnected (foreign orphaned : Uint256 → Bool)
    (hd : Disconnected F pindex n m)
    (hforeign : ∀ b, foreign b = true → n.foreign b = true ∨ (m.flags b).valid = true)
    (hkept : ∀ y, n.foreign y = true ∨ n.orphaned y = true →
      foreign y = true ∨ orphaned y = true)
    (hcause : foreign pindex = true ∨ orphaned pindex = true) :
    RecoveryInv F { m with foreign := foreign, orphaned := orphaned } := by
  refine hinv.of_marks hd.clean (fun b hb => ?_) hkept fun x hx => ?_
  · exact (hforeign b hb).elim (fun h => hd.valid b (hinv.foreign b h)) id
  · rcases hd.marked x hx with hold | habove
    · exact ⟨x, Forest.mem_path_self x, .inl hold⟩
    · exact ⟨pindex, habove, .inr hcause⟩

/-- A foreign block is not in the active chain. -/
theorem RecoveryInv.not_mem (hx : n.foreign x = true) : x ∉ F.path n.tip :=
  hinv.clean.not_mem (marked_of_valid (hinv.foreign x hx))

end Preserved

/-- `ResetBlockFailureFlags` changes nothing but the blocks at, above and below the one it is
called for. -/
theorem flags_reset (habove : h ∉ F.path x) (hbelow : x ∉ F.path h) :
    (n.resetBlockFailureFlags F h).flags x = n.flags x :=
  if_neg fun hor => hor.elim (fun hand => habove hand.1) hbelow

theorem marked_reset (hx : (n.resetBlockFailureFlags F h).marked x = true) :
    n.marked x = true := by
  by_cases hcleared : (h ∈ F.path x ∧ n.marked x = true) ∨ x ∈ F.path h
  · have hnone : (n.resetBlockFailureFlags F h).flags x = {} := if_pos hcleared
    rw [marked, hnone] at hx
    cases hx
  · exact (congrArg FailureFlags.mask (if_neg hcleared)).symm.trans hx

theorem reset_cleared (hx : n.marked x = true)
    (hcleared : (n.resetBlockFailureFlags F h).marked x = false) :
    h ∈ F.path x ∨ x ∈ F.path h := by
  by_contra hnot
  obtain ⟨habove, hbelow⟩ := not_or.mp hnot
  have hsame := congrArg FailureFlags.mask (flags_reset (n := n) habove hbelow)
  exact Bool.noConfusion (hx.symm.trans (hsame.symm.trans hcleared))

theorem update_true_of {f : Uint256 → Bool} (hx : f x = true) :
    Function.update f h true x = true := by
  rw [Function.update_apply]
  split
  · rfl
  · exact hx

theorem of_update_true {f : Uint256 → Bool} (hx : Function.update f h true x = true) :
    x = h ∨ f x = true := by
  rw [Function.update_apply] at hx
  split at hx
  · next heq => exact .inl heq
  · exact .inr hx

theorem exists_marked_of_loadFlags (hx : (n.loadFlags F x).mask = true) :
    ∃ y ∈ F.path x, n.marked y = true := by
  unfold loadFlags at hx
  split at hx
  · next hold => exact ⟨x, Forest.mem_path_self x, hold⟩
  · next hnot =>
    have hany : (F.ancestors x).any n.marked = true := by
      have hvalid : (n.flags x).valid = false := by
        by_contra hvalid
        exact hnot (marked_of_valid (by simpa using hvalid))
      rw [FailureFlags.mask, hvalid, Bool.false_or] at hx
      exact hx
    obtain ⟨y, hy, hold⟩ := any_eq_true.mp hany
    exact ⟨y, mem_cons_of_mem x hy, hold⟩

section Events

variable (hinv : RecoveryInv F n)

include hinv

theorem RecoveryInv.reset (hspared : ∀ b, n.foreign b = true → h ∉ F.path b ∧ b ∉ F.path h) :
    RecoveryInv F (n.resetBlockFailureFlags F h) := by
  refine hinv.of_marks (fun x hx => ?_) (fun b hb => ?_) (fun _ hy => hy)
    fun x hx => ⟨x, Forest.mem_path_self x, .inl (marked_reset hx)⟩
  · refine (Bool.not_eq_true _).mp fun hmarked => ?_
    exact hinv.clean.not_mem (marked_reset hmarked) hx
  · obtain ⟨habove, hbelow⟩ := hspared b hb
    rw [flags_reset habove hbelow]
    exact hinv.foreign b hb

/-- No foreign block is above or below a block that the watcher recovers. -/
theorem RecoveryInv.spared (hchecking : n.checking = some h)
    (hspares : Spares F n (.recover true)) (hno : n.foreignFailure F h = false) :
    ∀ b, n.foreign b = true → h ∉ F.path b ∧ b ∉ F.path h := by
  intro b hb
  obtain ⟨habove, hbelow⟩ := hspares h hchecking
  refine ⟨habove b hb, fun hmem => ?_⟩
  rcases mem_cons.mp hmem with rfl | hancestor
  · exact habove b hb (Forest.mem_path_self b)
  · have hfailure := any_eq_false.mp hno b hancestor
    rw [hinv.foreign b hb, hbelow b hancestor hb] at hfailure
    exact hfailure rfl

theorem RecoveryInv.fail (hout : h ∉ F.path n.tip) :
    RecoveryInv F { n.setFlags h { n.flags h with valid := true } with
      foreign := Function.update n.foreign h true } := by
  have hd := disconnected_setFlags (f := { n.flags h with valid := true }) hinv.clean
    (Forest.mem_path_self h) (fun _ => rfl) (Forest.mem_path_self n.tip) hout
  refine hinv.disconnected _ n.orphaned hd (fun b hb => ?_)
    (fun y hy => hy.imp_left update_true_of) (.inl (Function.update_self ..))
  rcases of_update_true hb with rfl | hold
  · exact .inr (valid_setFlags.trans (if_pos rfl))
  · exact .inl hold

theorem RecoveryInv.markChild (hany : (F.ancestors h).any n.marked = true) :
    RecoveryInv F (n.setFlags h { n.flags h with child := true }) := by
  obtain ⟨y, hy, hmarked⟩ := any_eq_true.mp hany
  have hyh : y ∈ F.path h := mem_cons_of_mem h hy
  have hout : h ∉ F.path n.tip := fun hin =>
    hinv.clean.not_mem hmarked (Forest.path_subset hin hyh)
  obtain ⟨z, hz, hcause⟩ := hinv.cause y hmarked
  have hd := disconnected_setFlags (f := { n.flags h with child := true }) hinv.clean
    (Forest.path_subset hyh hz) id (Forest.mem_path_self n.tip) hout
  exact hinv.disconnected n.foreign n.orphaned hd (fun _ => .inl) (fun _ hy => hy) hcause

theorem RecoveryInv.invalidate (heq : n.invalidateBlock F h (F.height n.tip + 1) = (m, true)) :
    RecoveryInv F { m with foreign := Function.update n.foreign h true } := by
  obtain ⟨hd, -, hvalid⟩ := invalidateBlock_spec hinv.clean h _ heq
  have horphaned : m.orphaned = n.orphaned := by rw [hd.frame]
  refine { hinv.disconnected (Function.update n.foreign h true) m.orphaned hd (fun b hb => ?_)
    (fun y hy => hy.imp update_true_of (congrFun horphaned y).trans)
    (.inl (Function.update_self ..)) with }
  rcases of_update_true hb with rfl | hold
  · exact .inr (hvalid rfl (Nat.lt_succ_self _))
  · exact .inl hold

theorem RecoveryInv.watch {done : Bool} (heq : invalidateBlock F
    { n with orphaned := Function.update n.orphaned h true } h fuel = (m, done)) :
    RecoveryInv F m := by
  have horphaned : RecoveryInv F { n with orphaned := Function.update n.orphaned h true } :=
    { hinv with cause := fun x hx =>
        (hinv.cause x hx).imp fun _ hy => ⟨hy.1, hy.2.imp_right update_true_of⟩ }
  have hd := (invalidateBlock_spec horphaned.clean h fuel heq).1
  exact horphaned.disconnected m.foreign m.orphaned hd
    (fun b hb => by rw [hd.frame] at hb; exact .inl hb)
    (fun y hy => by rw [hd.frame]; exact hy)
    (by rw [hd.frame]; exact .inr (Function.update_self ..))

/-- The watcher tags the block it invalidated. -/
theorem RecoveryInv.tag : RecoveryInv F (n.setFlags h { n.flags h with anchor := true }) := by
  have hmarked : ∀ x, (n.setFlags h { n.flags h with anchor := true }).marked x = n.marked x := by
    intro x
    rw [marked_setFlags]
    split
    · next heq => rw [heq]; rfl
    · rfl
  refine ⟨fun x hx => (hmarked x).trans (hinv.clean x hx), fun b hb => ?_, fun x hx => ?_⟩
  · refine valid_setFlags.trans ?_
    split
    · next heq => exact heq ▸ hinv.foreign b hb
    · exact hinv.foreign b hb
  · exact hinv.cause x ((hmarked x).symm.trans hx)

theorem RecoveryInv.undo (hin : h ∈ F.path n.tip)
    (hspared : ∀ b, n.foreign b = true → h ∉ F.path b) :
    RecoveryInv F (n.resetBlockFailureFlags F h) :=
  hinv.reset fun b hb =>
    ⟨hspared b hb, fun hmem => hinv.not_mem hb (Forest.path_subset hin hmem)⟩

theorem RecoveryInv.restart (hnext : n.next F .restart = some m) : RecoveryInv F m := by
  cases hnext
  refine hinv.of_marks (fun x hx => ?_) (fun b hb => ?_) (fun _ hy => hy) fun x hx => ?_
  · refine (Bool.not_eq_true _).mp fun hmarked => ?_
    obtain ⟨y, hy, hold⟩ := exists_marked_of_loadFlags hmarked
    exact hinv.clean.not_mem hold (Forest.path_subset hx hy)
  · have hvalid := hinv.foreign b hb
    change (n.loadFlags F b).valid = true
    rw [loadFlags, if_pos (marked_of_valid hvalid)]
    exact hvalid
  · obtain ⟨y, hy, hold⟩ := exists_marked_of_loadFlags hx
    exact ⟨y, hy, .inl hold⟩

end Events

/-- What the watcher does with the answer about an anchor. -/
theorem next_recover {ok : Bool} (hnext : n.next F (.recover ok) = some m) :
    ∃ h, n.checking = some h ∧
      (m = { n with checking := none } ∨
        n.foreignFailure F h = false ∧
          m = { n.resetBlockFailureFlags F h with checking := none }) := by
  simp only [IndexNode.next] at hnext
  split at hnext
  · cases hnext
  next h hchecking =>
  refine ⟨h, hchecking, ?_⟩
  split at hnext
  · next hok =>
    have hno := (Bool.and_eq_true_iff.mp hok).2
    exact .inr ⟨by simpa using hno, (Option.some.inj hnext).symm⟩
  · exact .inl (Option.some.inj hnext).symm

/-- Every event that meets the condition keeps what holds. -/
theorem RecoveryInv.next (hinv : RecoveryInv F n) {e : RecoveryEvent} (hspares : Spares F n e)
    (hnext : n.next F e = some m) : RecoveryInv F m := by
  revert hnext
  fun_cases IndexNode.next F n e <;> rintro ⟨⟩
  case case1 hclean => exact { hinv with clean := hclean }
  case case4 hout => exact hinv.fail hout
  case case5 hany => exact hinv.markChild hany
  case case7 heq => exact hinv.invalidate heq
  case case8 heq =>
    rw [(invalidateBlock_spec hinv.clean _ _ heq).2.1 rfl]
    exact hinv
  case case9 heq => exact { hinv.watch heq with }
  case case10 heq => exact hinv.watch heq
  case case13 hinvalidating hin => exact { hinv.undo hin (hspares _ hinvalidating hin) with }
  case case14 => exact { hinv.tag with }
  case case20 hchecking hok =>
    have hno := (Bool.and_eq_true_iff.mp hok).2
    exact { hinv.reset (hinv.spared hchecking hspares (by simpa using hno)) with }
  case case22 => exact hinv.restart rfl
  all_goals exact { hinv with }

/-- In every run that meets the condition, a foreign block and everything above it is failed, and
where the watcher's recovery clears the mark of a block, the block is at or above one whose anchor
was orphaned and no foreign block is at or below it. -/
theorem recovery_spares_foreign (F : Forest Uint256) (n : IndexNode)
    (hreach : (recoveryMachine F).Reachable (Spares F) n) :
    (∀ b x, n.foreign b = true → b ∈ F.path x → n.Failed F x) ∧
      ∀ ok m, Spares F n (.recover ok) → n.next F (.recover ok) = some m → ∀ x,
        n.marked x = true → m.marked x = false →
          (∃ y ∈ F.path x, n.orphaned y = true) ∧ ∀ y ∈ F.path x, n.foreign y = false := by
  have hinv : RecoveryInv F n := by
    refine Machine.Reachable.invariant ?_ (fun _ _ _ h hspares hnext => h.next hspares hnext) hreach
    rintro _ ⟨tip, rfl⟩
    exact ⟨fun _ _ => rfl, nofun, nofun⟩
  refine ⟨fun b x hb hmem => ⟨b, hmem, marked_of_valid (hinv.foreign b hb)⟩, ?_⟩
  intro ok m hspares hnext x hmarked hcleared
  obtain ⟨h, hchecking, rfl | ⟨hno, rfl⟩⟩ := next_recover hnext
  · exact absurd (hmarked.symm.trans hcleared) Bool.noConfusion
  have hspared := hinv.spared hchecking hspares hno
  have hnone : ∀ y ∈ F.path x, n.foreign y = false := by
    intro y hy
    by_contra hforeign
    obtain ⟨habove, hbelow⟩ := hspared y ((Bool.not_eq_false _).mp hforeign)
    rcases reset_cleared hmarked hcleared with hx | hx
    · exact (Forest.path_total hy hx).elim hbelow habove
    · exact hbelow (Forest.path_subset hx hy)
  obtain ⟨y, hy, hcause⟩ := hinv.cause x hmarked
  refine ⟨⟨y, hy, hcause.resolve_left ?_⟩, hnone⟩
  rw [hnone y hy]
  exact Bool.noConfusion

/-- A chain of the blocks 0, 1 and 2, and block 3 beside block 1. -/
def smallForest : Forest Uint256 where
  parent x := if x = 1 then some 0 else if x = 2 then some 1 else if x = 3 then some 0 else none
  ancestors x := if x = 1 then [0] else if x = 2 then [1, 0] else if x = 3 then [0] else []
  ancestors_eq x := by
    by_cases h1 : x = 1
    · subst h1; decide
    · by_cases h2 : x = 2
      · subst h2; decide
      · by_cases h3 : x = 3
        · subst h3; decide
        · simp [h1, h2, h3]

/-- Block 3 fails validation, block 1 is orphaned and tagged, and the watcher asks about its
anchor. -/
theorem exists_checking : ∃ n, (recoveryMachine smallForest).Reachable (Spares smallForest) n ∧
    n.checking = some 1 ∧ n.foreign = Function.update (fun _ => false) 3 true ∧
    n.marked 1 = true ∧ n.foreignFailure smallForest 1 = false := by
  have horphaned : (recoveryMachine smallForest).Reachable (Spares smallForest) _ :=
    .next (.watch 1 9) (.next (.fail 3) (.init ⟨2, rfl⟩) trivial rfl) trivial rfl
  have htagged : (recoveryMachine smallForest).Reachable (Spares smallForest) _ :=
    .next .conclude horphaned (by
      rintro _ ⟨⟩ hin
      exact absurd hin (by decide)) rfl
  exact ⟨_, .next (.check 1) htagged trivial rfl, rfl, rfl, by decide, by decide⟩

/-- The watcher recovers block 1, and the failed sibling is still failed. -/
theorem recovery_spares_sibling :
    ∃ n m : IndexNode, (recoveryMachine smallForest).Reachable (Spares smallForest) m ∧
      n.next smallForest (.recover true) = some m ∧ n.marked 1 = true ∧ m.marked 1 = false ∧
      (∃ y ∈ smallForest.path 1, n.orphaned y = true) ∧ m.Failed smallForest 3 := by
  obtain ⟨n, hreach, hchecking, hforeign, hmarked, hno⟩ := exists_checking
  have hspares : Spares smallForest n (.recover true) := by
    intro h hh
    obtain rfl := Option.some.inj (hchecking.symm.trans hh)
    have honly : ∀ b, n.foreign b = true → b = 3 := fun b hb =>
      (of_update_true (hforeign ▸ hb)).resolve_right Bool.noConfusion
    refine ⟨fun b hb => honly b hb ▸ by decide, fun b hb hf => ?_⟩
    exact absurd (honly b hf ▸ hb) (by decide)
  obtain ⟨m, hm⟩ : ∃ m, m = { n.resetBlockFailureFlags smallForest 1 with checking := none } :=
    ⟨_, rfl⟩
  have hnext : n.next smallForest (.recover true) = some m := by
    simp [IndexNode.next, hchecking, hno, hm]
  have hcleared : m.marked 1 = false := by
    rw [hm]
    exact congrArg FailureFlags.mask (if_pos (.inr (Forest.mem_path_self 1)))
  have hrecovered : (recoveryMachine smallForest).Reachable (Spares smallForest) m :=
    .next (.recover true) hreach hspares hnext
  have hsibling : m.foreign 3 = true := by
    rw [hm]
    exact hforeign ▸ Function.update_self ..
  exact ⟨n, m, hrecovered, hnext, hmarked, hcleared,
    ((recovery_spares_foreign smallForest n hreach).2 true m hspares hnext 1 hmarked hcleared).1,
    (recovery_spares_foreign smallForest m hrecovered).1 3 3 hsibling (Forest.mem_path_self 3)⟩

/-- The operator invalidates block 2. The anchor of block 1 below it is orphaned and becomes
canonical again: the recovery of block 1 clears the operator's mark. -/
theorem recovery_clears_operator :
    ∃ n, (recoveryMachine smallForest).Reachable (fun _ _ => True) n ∧
      n.foreign 2 = true ∧ ¬n.Failed smallForest 2 := by
  refine ⟨_, Machine.reachable_run ⟨2, rfl⟩ (show (recoveryMachine smallForest).run _
    [.invalidate 2, .watch 1 9, .conclude, .check 1, .recover true] = some _ from rfl), ?_, ?_⟩
  · decide
  · decide

end Sequentia.Anchor
