import Mathlib.Logic.Relation
import Sequentia.Chain.FinalityFloor

/-!
# What is final stays

A candidate is chosen while the gate looks at the final point of the last pass; then blocks are
disconnected one by one, with a pass after each. A final block stays on the active chain if no
pass on the way down finalizes a block above the fork, and if no answer on the active chain is
taken back. Otherwise a block may become final in the middle of a reorganisation that then
disconnects it.
-/

namespace Sequentia

/-- A node with the step of activation that is going on. -/
structure GateNode where
  /-- The active chain and its final point. -/
  finality : FinalityState
  /-- The blocks that are marked as failed. -/
  marked : Uint256 → Bool
  /-- `g_pos_reconcile_release_hash`. -/
  release : Option Uint256
  /-- The candidate that is being activated, and whether a release let it through. -/
  target : Option (Uint256 × Bool)

/-- What may happen. -/
inductive GateEvent where
  /-- Answers, time, certificates or arrivals change. -/
  | between
  /-- `PosRefreshImmediateFinality`. -/
  | refresh
  /-- `FindMostWorkChain`. -/
  | choose (candidate : Uint256)
  /-- `DisconnectTip`, on the way to the fork. -/
  | disconnectTip
  | connectTip (h : Uint256)
  /-- The step of activation returns. -/
  | finish
  /-- Blocks off the active chain fail. -/
  | fail (hs : List Uint256)
  /-- `InvalidateBlock` disconnects the tip above a block, or the block itself. -/
  | invalidate (h : Uint256)
  /-- Marks are cleared. -/
  | reconsider (hs : List Uint256)
  /-- The monitor releases finality for a branch. -/
  | release (rival : Uint256)
  /-- A release is withdrawn or used up. -/
  | revoke

namespace GateNode

variable (p : CertParams) (c : FinalityParams) (facts : Uint256 → ForkFacts)

/-- The active chain has changed, and a pass follows. -/
def pass (n : GateNode) (s : FinalityState) : GateNode :=
  { n with finality := s.recomputePosImmediateFinality c facts }

def refuses (n : GateNode) (release : Option Uint256) (h : Uint256) : Bool :=
  posFinalityGateRefuses p facts (some n.finality.tip) n.marked n.finality.final release h

/-- What an event does. `cs_main` is held from the choice of a candidate until the step of
activation returns, so that only time passes in between. -/
inductive Step : GateEvent → GateNode → GateNode → Prop
  | between {n : GateNode} {s : FinalityState} (hidle : n.target = none)
      (hbetween : FinalityState.Between facts n.finality s) :
      Step .between n { n with finality := s }
  | tick {n : GateNode} (elapsed : ℕ) :
      Step .between n { n with finality := { n.finality with now := n.finality.now + elapsed } }
  | refresh {n : GateNode} (hidle : n.target = none) : Step .refresh n (n.pass c facts n.finality)
  | choose {n : GateNode} (candidate : Uint256) (hidle : n.target = none)
      (hoff : candidate ∉ path facts n.finality.tip)
      (hallowed : n.refuses p facts n.release candidate = false) :
      Step (.choose candidate) n
        { n with target := some (candidate, n.refuses p facts none candidate) }
  | disconnectTip {n : GateNode} {candidate q : Uint256} {released : Bool}
      (htarget : n.target = some (candidate, released))
      (habove : n.finality.tip ∉ path facts candidate)
      (hprev : (facts n.finality.tip).pprev = some q) :
      Step .disconnectTip n (n.pass c facts { n.finality with tip := q })
  | connectTip {n : GateNode} {candidate h : Uint256} {released : Bool} (answer noted : Bool)
      (htarget : n.target = some (candidate, released)) (hpath : h ∈ path facts candidate)
      (hunmarked : n.marked h = false) (hprev : (facts h).pprev = some n.finality.tip) :
      Step (.connectTip h) n (n.pass c facts (n.finality.connectBlock c h answer noted))
  | finish {n : GateNode} : Step .finish n { n with target := none }
  | fail {n : GateNode} (hs : List Uint256) (hoff : ∀ h ∈ hs, h ∉ path facts n.finality.tip) :
      Step (.fail hs) n { n with marked := fun h => n.marked h || decide (h ∈ hs) }
  | invalidate {n : GateNode} {q : Uint256} (h : Uint256) (hidle : n.target = none)
      (hon : h ∈ path facts n.finality.tip) (hprev : (facts n.finality.tip).pprev = some q) :
      Step (.invalidate h) n
        { n.pass c facts { n.finality with tip := q } with
          marked := fun x => n.marked x || decide (x = n.finality.tip) }
  | reconsider {n : GateNode} (hs : List Uint256) :
      Step (.reconsider hs) n { n with marked := fun h => n.marked h && decide (h ∉ hs) }
  | release {n : GateNode} (rival : Uint256) :
      Step (.release rival) n { n with release := some rival }
  | revoke {n : GateNode} : Step .revoke n { n with release := none }

/-- No pass finalizes a block above the fork with a candidate, with the tip one block lower. -/
def Fresh (n : GateNode) (candidate q : Uint256) : Prop :=
  ∀ f ∈ path facts q, f ∉ path facts candidate →
    FinalityState.finalizes c facts { n.finality with tip := q } f = false

/-- A candidate that no release let through is activated with a fresh choice, and no answer on
the active chain is taken back. -/
def Meets : GateEvent → GateNode → GateNode → Prop
  | .disconnectTip, n, n' => ∀ candidate, n.target = some (candidate, false) →
      n.Fresh c facts candidate n'.finality.tip
  | .between, n, n' => ∀ x ∈ path facts n.finality.tip, n.finality.posCarriesQuorum x = true →
      n'.finality.posCarriesQuorum x = true
  | _, _, _ => True

/-- The nodes that a history leads to, with or without the condition on its events. -/
inductive Reachable (conditioned : Bool) : GateNode → Prop
  | start (tip : Uint256) (answers judged : Uint256 → Bool) (now : ℕ) :
      Reachable conditioned
        ⟨FinalityState.start tip answers judged now, fun _ => false, none, none⟩
  | step {e : GateEvent} {n n' : GateNode} : Reachable conditioned n → Step p c facts e n n' →
      (conditioned = true → Meets c facts e n n') → Reachable conditioned n'

def Spares (final : Uint256) : GateEvent → Prop
  | .invalidate h => h ∉ path facts final
  | .release _ => False
  | _ => True

/-- Histories that spare a block. -/
def Sparing (final : Uint256) : GateNode → GateNode → Prop :=
  Relation.ReflTransGen fun n n' =>
    ∃ e, Step p c facts e n n' ∧ Meets c facts e n n' ∧ Spares facts final e

end GateNode

namespace FinalityState

variable {c : FinalityParams} {facts : Uint256 → ForkFacts} {s : FinalityState}

def FloorAgrees (facts : Uint256 → ForkFacts) (s : FinalityState) : Prop :=
  ∀ floor, s.floor = some floor →
    floor.final = s.final ∧ ∀ f, floor.final = some f → f ∈ path facts floor.hash

section Walk

variable {h r f : Uint256} {isSettled : Bool} {pending : Option Uint256}

theorem agrees_of_usable (hfloor : s.FloorAgrees facts) {reached : FinalFloor}
    (hreached : s.usableFloor = some reached) :
    reached.final = s.final ∧ ∀ f, reached.final = some f → f ∈ path facts reached.hash :=
  hfloor reached (Option.filter_eq_some_iff.mp hreached).1

theorem walk_mem (htree : IsTree facts) (hfloor : s.FloorAgrees facts)
    (hsettled : isSettled = true → ∀ g ∈ path facts h, s.settled facts g = true)
    (hresult : (s.walk c facts s.usableFloor (path facts h) isSettled pending).1 = some r) :
    r ∈ path facts h ∧ (s.finalizes c facts r = true ∨ s.final = some r) := by
  induction h using htree.induct generalizing isSettled pending with
  | root h hprev =>
    rw [walk_root htree hprev] at hresult
    cases hresult
  | child h q hprev ih =>
    have hbelow : ∀ g ∈ path facts q, g ∈ path facts h := fun g => htree.mem_path_of_parent hprev
    have hcase : WalkCase c facts s s.usableFloor h q isSettled pending _ :=
      walk_child htree hprev
    generalize s.walk c facts s.usableFloor (path facts h) isSettled pending = result
      at hcase hresult
    cases hcase with
    | floor reached hreached hhash =>
      obtain ⟨hfinal, hmem⟩ := agrees_of_usable hfloor hreached
      exact ⟨hhash ▸ hmem r hresult, .inr (hfinal ▸ hresult)⟩
    | skip hquorum hfinal =>
      obtain ⟨hmem, hwhy⟩ := ih (fun hor g hg => by
        rcases Bool.or_eq_true_iff.mp hor with hor | hor
        · exact hsettled hor g (hbelow g hg)
        · exact settled_of_path htree hor (hbelow g hg)) hresult
      exact ⟨hbelow r hmem, hwhy⟩
    | stop => cases hresult
    | pass hunsettled hdelay hobserved =>
      obtain ⟨hmem, hwhy⟩ := ih (fun hfalse => by cases hfalse) hresult
      exact ⟨hbelow r hmem, hwhy⟩
    | final hquorum hfree =>
      rw [← Option.some.inj hresult]
      refine ⟨List.mem_cons_self,
        .inl (finalizes_iff.mpr ⟨htree.nHeight_pos hprev, hquorum, ?_⟩)⟩
      rcases hfree with hpast | hnow | hfree
      · exact .inl (hsettled hpast h List.mem_cons_self)
      · exact .inl hnow
      · exact .inr hfree

/-- A block at or below the final one that carries a quorum, or is the final one, is final after
a walk down from above it on the same branch. -/
theorem exists_walk_above (htree : IsTree facts) (hfloor : s.FloorAgrees facts)
    (hfinal : s.final = some f) (hbranch : f ∈ path facts h ∨ h ∈ path facts f)
    (hr : r ∈ path facts h) (hrf : r ∈ path facts f)
    (hquorum : s.posCarriesQuorum r = true ∨ r = f) (hheight : 0 < nHeight facts r) :
    ∃ f', (s.walk c facts s.usableFloor (path facts h) isSettled pending).1 = some f' ∧
      r ∈ path facts f' := by
  induction h using htree.induct generalizing isSettled pending with
  | root h hprev =>
    rw [htree.nHeight_eq_zero hprev hr] at hheight
    cases hheight
  | child h q hprev ih =>
    have hpath := htree.path_eq hprev
    -- Unless the walk ends here, it goes on at the parent, and the block is still below.
    have hdown : r ≠ h → ∀ isSettled pending, ∃ f',
        (s.walk c facts s.usableFloor (path facts q) isSettled pending).1 = some f' ∧
          r ∈ path facts f' := by
      intro hne isSettled pending
      rw [hpath] at hr hbranch
      have hrq := (List.mem_cons.mp hr).resolve_left hne
      refine ih ?_ hrq
      rcases hbranch with hbranch | hbranch
      · rcases List.mem_cons.mp hbranch with rfl | hbranch
        · exact .inr (htree.path_subset List.mem_cons_self
            (hpath ▸ List.mem_cons_of_mem f List.mem_cons_self))
        · exact .inl hbranch
      · exact .inr (htree.path_subset hbranch
          (hpath ▸ List.mem_cons_of_mem h List.mem_cons_self))
    have hcase : WalkCase c facts s s.usableFloor h q isSettled pending _ :=
      walk_child htree hprev
    generalize s.walk c facts s.usableFloor (path facts h) isSettled pending = result at hcase ⊢
    cases hcase with
    | floor reached hreached hhash =>
      obtain ⟨heq, -⟩ := agrees_of_usable hfloor hreached
      exact ⟨f, heq.trans hfinal, hrf⟩
    | skip hnone hnot =>
      refine hdown (fun heq => ?_) _ _
      rcases hquorum with hquorum | hquorum
      · rw [heq, hnone] at hquorum
        cases hquorum
      · exact hnot (hfinal.trans (congrArg some (hquorum.symm.trans heq)))
    | stop hq hdelay hwindow hloaded hnone =>
      rw [hfinal] at hnone
      cases hnone
    | pass hunsettled hdelay hobserved =>
      refine hdown (fun heq => ?_) _ _
      rw [settled, hfinal] at hunsettled
      exact of_decide_eq_false hunsettled (heq ▸ hrf)
    | final hq hfree => exact ⟨h, rfl, hr⟩

end Walk

theorem floorAgrees_recompute (htree : IsTree facts) (hfloor : s.FloorAgrees facts) :
    (s.recomputePosImmediateFinality c facts).FloorAgrees facts := by
  have hrests : Rests c facts s fun r h => ∀ f, r = some f → f ∈ path facts h :=
    { root := nofun
      floor := fun reached hreached => (agrees_of_usable hfloor hreached).2
      skip := fun r h q hprev _ hmem f hf => htree.mem_path_of_parent hprev (hmem f hf)
      stop := nofun
      final := fun h _ f hf => Option.some.inj hf ▸ List.mem_cons_self }
  obtain ⟨h, -, hmem, heq⟩ := exists_floor htree hrests
  intro floor hf
  cases heq.symm.trans hf
  exact ⟨rfl, hmem⟩

/-- The final block of a state is above the first block and carries a quorum. -/
def FinalCarries (facts : Uint256 → ForkFacts) (s : FinalityState) : Prop :=
  ∀ f, s.final = some f → 0 < nHeight facts f ∧ s.posCarriesQuorum f = true

theorem recompute_spec (htree : IsTree facts) (hfloor : s.FloorAgrees facts)
    (hcarries : s.FinalCarries facts) {r : Uint256}
    (hfinal : (s.recomputePosImmediateFinality c facts).final = some r) :
    r ∈ path facts s.tip ∧ (0 < nHeight facts r ∧ s.posCarriesQuorum r = true) ∧
      (s.finalizes c facts r = true ∨ s.final = some r) := by
  obtain ⟨hmem, hwhy⟩ := walk_mem htree hfloor (fun hfalse => by cases hfalse) hfinal
  refine ⟨hmem, ?_, hwhy⟩
  rcases hwhy with hfinalizes | hold
  · obtain ⟨hheight, hquorum | hold, -⟩ := finalizes_iff.mp hfinalizes
    · exact ⟨hheight, hquorum⟩
    · exact hcarries r hold
  · exact hcarries r hold

end FinalityState

namespace GateNode

open FinalityState (FloorAgrees FinalCarries)

variable {p : CertParams} {c : FinalityParams} {facts : Uint256 → ForkFacts} {n n' : GateNode}
  {e : GateEvent}

/-- What holds along a history that meets the condition. -/
structure Inv (facts : Uint256 → ForkFacts) (n : GateNode) : Prop where
  floor : n.finality.FloorAgrees facts
  carries : n.finality.FinalCarries facts
  final : ∀ f, n.finality.final = some f → f ∈ path facts n.finality.tip
  unmarked : ∀ x ∈ path facts n.finality.tip, n.marked x = false
  /-- What is being activated is above the final block. -/
  target : ∀ candidate, n.target = some (candidate, false) →
    ∀ f, n.finality.final = some f → f ∈ path facts candidate

theorem Inv.floorAgrees (hinv : n.Inv facts) {s : FinalityState}
    (hfloor : s.floor = n.finality.floor) (hfinal : s.final = n.finality.final) :
    s.FloorAgrees facts := by
  unfold FloorAgrees
  rw [hfloor, hfinal]
  exact hinv.floor

theorem Inv.pass (htree : IsTree facts) (hinv : n.Inv facts) (s : FinalityState)
    (hfloor : s.floor = n.finality.floor) (hfinal : s.final = n.finality.final)
    (hcarries : ∀ f, n.finality.final = some f → s.posCarriesQuorum f = true)
    {marked : Uint256 → Bool} (hunmarked : ∀ x ∈ path facts s.tip, marked x = false)
    (htarget : ∀ candidate, n.target = some (candidate, false) →
      ∀ f, f ∈ path facts s.tip → s.finalizes c facts f = true → f ∈ path facts candidate) :
    { n.pass c facts s with marked := marked }.Inv facts := by
  have hagrees := hinv.floorAgrees hfloor hfinal
  have hquorum : s.FinalCarries facts := by
    intro f hf
    rw [hfinal] at hf
    exact ⟨(hinv.carries f hf).1, hcarries f hf⟩
  have hspec := fun r => FinalityState.recompute_spec (c := c) (r := r) htree hagrees hquorum
  refine ⟨FinalityState.floorAgrees_recompute htree hagrees, fun r hr => (hspec r hr).2.1,
    fun r hr => (hspec r hr).1, hunmarked, fun candidate hcandidate r hr => ?_⟩
  obtain ⟨hmem, -, hfinalizes | hold⟩ := hspec r hr
  · exact htarget candidate hcandidate r hmem hfinalizes
  · exact hinv.target candidate hcandidate r (hfinal ▸ hold)

/-- An event that meets the condition keeps the invariant, on a node that imposes finality. -/
theorem Inv.step (htree : IsTree facts) (hpos : p.conPos = true)
    (hwatch : p.conBitcoinAnchor = true → p.validateAnchor = true) (hinv : n.Inv facts)
    (hstep : Step p c facts e n n') (hmeets : Meets c facts e n n') : n'.Inv facts := by
  cases hstep with
  | between hidle hbetween =>
    have hcarries : ∀ f, n.finality.final = some f →
        0 < nHeight facts f ∧ _ := fun f hf =>
      ⟨(hinv.carries f hf).1, hmeets f (hinv.final f hf) (hinv.carries f hf).2⟩
    cases hbetween <;> exact { hinv with carries := hcarries }
  | tick elapsed => exact { hinv with }
  | refresh hidle =>
    refine hinv.pass htree n.finality rfl rfl (fun f hf => (hinv.carries f hf).2) hinv.unmarked ?_
    intro candidate hcandidate
    rw [hidle] at hcandidate
    cases hcandidate
  | choose candidate hidle hoff hallowed =>
    refine { hinv with target := fun m hm f hf => ?_ }
    obtain ⟨rfl, hfree⟩ := Prod.mk.inj (Option.some.inj hm)
    -- The gate does not refuse it, so it descends from the final block.
    have hgate : (!p.conPos || p.conBitcoinAnchor && !p.validateAnchor) = false := by
      rw [hpos]
      cases hanchor : p.conBitcoinAnchor with
      | false => rfl
      | true => rw [hwatch hanchor]; rfl
    have hoff' : isOnChain facts (some n.finality.tip) candidate = false := decide_eq_false hoff
    unfold refuses posFinalityGateRefuses at hfree
    rw [hgate, hf] at hfree
    simp only [Bool.false_eq_true, if_false, hoff', Bool.false_or,
      hinv.unmarked f (hinv.final f hf)] at hfree
    by_contra hnot
    rw [if_neg] at hfree
    · cases hfree
    · intro hmem
      exact hnot (List.mem_cons_of_mem candidate (of_decide_eq_true hmem))
  | @disconnectTip _ m q _ htarget habove hprev =>
    refine hinv.pass htree { n.finality with tip := q } rfl rfl (fun f hf => (hinv.carries f hf).2) ?_ ?_
    · exact fun x hx => hinv.unmarked x (htree.mem_path_of_parent hprev hx)
    · intro m hm f hf hfinalizes
      by_contra hnot
      have hfresh := hmeets m hm f hf hnot
      exact Bool.false_ne_true (hfresh.symm.trans hfinalizes)
  | @connectTip _ m h _ answer noted htarget hpath hunmarked hprev =>
    refine hinv.pass htree (n.finality.connectBlock c h answer noted) rfl rfl ?_ ?_ ?_
    · intro f hf
      refine (Function.update_of_ne ?_ _ _).trans (hinv.carries f hf).2
      rintro rfl
      exact htree.not_mem_path_parent hprev (hinv.final f hf)
    · intro x hx
      change x ∈ path facts h at hx
      rw [htree.path_eq hprev] at hx
      rcases List.mem_cons.mp hx with rfl | hx
      · exact hunmarked
      · exact hinv.unmarked x hx
    · intro m hm f hf _
      rw [htarget] at hm
      obtain ⟨rfl, -⟩ := Prod.mk.inj (Option.some.inj hm)
      exact htree.path_subset hpath hf
  | finish => exact { hinv with target := nofun }
  | fail hs hoff =>
    refine { hinv with unmarked := fun x hx => ?_ }
    change (n.marked x || decide (x ∈ hs)) = false
    rw [hinv.unmarked x hx, decide_eq_false fun hin => hoff x hin hx, Bool.or_false]
  | @invalidate _ q h hidle hon hprev =>
    refine hinv.pass htree { n.finality with tip := q } rfl rfl (fun f hf => (hinv.carries f hf).2) ?_ ?_
    · intro x hx
      have hne : x ≠ n.finality.tip := by
        rintro rfl
        exact htree.not_mem_path_parent hprev hx
      rw [decide_eq_false hne, Bool.or_false]
      exact hinv.unmarked x (htree.mem_path_of_parent hprev hx)
    · intro m hm
      rw [hidle] at hm
      cases hm
  | reconsider hs =>
    refine { hinv with unmarked := fun x hx => ?_ }
    change (n.marked x && _) = false
    rw [hinv.unmarked x hx, Bool.false_and]
  | release | revoke => exact { hinv with }

theorem inv_of_reachable (htree : IsTree facts) (hpos : p.conPos = true)
    (hwatch : p.conBitcoinAnchor = true → p.validateAnchor = true)
    (hreach : Reachable p c facts true n) : n.Inv facts := by
  induction hreach with
  | start tip answers judged now =>
    exact ⟨nofun, nofun, nofun, fun x _ => rfl, nofun⟩
  | step _ hstep hmeets ih => exact ih.step htree hpos hwatch hstep (hmeets rfl)

/-- A block is at or below the final one, and still carries a quorum; no release is in use. -/
structure Kept (facts : Uint256 → ForkFacts) (block : Uint256) (n : GateNode) : Prop where
  below : ∃ f, n.finality.final = some f ∧ block ∈ path facts f
  carries : n.finality.posCarriesQuorum block = true
  release : n.release = none
  /-- No candidate was let through by a release. -/
  target : ∀ candidate, n.target ≠ some (candidate, true)

theorem Kept.pass (htree : IsTree facts) {block f : Uint256} (hinv : n.Inv facts)
    (hheight : 0 < nHeight facts block) (hkept : n.Kept facts block) (s : FinalityState)
    (hfloor : s.floor = n.finality.floor) (hfinal : s.final = n.finality.final)
    (hold : n.finality.final = some f) (hbelow : block ∈ path facts f)
    (hcarries : s.posCarriesQuorum block = true)
    (hbranch : f ∈ path facts s.tip ∨ s.tip ∈ path facts f) (hblock : block ∈ path facts s.tip)
    (marked : Uint256 → Bool) : { n.pass c facts s with marked := marked }.Kept facts block := by
  refine ⟨?_, hcarries, hkept.release, hkept.target⟩
  exact FinalityState.exists_walk_above htree (hinv.floorAgrees hfloor hfinal)
    (hfinal.trans hold) hbranch hblock hbelow (.inl hcarries) hheight

theorem Kept.step (htree : IsTree facts) {block : Uint256} (hinv : n.Inv facts)
    (hheight : 0 < nHeight facts block) (hkept : n.Kept facts block)
    (hstep : Step p c facts e n n') (hmeets : Meets c facts e n n')
    (hspares : Spares facts block e) : n'.Kept facts block := by
  obtain ⟨f, hf, hbelow⟩ := hkept.below
  have hftip := hinv.final f hf
  have hblock : block ∈ path facts n.finality.tip := htree.path_subset hftip hbelow
  cases hstep with
  | between hidle hbetween =>
    refine ⟨⟨f, ?_, hbelow⟩, hmeets block hblock hkept.carries, hkept.release, hkept.target⟩
    cases hbetween <;> exact hf
  | tick elapsed => exact { hkept with }
  | refresh hidle =>
    exact hkept.pass htree hinv hheight n.finality rfl rfl hf hbelow hkept.carries (.inl hftip)
      hblock n.marked
  | choose candidate hidle hoff hallowed =>
    refine { hkept with target := fun m hm => ?_ }
    obtain ⟨-, hreleased⟩ := Prod.mk.inj (Option.some.inj hm)
    rw [hkept.release, hreleased] at hallowed
    cases hallowed
  | @disconnectTip _ m q released htarget habove hprev =>
    have hpath := htree.path_eq hprev
    -- The final block is below the fork, so it is not the tip.
    have hfq : f ∈ path facts q := by
      cases released with
      | true => exact (hkept.target m htarget).elim
      | false =>
        rw [hpath] at hftip
        refine (List.mem_cons.mp hftip).resolve_left ?_
        rintro rfl
        exact habove (hinv.target m htarget _ hf)
    exact hkept.pass htree hinv hheight { n.finality with tip := q } rfl rfl hf hbelow
      hkept.carries (.inl hfq) (htree.path_subset hfq hbelow) n.marked
  | @connectTip _ m h _ answer noted htarget hpath hunmarked hprev =>
    have habove : ∀ x ∈ path facts n.finality.tip, x ∈ path facts h := fun x =>
      htree.mem_path_of_parent hprev
    refine hkept.pass htree hinv hheight (n.finality.connectBlock c h answer noted) rfl rfl hf
      hbelow ?_ (.inl (habove f hftip)) (habove block hblock) n.marked
    refine (Function.update_of_ne ?_ _ _).trans hkept.carries
    rintro rfl
    exact htree.not_mem_path_parent hprev hblock
  | finish => exact { hkept with target := nofun }
  | fail hs hoff => exact { hkept with }
  | @invalidate _ q h hidle hon hprev =>
    have hpath := htree.path_eq hprev
    have hblockq : block ∈ path facts q := by
      rw [hpath] at hblock
      refine (List.mem_cons.mp hblock).resolve_left ?_
      rintro rfl
      exact hspares hon
    -- The final block may be the tip; what is below it is settled.
    have hbranch : f ∈ path facts q ∨ q ∈ path facts f := by
      rw [hpath] at hftip
      rcases List.mem_cons.mp hftip with rfl | hfq
      · rw [hpath]
        exact .inr (List.mem_cons_of_mem _ List.mem_cons_self)
      · exact .inl hfq
    exact hkept.pass htree hinv hheight { n.finality with tip := q } rfl rfl hf hbelow
      hkept.carries hbranch hblockq _
  | reconsider hs => exact { hkept with }
  | release rival => exact hspares.elim
  | revoke => exact { hkept with release := rfl }

end GateNode

open GateNode

/-- On a node that imposes finality, along every history that meets the condition: activation does
not disconnect a block that is final, and a final block stays on the active chain until it or an
ancestor is invalidated or finality is released. -/
theorem final_block_stays {p : CertParams} {c : FinalityParams} {facts : Uint256 → ForkFacts}
    (htree : IsTree facts) (hpos : p.conPos = true)
    (hwatch : p.conBitcoinAnchor = true → p.validateAnchor = true) {n : GateNode}
    (hreach : GateNode.Reachable p c facts true n) :
    (∀ n' candidate, GateNode.Step p c facts .disconnectTip n n' →
      n.target = some (candidate, false) → n.finality.final ≠ some n.finality.tip) ∧
    ∀ final n', n.finality.final = some final → n.release = none →
      (∀ candidate, n.target ≠ some (candidate, true)) → Sparing p c facts final n n' →
      final ∈ path facts n'.finality.tip := by
  have hinv := GateNode.inv_of_reachable htree hpos hwatch hreach
  refine ⟨?_, ?_⟩
  · intro n' candidate hstep htarget hfinal
    cases hstep with
    | disconnectTip htarget' habove hprev =>
      rw [htarget] at htarget'
      obtain ⟨rfl, -⟩ := Prod.mk.inj (Option.some.inj htarget')
      exact habove (hinv.target candidate htarget _ hfinal)
  · intro final n' hfinal hrelease htarget hsparing
    have hheight := (hinv.carries final hfinal).1
    have hrun : n'.Inv facts ∧ n'.Kept facts final := by
      induction hsparing with
      | refl =>
        exact ⟨hinv, ⟨final, hfinal, List.mem_cons_self⟩, (hinv.carries final hfinal).2, hrelease,
          htarget⟩
      | tail _ hstep ih =>
        obtain ⟨e, hstep, hmeets, hspares⟩ := hstep
        exact ⟨ih.1.step htree hpos hwatch hstep hmeets,
          ih.2.step htree ih.1 hheight hstep hmeets hspares⟩
    obtain ⟨f, hf, hbelow⟩ := hrun.2.below
    exact htree.path_subset (hrun.1.final f hf) hbelow

/-- Two blocks on top of the first block of a chain, and a longer branch of three. -/
def reorgFacts (h : Uint256) : ForkFacts where
  nChainWork := 0
  pprev := if h = 1 ∨ h = 3 then some 0 else if h = 2 then some 1 else if h = 4 then some 3
    else if h = 5 then some 4 else none
  ancestors := if h = 1 ∨ h = 3 then [0] else if h = 2 then [1, 0] else if h = 4 then [3, 0]
    else if h = 5 then [4, 3, 0] else []
  challengeParses := true
  escapingStallAllowed := false
  quorum := 2
  vrfScore := none

theorem reorgFacts_isTree : IsTree reorgFacts := by
  intro h
  by_cases hh : h = 1 ∨ h = 3 ∨ h = 2 ∨ h = 4 ∨ h = 5
  · rcases hh with rfl | rfl | rfl | rfl | rfl <;> decide +kernel
  · simp only [not_or] at hh
    simp only [reorgFacts, hh, or_self, if_false]

/-- A node that imposes finality. -/
def reorgParams : CertParams := ⟨true, true, true, true, true, 5, true⟩

/-- The node at the first block. -/
def reorgStart : GateNode :=
  ⟨FinalityState.start 0 (fun _ => false) (fun _ => false) 0, fun _ => false, none, none⟩

/-- Both blocks are connected, the first with a quorum; then nine seconds pass. -/
def reorgActive : GateNode :=
  let n := { reorgStart with target := some (2, false) }
  let n := n.pass loadedParams reorgFacts (n.finality.connectBlock loadedParams 1 true true)
  let n := n.pass loadedParams reorgFacts (n.finality.connectBlock loadedParams 2 false true)
  { n with target := none, finality := { n.finality with now := n.finality.now + (9000 : ℕ) } }

theorem reachable_reorgActive (conditioned : Bool) :
    GateNode.Reachable reorgParams loadedParams reorgFacts conditioned reorgActive := by
  have hstart : GateNode.Reachable reorgParams loadedParams reorgFacts conditioned reorgStart :=
    .start 0 _ _ 0
  have hchoose := hstart.step (.choose 2 rfl (by decide +kernel) (by decide +kernel))
    fun _ => trivial
  have hone := hchoose.step (.connectTip (h := 1) true true rfl (by decide +kernel) rfl
    (by decide +kernel)) fun _ => trivial
  have htwo := hone.step (.connectTip (h := 2) false true rfl (by decide +kernel) rfl
    (by decide +kernel)) fun _ => trivial
  exact (htwo.step .finish fun _ => trivial).step (.tick 9000) fun _ _ _ hquorum => hquorum

/-- The longer branch is chosen, and the tip is disconnected. -/
def reorgMiddle : GateNode :=
  { reorgActive with target := some (5, false) }.pass loadedParams reorgFacts
    { reorgActive.finality with tip := 1 }

theorem reachable_reorgMiddle :
    GateNode.Reachable reorgParams loadedParams reorgFacts false reorgMiddle :=
  ((reachable_reorgActive false).step (.choose 5 rfl (by decide +kernel) (by decide +kernel))
    fun _ => trivial).step (.disconnectTip (q := 1) rfl (by decide +kernel) (by decide +kernel))
    fun hfalse => by cases hfalse

/-- In the middle of the reorganisation the first block becomes final, and is disconnected. -/
theorem reorg_disconnects_final :
    ¬∀ (p : CertParams) (c : FinalityParams) (facts : Uint256 → ForkFacts) (n n' : GateNode)
      (candidate : Uint256), IsTree facts → p.conPos = true →
      (p.conBitcoinAnchor = true → p.validateAnchor = true) →
      GateNode.Reachable p c facts false n → GateNode.Step p c facts .disconnectTip n n' →
      n.target = some (candidate, false) → n.finality.final ≠ some n.finality.tip := by
  intro hclaim
  refine hclaim reorgParams loadedParams reorgFacts reorgMiddle _ 5 reorgFacts_isTree rfl
    (fun _ => rfl) reachable_reorgMiddle
    (.disconnectTip (q := 0) rfl (by decide +kernel) (by decide +kernel)) rfl ?_
  decide +kernel

/-- With a pass before the longer branch is chosen, the first block is final and stays. -/
theorem final_block_stays_refreshed : (1 : Uint256) ∈ path reorgFacts
      (reorgActive.pass loadedParams reorgFacts reorgActive.finality).finality.tip :=
  (final_block_stays (p := reorgParams) reorgFacts_isTree rfl (fun _ => rfl)
    ((reachable_reorgActive true).step (.refresh rfl) fun _ => trivial)).2 1 _
    (by decide +kernel) rfl (fun _ hsome => by cases hsome) .refl

end Sequentia
