import Mathlib.Logic.Function.Basic
import Sequentia.Chain.Finality

/-!
# The floor of finality

A floor is laid at a block below which nothing but the final block and its ancestors carries a
quorum. As long as every pass lays such a floor, a pass that stops at it finds what a walk over
the whole active chain would find. A pass that stops at a block loaded from disk, with no final
block restored, has not looked at what is below that block.
-/

namespace Sequentia

namespace FinalityState

variable (p : FinalityParams) (facts : Uint256 → ForkFacts)

/-- What may happen between passes. -/
inductive Between : FinalityState → FinalityState → Prop
  /-- `PosSetCertified`: the answer for a block changes. -/
  | certify {s : FinalityState} (h : Uint256) (answer : Bool) :
      Between s { s with
        posCarriesQuorum := Function.update s.posCarriesQuorum h answer
        posCertEpoch := if answer ≠ s.posCarriesQuorum h ∧ h ∈ path facts s.tip then
          s.posCertEpoch + 1 else s.posCertEpoch }
  | tick {s : FinalityState} (elapsed : ℕ) : Between s { s with now := s.now + elapsed }
  | compete {s : FinalityState} (certs : List (ℕ × Uint256 × ℤ)) :
      Between s { s with competingCerts := certs }
  /-- Blocks arrive, or fail. -/
  | judge {s : FinalityState} (judged : Uint256 → Bool) : Between s { s with judged := judged }

/-- A block is judged and connected; outside of the initial download, the window of a quorum block
opens: `PosNoteActiveQuorumBlock`. -/
def connectBlock (s : FinalityState) (h : Uint256) (answer noted : Bool) : FinalityState :=
  { s with
    posCarriesQuorum := Function.update s.posCarriesQuorum h answer
    tip := h
    quorumFirstActive :=
      if noted && answer && decide (0 < p.posFinalityDelayMs) &&
          (s.quorumFirstActive h).isNone then
        Function.update s.quorumFirstActive h (some s.now)
      else s.quorumFirstActive }

/-- What a pass follows. -/
inductive Before : FinalityState → FinalityState → Prop
  | connect {s : FinalityState} (h : Uint256) (answer noted : Bool)
      (hparent : (facts h).pprev = some s.tip) : Before s (s.connectBlock p h answer noted)
  | disconnect {s : FinalityState} {q : Uint256} (hparent : (facts s.tip).pprev = some q) :
      Before s { s with tip := q }
  /-- `PosRefreshImmediateFinality`. -/
  | refresh {s : FinalityState} : Before s s
  /-- `PosRestoreImmediateFinality`, when a node starts again. -/
  | restore {s : FinalityState} (tip : Uint256) (answers judged : Uint256 → Bool)
      (restored : Option Uint256) (now : ℤ) :
      Before s
        ⟨tip, answers, s.posCertEpoch + 1, restored, none, fun _ => none, now, now, [], judged⟩

/-- A node without a final block. -/
def start (tip : Uint256) (answers judged : Uint256 → Bool) (now : ℕ) : FinalityState :=
  ⟨tip, answers, 0, none, none, fun _ => none, 0, now, [], judged⟩

/-- The states that a history leads to, with a condition on the states that passes start from. -/
inductive Reachable (condition : FinalityState → Prop) : FinalityState → Prop
  | start (tip : Uint256) (answers judged : Uint256 → Bool) (now : ℕ) :
      Reachable condition (start tip answers judged now)
  | between {s s' : FinalityState} : Reachable condition s → Between facts s s' →
      Reachable condition s'
  | pass {s s' : FinalityState} : Reachable condition s → Before p facts s s' → condition s' →
      Reachable condition (s'.recomputePosImmediateFinality p facts)

/-- While blocks loaded from disk are observed and no block is final, a quorum block that was
loaded is the lowest quorum block of the active chain. -/
def LoadedLowest (s : FinalityState) : Prop :=
  s.loadWindowOpen p = true → s.final = none →
    ∀ f ∈ path facts s.tip, s.posCarriesQuorum f = true → s.quorumFirstActive f = none →
      ∀ g ∈ (facts f).ancestors, 0 < nHeight facts g → s.posCarriesQuorum g = false

variable {p facts} {s s' : FinalityState}

/-- From a block downward, nothing carries a quorum but the final block and its ancestors. -/
structure Laid (facts : Uint256 → ForkFacts) (s : FinalityState) (final : Option Uint256)
    (h : Uint256) : Prop where
  mem : ∀ f, final = some f → f ∈ path facts h ∧ 0 < nHeight facts f
  below : ∀ g ∈ path facts h, 0 < nHeight facts g → s.posCarriesQuorum g = true →
    ∃ f, final = some f ∧ g ∈ path facts f

/-- What holds in states that passes start from. -/
structure FloorInv (facts : Uint256 → ForkFacts) (s : FinalityState) : Prop where
  /-- The node was loaded in the past. -/
  loaded : s.posLoadMs ≤ s.now
  /-- Windows opened since. -/
  entries : ∀ h since, s.quorumFirstActive h = some since → s.posLoadMs ≤ since
  epoch : ∀ floor, s.floor = some floor → floor.epoch ≤ s.posCertEpoch
  /-- Nothing has changed at and below a floor of this epoch. -/
  floor : ∀ floor, s.floor = some floor → floor.epoch = s.posCertEpoch →
    floor.final = s.final ∧ Laid facts s floor.final floor.hash

/-- On a path, the block that is first among those that pass a test. -/
theorem find?_path (htree : IsTree facts) {test : Uint256 → Bool} {h f : Uint256}
    (hmem : f ∈ path facts h) (htest : test f = true)
    (hbelow : ∀ g ∈ path facts h, test g = true → g ∈ path facts f) :
    (path facts h).find? test = some f := by
  induction h using htree.induct with
  | root h hprev =>
    rw [path, htree.ancestors_eq_nil hprev, List.mem_singleton] at hmem
    rw [path, ← hmem, List.find?_cons_of_pos htest]
  | child h q hprev ih =>
    rcases List.mem_cons.mp hmem with rfl | hmem
    · rw [path, List.find?_cons_of_pos htest]
    · have hnot : ¬test h = true := by
        intro hh
        have hle := Forest.height_le (F := htree.forest) (hbelow h List.mem_cons_self hh)
        change nHeight facts _ ≤ nHeight facts _ at hle
        have hlt := htree.nHeight_lt hmem
        omega
      rw [htree.ancestors_eq hprev] at hmem
      rw [path, List.find?_cons_of_neg hnot, htree.ancestors_eq hprev]
      exact ih hmem fun g hg hgtest => hbelow g (htree.mem_path_of_parent hprev hg) hgtest

theorem finalizes_iff {f : Uint256} :
    s.finalizes p facts f = true ↔ 0 < nHeight facts f ∧
      (s.posCarriesQuorum f = true ∨ s.final = some f) ∧
      (s.settled facts f = true ∨ ¬(0 < p.posFinalityDelayMs ∧
        (s.inWindow p f = true ∨ s.contested p facts f = true))) := by
  simp only [finalizes, Bool.and_eq_true, Bool.or_eq_true, decide_eq_true_eq, beq_iff_eq,
    Bool.not_eq_true', Bool.and_eq_false_iff, Bool.or_eq_false_iff, decide_eq_false_iff_not]
  by_cases hdelay : 0 < p.posFinalityDelayMs <;> simp [hdelay, and_assoc]

/-- At a floor, the walk knows what is below. -/
theorem find?_of_laid (htree : IsTree facts) {h : Uint256} (hlaid : Laid facts s s.final h) :
    (path facts h).find? (s.finalizes p facts) = s.final := by
  cases hfinal : s.final with
  | none =>
    refine List.find?_eq_none.mpr fun g hg hfinalizes => ?_
    obtain ⟨hheight, hquorum | hgfinal, -⟩ := finalizes_iff.mp hfinalizes
    · obtain ⟨f, hf, -⟩ := hlaid.below g hg hheight hquorum
      rw [hfinal] at hf
      cases hf
    · rw [hfinal] at hgfinal
      cases hgfinal
  | some f =>
    obtain ⟨hmem, hheight⟩ := hlaid.mem f hfinal
    have hsettled : s.settled facts f = true := by
      rw [settled, hfinal]
      exact decide_eq_true List.mem_cons_self
    refine find?_path htree hmem (finalizes_iff.mpr ⟨hheight, .inr hfinal, .inl hsettled⟩) ?_
    intro g hg hfinalizes
    obtain ⟨hheight', hquorum | hgfinal, -⟩ := finalizes_iff.mp hfinalizes
    · obtain ⟨f', hf', hgf⟩ := hlaid.below g hg hheight' hquorum
      rw [hfinal] at hf'
      exact Option.some.inj hf' ▸ hgf
    · rw [hfinal] at hgfinal
      rw [Option.some.inj hgfinal]
      exact List.mem_cons_self

section Walk

variable {floor : Option FinalFloor} {h q : Uint256} {isSettled : Bool}
  {pending : Option Uint256}

theorem walk_root (htree : IsTree facts) (hprev : (facts h).pprev = none) :
    s.walk p facts floor (path facts h) isSettled pending = (none, pending) := by
  rw [path, walk, if_pos (htree.nHeight_eq_zero hprev List.mem_cons_self)]

/-- What the walk may do at a block that has a parent. -/
inductive WalkCase (p : FinalityParams) (facts : Uint256 → ForkFacts) (s : FinalityState)
    (floor : Option FinalFloor) (h q : Uint256) (isSettled : Bool) (pending : Option Uint256) :
    Option Uint256 × Option Uint256 → Prop
  | floor (reached : FinalFloor) (hfloor : floor = some reached) (hhash : reached.hash = h) :
      WalkCase p facts s floor h q isSettled pending (reached.final, pending)
  | skip (hquorum : s.posCarriesQuorum h = false) (hfinal : s.final ≠ some h) :
      WalkCase p facts s floor h q isSettled pending
        (s.walk p facts floor (path facts q) (isSettled || s.settled facts h) pending)
  | stop (hquorum : s.posCarriesQuorum h = true) (hdelay : 0 < p.posFinalityDelayMs)
      (hwindow : s.inWindow p h = true) (hloaded : s.quorumFirstActive h = none)
      (hfinal : s.final = none) :
      WalkCase p facts s floor h q isSettled pending (none, some h)
  /-- The block is observed or contested. -/
  | pass (hsettled : s.settled facts h = false) (hdelay : 0 < p.posFinalityDelayMs)
      (hobserved : s.inWindow p h = true ∨ s.contested p facts h = true) :
      WalkCase p facts s floor h q isSettled pending
        (s.walk p facts floor (path facts q) false (some h))
  | final (hquorum : s.posCarriesQuorum h = true ∨ s.final = some h)
      (hsettled : isSettled = true ∨ s.settled facts h = true ∨
        ¬(0 < p.posFinalityDelayMs ∧ (s.inWindow p h = true ∨ s.contested p facts h = true))) :
      WalkCase p facts s floor h q isSettled pending (some h, pending)

theorem walk_child (htree : IsTree facts) (hprev : (facts h).pprev = some q) :
    WalkCase p facts s floor h q isSettled pending
      (s.walk p facts floor (path facts h) isSettled pending) := by
  rw [path, walk, if_neg (htree.nHeight_pos hprev).ne', htree.ancestors_eq hprev]
  split
  · next reached hreached =>
    obtain ⟨hfloor, hhash⟩ := Option.filter_eq_some_iff.mp hreached
    exact .floor reached hfloor (beq_iff_eq.mp hhash)
  · dsimp only
    split
    · next hskip =>
      simp only [Bool.and_eq_true, Bool.not_eq_true', bne_iff_ne] at hskip
      exact .skip hskip.1 hskip.2
    · next hcarries =>
      have hquorum : s.posCarriesQuorum h = true ∨ s.final = some h := by
        by_contra hnot
        rw [not_or] at hnot
        refine hcarries ?_
        rw [Bool.eq_false_iff.mpr hnot.1]
        simpa using hnot.2
      split
      · next hobserved =>
        simp only [Bool.and_eq_true, Bool.not_eq_true', Bool.or_eq_false_iff, decide_eq_true_eq,
          Bool.or_eq_true] at hobserved
        obtain ⟨⟨⟨hunsettled, hsettled⟩, hdelay⟩, hobserved⟩ := hobserved
        split
        · next hstop =>
          simp only [Bool.and_eq_true, Option.isNone_iff_eq_none] at hstop
          refine .stop (hquorum.resolve_right ?_) hdelay hstop.1.1 hstop.1.2 hstop.2
          rw [hstop.2]
          exact Option.some_ne_none h |>.symm
        · rw [hunsettled, hsettled]
          exact .pass hsettled hdelay hobserved
      · next hfree =>
        refine .final hquorum ?_
        by_contra hnot
        simp only [not_or, not_not] at hnot
        refine hfree ?_
        rw [Bool.eq_false_iff.mpr hnot.1, Bool.eq_false_iff.mpr hnot.2.1,
          decide_eq_true hnot.2.2.1]
        simpa using hnot.2.2.2

theorem settled_of_path (htree : IsTree facts) {g : Uint256} (hh : s.settled facts h = true)
    (hg : g ∈ path facts h) : s.settled facts g = true := by
  unfold settled at hh ⊢
  cases hf : s.final with
  | none =>
    rw [hf] at hh
    cases hh
  | some f =>
    rw [hf] at hh
    exact decide_eq_true (htree.path_subset (of_decide_eq_true hh) hg)

theorem loadWindowOpen_of_inWindow (hloaded : s.quorumFirstActive h = none)
    (hwindow : s.inWindow p h = true) : s.loadWindowOpen p = true := by
  rwa [inWindow, hloaded] at hwindow

theorem walk_eq_find? (htree : IsTree facts) (hinv : FloorInv facts s)
    (hsettled : isSettled = true → ∀ g ∈ path facts h, s.settled facts g = true) :
    (s.walk p facts s.usableFloor (path facts h) isSettled pending).1 =
      (path facts h).find? (s.finalizes p facts) := by
  induction h using htree.induct generalizing isSettled pending with
  | root h hprev =>
    rw [walk_root htree hprev]
    refine (List.find?_eq_none.mpr fun g hg hfinalizes => ?_).symm
    have hheight := (finalizes_iff.mp hfinalizes).1
    rw [htree.nHeight_eq_zero hprev hg] at hheight
    cases hheight
  | child h q hprev ih =>
    have hpath := htree.path_eq hprev
    have hbelow : ∀ g ∈ path facts q, g ∈ path facts h := fun g => htree.mem_path_of_parent hprev
    have hcase : WalkCase p facts s s.usableFloor h q isSettled pending _ :=
      walk_child htree hprev
    generalize s.walk p facts s.usableFloor (path facts h) isSettled pending = result at hcase ⊢
    cases hcase with
    | floor reached hfloor hhash =>
      obtain ⟨hfloor, hepoch⟩ := Option.filter_eq_some_iff.mp hfloor
      obtain ⟨hfinal, hlaid⟩ := hinv.floor reached hfloor (beq_iff_eq.mp hepoch)
      rw [hfinal, hhash] at hlaid
      rw [find?_of_laid htree hlaid]
      exact hfinal
    | skip hquorum hfinal =>
      rw [hpath, List.find?_cons_of_neg]
      · refine ih fun hor g hg => ?_
        rcases Bool.or_eq_true_iff.mp hor with hor | hor
        · exact hsettled hor g (hbelow g hg)
        · exact settled_of_path htree hor (hbelow g hg)
      · intro hfinalizes
        rw [finalizes_iff, hquorum] at hfinalizes
        exact hfinalizes.2.1.elim Bool.noConfusion hfinal
    | stop hquorum hdelay hwindow hloaded hfinal =>
      symm
      refine List.find?_eq_none.mpr fun g _ hfinalizes => ?_
      -- Blocks that were not loaded have been connected since.
      have hopen : s.inWindow p g = true := by
        have hload := loadWindowOpen_of_inWindow hloaded hwindow
        unfold inWindow
        cases hentry : s.quorumFirstActive g with
        | none => exact hload
        | some since =>
          have hsince := hinv.entries g since hentry
          have hwide := (of_decide_eq_true hload).2
          exact decide_eq_true (by omega)
      rcases (finalizes_iff.mp hfinalizes).2.2 with hsettled' | hfree
      · rw [settled, hfinal] at hsettled'
        cases hsettled'
      · exact hfree ⟨hdelay, .inl hopen⟩
    | pass hunsettled hdelay hobserved =>
      rw [hpath, List.find?_cons_of_neg]
      · exact ih fun hfalse => by cases hfalse
      · intro hfinalizes
        rw [finalizes_iff, hunsettled] at hfinalizes
        exact hfinalizes.2.2.elim Bool.noConfusion fun hfree => hfree ⟨hdelay, hobserved⟩
    | final hquorum hfree =>
      rw [hpath, List.find?_cons_of_pos]
      refine finalizes_iff.mpr ⟨htree.nHeight_pos hprev, hquorum, ?_⟩
      rcases hfree with hpast | hnow | hfree
      · exact .inl (hsettled hpast h List.mem_cons_self)
      · exact .inl hnow
      · exact .inr hfree

/-- What a walk keeps of what it finds and the block at which it leaves off. -/
structure Rests (p : FinalityParams) (facts : Uint256 → ForkFacts) (s : FinalityState)
    (P : Option Uint256 → Uint256 → Prop) : Prop where
  root : ∀ h, (facts h).pprev = none → P none h
  floor : ∀ reached, s.usableFloor = some reached → P reached.final reached.hash
  skip : ∀ r h q, (facts h).pprev = some q → s.posCarriesQuorum h = false → P r q → P r h
  stop : ∀ h q, h ∈ path facts s.tip → (facts h).pprev = some q → s.posCarriesQuorum h = true →
    s.inWindow p h = true → s.quorumFirstActive h = none → s.final = none → P none q
  final : ∀ h, 0 < nHeight facts h → P (some h) h

/-- The walk leaves off at the block it starts from, or below a block that it passes over. -/
theorem walk_rests {P : Option Uint256 → Uint256 → Prop} (htree : IsTree facts)
    (hP : Rests p facts s P) (htip : h ∈ path facts s.tip) (isSettled : Bool)
    (pending : Option Uint256) :
    let result := s.walk p facts s.usableFloor (path facts h) isSettled pending
    result.2 = pending ∧ P result.1 h ∨
      ∃ x q, result.2 = some x ∧ x ∈ path facts h ∧ (facts x).pprev = some q ∧ P result.1 q := by
  dsimp only
  induction h using htree.induct generalizing isSettled pending with
  | root h hprev =>
    rw [walk_root htree hprev]
    exact .inl ⟨rfl, hP.root h hprev⟩
  | child h q hprev ih =>
    have hbelow : ∀ g ∈ path facts q, g ∈ path facts h := fun g => htree.mem_path_of_parent hprev
    have hq : q ∈ path facts s.tip := htree.path_subset htip (hbelow q List.mem_cons_self)
    have hcase : WalkCase p facts s s.usableFloor h q isSettled pending _ :=
      walk_child htree hprev
    generalize s.walk p facts s.usableFloor (path facts h) isSettled pending = result at hcase ⊢
    cases hcase with
    | floor reached hfloor hhash => exact .inl ⟨rfl, hhash ▸ hP.floor reached hfloor⟩
    | skip hquorum hfinal =>
      rcases ih hq (isSettled || s.settled facts h) pending with
        ⟨hpending, hrest⟩ | ⟨x, r, hx, hmem, hrest⟩
      · exact .inl ⟨hpending, hP.skip _ h q hprev hquorum hrest⟩
      · exact .inr ⟨x, r, hx, hbelow x hmem, hrest⟩
    | stop hquorum hdelay hwindow hloaded hfinal =>
      exact .inr ⟨h, q, rfl, List.mem_cons_self, hprev,
        hP.stop h q htip hprev hquorum hwindow hloaded hfinal⟩
    | pass hunsettled hdelay hobserved =>
      rcases ih hq false (some h) with ⟨hpending, hrest⟩ | ⟨x, r, hx, hmem, hrest⟩
      · exact .inr ⟨h, q, hpending, List.mem_cons_self, hprev, hrest⟩
      · exact .inr ⟨x, r, hx, hbelow x hmem, hrest⟩
    | final hquorum hfree => exact .inl ⟨rfl, hP.final h (htree.nHeight_pos hprev)⟩

theorem exists_floor {P : Option Uint256 → Uint256 → Prop} (htree : IsTree facts)
    (hP : Rests p facts s P) : ∃ h ∈ path facts s.tip, P (s.passResult p facts).1 h ∧
      (s.recomputePosImmediateFinality p facts).floor =
        some ⟨h, s.posCertEpoch, (s.passResult p facts).1⟩ := by
  unfold recomputePosImmediateFinality
  dsimp only
  rcases walk_rests htree hP List.mem_cons_self false none with
    ⟨hpending, hrest⟩ | ⟨x, q, hpending, hmem, hprev, hrest⟩ <;>
    change (s.passResult p facts).2 = _ at hpending
  · exact ⟨s.tip, List.mem_cons_self, hrest, by rw [hpending]⟩
  · refine ⟨q, ?_, hrest, by simp only [hpending, hprev]⟩
    exact htree.path_subset hmem (htree.mem_path_of_parent hprev List.mem_cons_self)

/-- Where the walk leaves off, nothing below carries a quorum but what it found. -/
theorem rests_laid (htree : IsTree facts) (hinv : FloorInv facts s)
    (hlowest : s.LoadedLowest p facts) : Rests p facts s (Laid facts s) where
  root h hprev := by
    refine ⟨nofun, fun g hg hheight => ?_⟩
    rw [htree.nHeight_eq_zero hprev hg] at hheight
    cases hheight
  floor reached hreached := by
    obtain ⟨hfloor, hepoch⟩ := Option.filter_eq_some_iff.mp hreached
    exact (hinv.floor reached hfloor (beq_iff_eq.mp hepoch)).2
  skip r h q hprev hquorum hlaid := by
    refine ⟨fun f hf => (hlaid.mem f hf).imp_left (htree.mem_path_of_parent hprev), ?_⟩
    intro g hg hheight hcarries
    rw [htree.path_eq hprev] at hg
    rcases List.mem_cons.mp hg with rfl | hg
    · rw [hquorum] at hcarries
      cases hcarries
    · exact hlaid.below g hg hheight hcarries
  stop h q htip hprev hquorum hwindow hloaded hfinal := by
    refine ⟨nofun, fun g hg hheight hcarries => ?_⟩
    rw [← htree.ancestors_eq hprev] at hg
    rw [hlowest (loadWindowOpen_of_inWindow hloaded hwindow) hfinal h htip hquorum hloaded g hg
      hheight] at hcarries
    cases hcarries
  final h hheight := by
    refine ⟨?_, fun g hg _ _ => ⟨h, rfl, hg⟩⟩
    rintro f ⟨⟩
    exact ⟨List.mem_cons_self, hheight⟩

end Walk

/-- The state is as a pass leaves it: the floor is on the active chain. -/
structure Passed (facts : Uint256 → ForkFacts) (s : FinalityState) : Prop extends
    FloorInv facts s where
  onChain : ∀ floor, s.floor = some floor → floor.epoch = s.posCertEpoch →
    floor.hash ∈ path facts s.tip

theorem passed_recompute (htree : IsTree facts) (hinv : FloorInv facts s)
    (hlowest : s.LoadedLowest p facts) :
    Passed facts (s.recomputePosImmediateFinality p facts) := by
  obtain ⟨h, hmem, hlaid, hfloor⟩ := exists_floor htree (rests_laid htree hinv hlowest)
  refine ⟨⟨hinv.loaded, fun g since hentry => hinv.entries g since ?_, ?_, ?_⟩, ?_⟩
  · unfold recomputePosImmediateFinality at hentry
    dsimp only at hentry
    split at hentry
    · exact hentry
    · exact (Option.ite_none_left_eq_some.mp hentry).2
  all_goals
    rw [hfloor]
    rintro floor ⟨⟩
  exacts [Nat.le_refl _, fun _ => ⟨rfl, hlaid.mem, hlaid.below⟩, fun _ => hmem]

/-- What is laid stays laid while the answers below stay. -/
theorem Laid.congr {final : Option Uint256} {h : Uint256} (hlaid : Laid facts s final h)
    (hsame : ∀ g ∈ path facts h, s'.posCarriesQuorum g = s.posCarriesQuorum g) :
    Laid facts s' final h :=
  ⟨hlaid.mem, fun g hg hheight hquorum => hlaid.below g hg hheight (hsame g hg ▸ hquorum)⟩

theorem FloorInv.floor_congr (hinv : FloorInv facts s)
    (hsame : s'.posCarriesQuorum = s.posCarriesQuorum) : ∀ floor, s.floor = some floor →
      floor.epoch = s.posCertEpoch → floor.final = s.final ∧
        Laid facts s' floor.final floor.hash :=
  fun floor hfloor hepoch => (hinv.floor floor hfloor hepoch).imp_right fun hlaid =>
    hlaid.congr fun g _ => congrFun hsame g

theorem Passed.between (htree : IsTree facts) (hpassed : Passed facts s)
    (hbetween : Between facts s s') : Passed facts s' := by
  cases hbetween with
  | certify h answer =>
    by_cases hchange : answer ≠ s.posCarriesQuorum h ∧ h ∈ path facts s.tip
    · -- The floor is of an older epoch now.
      have hold : ∀ floor, s.floor = some floor → floor.epoch < s.posCertEpoch + 1 :=
        fun floor hfloor => Nat.lt_succ_of_le (hpassed.epoch floor hfloor)
      simp only [if_pos hchange]
      exact ⟨⟨hpassed.loaded, hpassed.entries, fun floor hfloor => (hold floor hfloor).le,
        fun floor hfloor hepoch => absurd hepoch (hold floor hfloor).ne⟩,
        fun floor hfloor hepoch => absurd hepoch (hold floor hfloor).ne⟩
    · simp only [if_neg hchange]
      refine { hpassed with floor := fun floor hfloor hepoch => ?_ }
      obtain ⟨hfinal, hlaid⟩ := hpassed.floor floor hfloor hepoch
      refine ⟨hfinal, hlaid.congr fun g hg => ?_⟩
      by_cases hgh : g = h
      · rw [hgh]
        refine (Function.update_self ..).trans (not_not.mp fun hne => hchange ⟨hne, ?_⟩)
        exact hgh ▸ htree.path_subset (hpassed.onChain floor hfloor hepoch) hg
      · exact Function.update_of_ne hgh _ _
  | tick elapsed =>
    have hloaded := hpassed.loaded
    exact { hpassed with
      loaded := by
        dsimp only
        omega
      floor := hpassed.floor_congr rfl }
  | compete certs => exact { hpassed with floor := hpassed.floor_congr rfl }
  | judge judged => exact { hpassed with floor := hpassed.floor_congr rfl }

/-- What a pass follows keeps what is below the floor. -/
theorem Passed.before (htree : IsTree facts) (hpassed : Passed facts s)
    (hbefore : Before p facts s s') : FloorInv facts s' := by
  cases hbefore with
  | connect h answer noted hparent =>
    refine ⟨hpassed.loaded, fun g since hentry => ?_, hpassed.epoch, fun floor hfloor hepoch => ?_⟩
    · unfold connectBlock at hentry ⊢
      dsimp only at hentry ⊢
      split at hentry
      · by_cases hgh : g = h
        · rw [hgh, Function.update_self] at hentry
          rw [← Option.some.inj hentry]
          exact hpassed.loaded
        · rw [Function.update_of_ne hgh] at hentry
          exact hpassed.entries g since hentry
      · exact hpassed.entries g since hentry
    · obtain ⟨hfinal, hlaid⟩ := hpassed.floor floor hfloor hepoch
      refine ⟨hfinal, hlaid.congr fun g hg => Function.update_of_ne ?_ _ _⟩
      -- The block is above the tip, and the floor is not.
      rintro rfl
      exact htree.not_mem_path_parent hparent
        (htree.path_subset (hpassed.onChain floor hfloor hepoch) hg)
  | disconnect hparent =>
    exact { hpassed.toFloorInv with floor := hpassed.floor_congr rfl }
  | refresh => exact hpassed.toFloorInv
  | restore tip answers judged restored now =>
    exact ⟨Int.le_refl _, nofun, nofun, nofun⟩

theorem passed_of_reachable (htree : IsTree facts)
    (hreach : Reachable p facts (LoadedLowest p facts) s) : Passed facts s := by
  induction hreach with
  | start tip answers judged now =>
    exact ⟨⟨Int.natCast_nonneg now, nofun, nofun, nofun⟩, nofun⟩
  | between _ hbetween ih => exact ih.between htree hbetween
  | pass _ hbefore hlowest ih => exact passed_recompute htree (ih.before htree hbefore) hlowest

end FinalityState

open FinalityState

/-- Along every history whose passes find loaded quorum blocks lowest while they are observed, a
pass with the remembered floor finds what a walk over the whole active chain would find. -/
theorem floor_only_saves_work {p : FinalityParams} {facts : Uint256 → ForkFacts}
    (htree : IsTree facts) {s s' : FinalityState}
    (hreach : Reachable p facts (LoadedLowest p facts) s) (hbefore : Before p facts s s') :
    (s'.recomputePosImmediateFinality p facts).final = s'.wholeWalk p facts :=
  walk_eq_find? htree ((passed_of_reachable htree hreach).before htree hbefore)
    fun hfalse => by cases hfalse

/-- Three blocks on top of the first block of a chain. -/
def loadedFacts (h : Uint256) : ForkFacts where
  nChainWork := 0
  pprev := if h = 3 then some 2 else if h = 2 then some 1 else if h = 1 then some 0 else none
  ancestors := if h = 3 then [2, 1, 0] else if h = 2 then [1, 0] else if h = 1 then [0] else []
  challengeParses := true
  escapingStallAllowed := false
  quorum := 2
  vrfScore := none

theorem loadedFacts_isTree : IsTree loadedFacts := by
  intro h
  unfold loadedFacts
  by_cases h3 : h = 3
  · subst h3
    decide +kernel
  · by_cases h2 : h = 2
    · subst h2
      decide +kernel
    · by_cases h1 : h = 1
      · subst h1
        decide +kernel
      · simp only [h3, h2, h1, if_false]

/-- Windows of 8 seconds, holds of 30. -/
def loadedParams : FinalityParams := ⟨8000, 30000⟩

/-- A node that starts again with two quorum blocks on disk. -/
def loadedState (restored : Option Uint256) : FinalityState :=
  ⟨3, fun h => h = 1 ∨ h = 3, 1, restored, none, fun _ => none, 1000, 1000, [], fun _ => false⟩

theorem before_loadedState (restored : Option Uint256) :
    Before loadedParams loadedFacts (start 0 (fun _ => false) (fun _ => false) 0)
      (loadedState restored) :=
  .restore 3 _ _ restored 1000

/-- Ten seconds after the first pass, with a competing certificate for the upper block. -/
def contestedState (restored : Option Uint256) : FinalityState :=
  { (loadedState restored).recomputePosImmediateFinality loadedParams loadedFacts with
    now := 1000 + (10000 : ℕ)
    competingCerts := [(3, 4, 10000)] }

theorem reachable_contestedState (condition : FinalityState → Prop) (restored : Option Uint256)
    (hcondition : condition (loadedState restored)) :
    Reachable loadedParams loadedFacts condition (contestedState restored) :=
  (((Reachable.start 0 _ _ 0).pass (before_loadedState restored) hcondition).between
    (.tick 10000)).between (.compete [(3, 4, 10000)])

/-- With nothing restored, the pass does not see the quorum block below the contested one. -/
theorem floor_hides_final :
    ¬∀ (p : FinalityParams) (facts : Uint256 → ForkFacts) (s s' : FinalityState), IsTree facts →
      Reachable p facts (fun _ => True) s → Before p facts s s' →
      (s'.recomputePosImmediateFinality p facts).final = s'.wholeWalk p facts := by
  intro hclaim
  have heq := hclaim loadedParams loadedFacts _ _ loadedFacts_isTree
    (reachable_contestedState _ none trivial) .refresh
  revert heq
  decide +kernel

/-- With the lower block restored, the pass finds it. -/
theorem floor_only_saves_work_restored :
    ((contestedState (some 1)).recomputePosImmediateFinality loadedParams loadedFacts).final =
      (contestedState (some 1)).wholeWalk loadedParams loadedFacts :=
  floor_only_saves_work loadedFacts_isTree
    (reachable_contestedState _ _ fun _ hnone => (by cases hnone)) .refresh

end Sequentia
