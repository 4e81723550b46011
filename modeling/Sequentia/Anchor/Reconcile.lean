import Sequentia.Anchor.Selection
import Sequentia.Chain.FinalityGate
import Sequentia.Lib.Runs

/-!
# Finality reconciliation

The monitor in the watcher's thread looks for a rival branch that has left the local final block
behind, and releases local finality for it. It reads its conditions one after the other: the block
index under the main lock, the patience clock, then three answers of the parent daemon. The
release follows under the main lock again, without a second look.
-/

namespace Sequentia.Anchor

/-- The settings of the monitor. -/
structure ReconcileParams where
  finality : FinalityParams
  anchor : AnchorParams
  posReconcileMinDepth : ℕ
  /-- `g_pos_reconcile_patience`, in seconds. -/
  posReconcilePatience : ℤ
  /-- The depth is clamped to at least one. -/
  posReconcileMinDepth_pos : 0 < posReconcileMinDepth

/-- The parent chain: which anchors are on its best chain, and what its daemon answers. -/
structure ParentChain where
  onBest : BlockAnchor → Bool
  answers : DaemonAnswers

/-- Where `MaybeReconcileFinality` is, with the certified block of the rival branch. -/
inductive Monitor where
  /-- Between two ticks. -/
  | idle
  /-- The block index was read. -/
  | found (rival : Uint256)
  /-- The patience has elapsed. -/
  | patient (rival : Uint256)
  | anchored (rival : Uint256)
  /-- The parent's height was read. -/
  | counted (rival : Uint256) (btcHeight : ℤ)
  /-- The anchor is not contested. -/
  | settled (rival : Uint256)

namespace Monitor

def rival? : Monitor → Option Uint256
  | idle => none
  | found r | patient r | anchored r | counted r _ | settled r => some r

/-- The patience clock was read. -/
def timed : Monitor → Bool
  | idle | found _ => false
  | _ => true

/-- The parent was asked about the anchor. -/
def asked : Monitor → Bool
  | idle | found _ | patient _ => false
  | _ => true

end Monitor

/-- The node with its monitor. -/
structure ReconcileNode where
  /-- The active chain and its final point. -/
  finality : FinalityState
  /-- The blocks that are marked as failed. -/
  marked : Uint256 → Bool
  /-- `pindexBestHeader`. -/
  bestHeader : Uint256
  /-- `g_pos_final_advance_steady`. -/
  finalAdvance : ℤ := 0
  /-- The release, with the final height it was granted at. -/
  release : Option (Uint256 × ℤ) := none
  parent : ParentChain
  monitor : Monitor := .idle
  /-- When a quorum-certified block last extended the local chain; for reasoning only. -/
  extended : ℤ

/-- What happens. -/
inductive ReconcileEvent where
  /-- `PosSetCertified`: the answer for a block changes. -/
  | certify (h : Uint256) (answer : Bool)
  /-- Milliseconds pass. -/
  | tick (elapsed : ℕ)
  | compete (certs : List (ℕ × Uint256 × ℤ))
  /-- Blocks arrive. -/
  | judge (judged : Uint256 → Bool)
  | connect (h : Uint256) (answer noted : Bool)
  | disconnect
  /-- `PosRefreshImmediateFinality`. -/
  | refresh
  | mark (h : Uint256)
  | unmark (h : Uint256)
  | header (h : Uint256)
  | parentMoves (parent : ParentChain)
  /-- A block of the released branch fails to connect. -/
  | rivalFails
  | look
  /-- The monitor reads the patience clock. -/
  | clock
  /-- `CheckMainchainAnchor` for the rival's anchor. -/
  | checkAnchor (ok : Bool)
  /-- `GetMainchainBlockCount`. -/
  | count
  /-- `GetMainchainUncontestedHeight`. -/
  | chainTips
  /-- `PosSetReconcileRelease`. -/
  | release

namespace ReconcileNode

variable (p : ReconcileParams) (facts : Uint256 → ForkFacts) (anchorOf : Uint256 → BlockAnchor)
  (n : ReconcileNode)

/-- The steady clock in seconds. -/
def steadyNow : ℤ := n.finality.now / 1000

def finalHeight : ℤ := n.finality.finalHeight facts

/-- `PosStampFinalAdvanceNow`. -/
def stampFinalAdvanceNow : ReconcileNode := { n with finalAdvance := n.steadyNow }

/-- `RecomputePosImmediateFinality`: a rising final point restarts the patience clock. -/
def pass (s : FinalityState) : ReconcileNode :=
  let m := { n with finality := s.recomputePosImmediateFinality p.finality facts }
  if s.finalHeight facts < m.finalHeight facts then m.stampFinalAdvanceNow else m

/-- `UpdateTip`: a release is used up once its block is on the active chain, and withdrawn if the
local branch was finalized further. -/
def updateTip (s : FinalityState) : ReconcileNode :=
  let m := n.pass p facts s
  { m with release := m.release.filter fun (r, finalHeight) =>
      decide (r ∉ path facts m.finality.tip ∧ m.finalHeight facts ≤ finalHeight) }

/-- The certified block of the rival branch, if there is one far enough above the final point. -/
def findRival : Option Uint256 :=
  match n.finality.final with
  | none => none
  | some f =>
    -- The final block is failed or off the chain: the watcher's other sections own this case.
    if n.marked f ∨ f ∉ path facts n.finality.tip then none
    else if nHeight facts n.bestHeader ≤ nHeight facts f then none
    else if f ∈ path facts n.bestHeader then none
    else
      let above := (path facts n.bestHeader).takeWhile fun h =>
        decide (nHeight facts f < nHeight facts h)
      (above.find? fun h => !n.marked h && n.finality.posCarriesQuorum h).filter fun h =>
        decide (nHeight facts f + p.posReconcileMinDepth ≤ nHeight facts h)

/-- An answer that a block of the active chain carries a quorum. -/
def extendsBy (h : Uint256) (answer : Bool) : Bool :=
  answer && !n.finality.posCarriesQuorum h && decide (h ∈ path facts n.finality.tip)

/-- The uncontested height of the parent, with its block count. -/
def uncontestedHeight (btcHeight : ℤ) : Option ℤ :=
  getMainchainUncontestedHeight p.anchor n.parent.answers btcHeight (-1)

/-- The state after an event. -/
def next : ReconcileEvent → Option ReconcileNode
  | .certify h answer =>
    some { n with
      finality := { n.finality with
        posCarriesQuorum := Function.update n.finality.posCarriesQuorum h answer
        posCertEpoch :=
          if answer ≠ n.finality.posCarriesQuorum h ∧ h ∈ path facts n.finality.tip then
            n.finality.posCertEpoch + 1
          else n.finality.posCertEpoch }
      extended := if n.extendsBy facts h answer then n.steadyNow else n.extended }
  | .tick elapsed =>
    some { n with finality := { n.finality with now := n.finality.now + elapsed } }
  | .compete certs => some { n with finality := { n.finality with competingCerts := certs } }
  | .judge judged => some { n with finality := { n.finality with judged := judged } }
  | .connect h answer noted =>
    if (facts h).pprev = some n.finality.tip then
      some { n.updateTip p facts (n.finality.connectBlock p.finality h answer noted) with
        extended := if answer then n.steadyNow else n.extended }
    else none
  | .disconnect => (facts n.finality.tip).pprev.map fun q =>
      n.updateTip p facts { n.finality with tip := q }
  | .refresh => some (n.pass p facts n.finality)
  | .mark h => some { n with marked := Function.update n.marked h true }
  | .unmark h => some { n with marked := Function.update n.marked h false }
  | .header h => some { n with bestHeader := h }
  | .parentMoves parent => some { n with parent := parent }
  | .rivalFails => some { n.stampFinalAdvanceNow with release := none }
  | .look =>
    match n.monitor with
    | .idle =>
      -- The first pass after startup arms the patience clock.
      if n.finalAdvance = 0 then some n.stampFinalAdvanceNow
      else match n.findRival p facts with
        | none => some n
        | some r => some { n with monitor := .found r }
    | _ => none
  | .clock =>
    match n.monitor with
    | .found r =>
      if n.steadyNow - n.finalAdvance < p.posReconcilePatience then
        some { n with monitor := .idle }
      else some { n with monitor := .patient r }
    | _ => none
  | .checkAnchor ok =>
    match n.monitor with
    | .patient r => some { n with monitor := if ok then .anchored r else .idle }
    | _ => none
  | .count =>
    match n.monitor with
    | .anchored r =>
      match n.parent.answers.blockCount with
      | none => some { n with monitor := .idle }
      | some btcHeight => some { n with monitor := .counted r btcHeight }
    | _ => none
  | .chainTips =>
    match n.monitor with
    | .counted r btcHeight =>
      match n.uncontestedHeight p btcHeight with
      | none => some { n with monitor := .idle }
      | some uncontested =>
        if uncontested < (anchorOf r).height then some { n with monitor := .idle }
        else some { n with monitor := .settled r }
    | _ => none
  | .release =>
    match n.monitor with
    | .settled r =>
      some { n with release := some (r, n.finalHeight facts), monitor := .idle }
    | _ => none

end ReconcileNode

/-- A node that has just started, with any final point. -/
def reconcileMachine (p : ReconcileParams) (facts : Uint256 → ForkFacts)
    (anchorOf : Uint256 → BlockAnchor) : Machine ReconcileNode ReconcileEvent where
  init n := n.finalAdvance = 0 ∧ n.release = none ∧ n.monitor = .idle ∧ n.extended = n.steadyNow
  next := ReconcileNode.next p facts anchorOf

/-- What the release requires of the rival's certified block. -/
structure Eligible (p : ReconcileParams) (facts : Uint256 → ForkFacts) (n : ReconcileNode)
    (r : Uint256) : Prop where
  depth : n.finalHeight facts + p.posReconcileMinDepth ≤ nHeight facts r
  unmarked : n.marked r = false
  certified : n.finality.posCarriesQuorum r = true

/-- No quorum-certified block has extended the local chain for the patience. -/
def Waited (p : ReconcileParams) (n : ReconcileNode) : Prop :=
  p.posReconcilePatience ≤ n.steadyNow - n.extended

/-- The anchor is at or below the uncontested height of the parent. -/
def Uncontested (p : ReconcileParams) (n : ReconcileNode) (anchor : BlockAnchor) : Prop :=
  ∃ btcHeight uncontested, n.parent.answers.blockCount = some btcHeight ∧
    n.uncontestedHeight p btcHeight = some uncontested ∧ (anchor.height : ℤ) ≤ uncontested

/-- The condition on an event. When the patience clock is read, the last quorum-certified block
that extended the local chain has become final since, and the answer about the anchor is right.
From the first look to the release the final point does not rise and the rival is neither marked
nor loses its quorum; once the clock is read, no quorum-certified block extends the local chain;
once the anchor is checked, the parent does not move. -/
def Undisturbed (p : ReconcileParams) (facts : Uint256 → ForkFacts)
    (anchorOf : Uint256 → BlockAnchor) (n : ReconcileNode) (e : ReconcileEvent) : Prop :=
  (∀ m, n.next p facts anchorOf e = some m → n.monitor.rival?.isSome = true →
    m.finalHeight facts ≤ n.finalHeight facts) ∧
  match e with
  | .certify h answer => (∀ r ∈ n.monitor.rival?, h = r → answer = true) ∧
      (n.monitor.timed = true → n.extendsBy facts h answer = false)
  | .connect h answer _ => (∀ r ∈ n.monitor.rival?, h = r → answer = true) ∧
      (n.monitor.timed = true → answer = false)
  | .mark h => ∀ r ∈ n.monitor.rival?, h ≠ r
  | .parentMoves _ => n.monitor.asked = false
  | .clock => n.extended ≤ n.finalAdvance
  | .checkAnchor ok => ok = true → ∀ r ∈ n.monitor.rival?, n.parent.onBest (anchorOf r) = true
  | _ => True

variable {p : ReconcileParams} {facts : Uint256 → ForkFacts} {anchorOf : Uint256 → BlockAnchor}
  {n m : ReconcileNode} {s : FinalityState}

/-- What the monitor has read so far holds of the current state. -/
structure MonitorInv (p : ReconcileParams) (facts : Uint256 → ForkFacts)
    (anchorOf : Uint256 → BlockAnchor) (n : ReconcileNode) : Prop where
  eligible : ∀ r ∈ n.monitor.rival?, Eligible p facts n r
  /-- The patience has elapsed. -/
  waited : n.monitor.timed = true → Waited p n
  onBest : n.monitor.asked = true → ∀ r ∈ n.monitor.rival?, n.parent.onBest (anchorOf r) = true
  counted : ∀ r btcHeight, n.monitor = .counted r btcHeight →
    n.parent.answers.blockCount = some btcHeight
  settled : ∀ r, n.monitor = .settled r → Uncontested p n (anchorOf r)

/-- Nothing is known between two ticks. -/
theorem MonitorInv.of_idle (hidle : n.monitor = .idle) : MonitorInv p facts anchorOf n := by
  constructor <;> simp [hidle, Monitor.rival?, Monitor.timed, Monitor.asked]

/-- What an event of the rest of the node leaves as the monitor has read it. -/
structure Leaves (facts : Uint256 → ForkFacts) (n m : ReconcileNode) : Prop where
  monitor : m.monitor = n.monitor
  /-- The final point has not risen since the first look. -/
  height : n.monitor.rival?.isSome = true → m.finalHeight facts ≤ n.finalHeight facts
  unmarked : ∀ r ∈ n.monitor.rival?, n.marked r = false → m.marked r = false
  certified : ∀ r ∈ n.monitor.rival?, n.finality.posCarriesQuorum r = true →
    m.finality.posCarriesQuorum r = true
  /-- No quorum-certified block extends the local chain once the clock is read. -/
  extended : n.monitor.timed = true → m.extended = n.extended
  /-- Time does not run backwards. -/
  clock : n.steadyNow ≤ m.steadyNow
  parent : n.monitor.asked = true → m.parent = n.parent

/-- What the monitor knows stays true. -/
theorem MonitorInv.leaves (hinv : MonitorInv p facts anchorOf n) (hleaves : Leaves facts n m) :
    MonitorInv p facts anchorOf m where
  eligible r hr := by
    rw [hleaves.monitor] at hr
    obtain ⟨hdepth, hunmarked, hcertified⟩ := hinv.eligible r hr
    have hheight := hleaves.height (Option.isSome_of_mem hr)
    exact ⟨by omega, hleaves.unmarked r hr hunmarked, hleaves.certified r hr hcertified⟩
  waited htimed := by
    rw [hleaves.monitor] at htimed
    have hwaited := hinv.waited htimed
    have hclock := hleaves.clock
    unfold Waited at hwaited ⊢
    rw [hleaves.extended htimed]
    omega
  onBest hasked r hr := by
    rw [hleaves.monitor] at hasked hr
    rw [hleaves.parent hasked]
    exact hinv.onBest hasked r hr
  counted r btcHeight hm := by
    rw [hleaves.monitor] at hm
    rw [hleaves.parent (by rw [hm]; rfl)]
    exact hinv.counted r btcHeight hm
  settled r hm := by
    rw [hleaves.monitor] at hm
    unfold Uncontested ReconcileNode.uncontestedHeight
    rw [hleaves.parent (by rw [hm]; rfl)]
    exact hinv.settled r hm

theorem pass_frame (p : ReconcileParams) (facts : Uint256 → ForkFacts) (n : ReconcileNode)
    (s : FinalityState) :
    (n.pass p facts s).monitor = n.monitor ∧ (n.pass p facts s).marked = n.marked ∧
    (n.pass p facts s).parent = n.parent ∧ (n.pass p facts s).extended = n.extended ∧
    (n.pass p facts s).finality.posCarriesQuorum = s.posCarriesQuorum ∧
    (n.pass p facts s).finality.now = s.now := by
  unfold ReconcileNode.pass
  dsimp only
  split <;> exact ⟨rfl, rfl, rfl, rfl, rfl, rfl⟩

/-- A pass after a change of the active chain leaves what the monitor has read, if it does not raise
the final point and the answer for the rival is not taken back. -/
theorem leaves_of_pass (hmonitor : m.monitor = n.monitor) (hmarked : m.marked = n.marked)
    (hparent : m.parent = n.parent) (hnow : m.finality.now = n.finality.now)
    (hheight : n.monitor.rival?.isSome = true → m.finalHeight facts ≤ n.finalHeight facts)
    (hcertified : ∀ r ∈ n.monitor.rival?, n.finality.posCarriesQuorum r = true →
      m.finality.posCarriesQuorum r = true)
    (hextended : n.monitor.timed = true → m.extended = n.extended) : Leaves facts n m where
  monitor := hmonitor
  height := hheight
  unmarked r _ h := hmarked ▸ h
  certified := hcertified
  extended := hextended
  clock := by
    unfold ReconcileNode.steadyNow
    rw [hnow]
  parent _ := hparent

theorem update_certified {f : Uint256 → Bool} {h r : Uint256} {answer : Bool}
    (hkept : h = r → answer = true) (hr : f r = true) : Function.update f h answer r = true := by
  rw [Function.update_apply]
  split
  · next heq => exact hkept heq.symm
  · exact hr

theorem leaves_refl : Leaves facts n n where
  monitor := rfl
  height _ := Int.le_refl _
  unmarked _ _ h := h
  certified _ _ h := h
  extended _ := rfl
  clock := Int.le_refl _
  parent _ := rfl

/-- The tip is disconnected, or finality refreshed. -/
theorem leaves_pass (hnow : s.now = n.finality.now)
    (hquorum : s.posCarriesQuorum = n.finality.posCarriesQuorum)
    (hheight : n.monitor.rival?.isSome = true →
      (n.pass p facts s).finalHeight facts ≤ n.finalHeight facts) :
    Leaves facts n (n.pass p facts s) := by
  obtain ⟨hmonitor, hmarked, hparent, hextended, hcarries, htime⟩ := pass_frame p facts n s
  refine leaves_of_pass hmonitor hmarked hparent (htime.trans hnow) hheight (fun r _ hold => ?_)
    fun _ => hextended
  rw [hcarries, hquorum]
  exact hold

/-- Using up or withdrawing the release changes nothing the monitor reads. -/
theorem Leaves.updateTip (hleaves : Leaves facts n (n.pass p facts s)) :
    Leaves facts n (n.updateTip p facts s) := { hleaves with }

theorem eligible_findRival {r : Uint256} (hfind : n.findRival p facts = some r) :
    Eligible p facts n r := by
  revert hfind
  fun_cases ReconcileNode.findRival p facts n <;> intro hfind <;> try cases hfind
  next f hfinal _ _ _ _ =>
  obtain ⟨hfound, hdepth⟩ := Option.filter_eq_some_iff.mp hfind
  have htest := List.find?_some hfound
  rw [Bool.and_eq_true_iff, Bool.not_eq_true'] at htest
  refine ⟨?_, htest.1, htest.2⟩
  have hheight : n.finalHeight facts = nHeight facts f := by
    rw [ReconcileNode.finalHeight, FinalityState.finalHeight, hfinal]
  rw [hheight]
  exact_mod_cast of_decide_eq_true hdepth

variable (hinv : MonitorInv p facts anchorOf n)

include hinv

theorem MonitorInv.advance {monitor : Monitor} (hrival : monitor.rival? = n.monitor.rival?)
    (hwaited : monitor.timed = true → Waited p n)
    (honBest : monitor.asked = true →
      ∀ r ∈ n.monitor.rival?, n.parent.onBest (anchorOf r) = true)
    (hcounted : ∀ r btcHeight, monitor = .counted r btcHeight →
      n.parent.answers.blockCount = some btcHeight)
    (hsettled : ∀ r, monitor = .settled r → Uncontested p n (anchorOf r)) :
    MonitorInv p facts anchorOf { n with monitor := monitor } where
  eligible r hr := { hinv.eligible r (hrival ▸ hr) with }
  waited := hwaited
  onBest hasked r hr := honBest hasked r (hrival ▸ hr)
  counted := hcounted
  settled := hsettled

omit hinv

theorem next_release (hnext : n.next p facts anchorOf .release = some m) :
    ∃ r, n.monitor = .settled r ∧
      m = { n with release := some (r, n.finalHeight facts), monitor := .idle } := by
  simp only [ReconcileNode.next] at hnext
  split at hnext
  · next r hsettled => exact ⟨r, hsettled, (Option.some.inj hnext).symm⟩
  · cases hnext

/-- Every event that meets the condition keeps what the monitor knows. -/
theorem MonitorInv.next (hinv : MonitorInv p facts anchorOf n) {e : ReconcileEvent}
    (hund : Undisturbed p facts anchorOf n e) (hnext : n.next p facts anchorOf e = some m) :
    MonitorInv p facts anchorOf m := by
  have hheight := hund.1 m hnext
  revert hnext hheight
  fun_cases ReconcileNode.next p facts anchorOf n e <;> intro hnext hheight <;> try cases hnext
  case case1 =>
    obtain ⟨-, hrival, hquiet⟩ := hund
    refine hinv.leaves (leaves_of_pass rfl rfl rfl rfl hheight (fun r hr => ?_) fun htimed => ?_)
    · exact update_certified (hrival r hr)
    · exact if_neg (by rw [hquiet htimed]; exact Bool.false_ne_true)
  case case2 elapsed =>
    refine hinv.leaves { leaves_refl with clock := ?_ }
    exact Int.ediv_le_ediv (by decide) (Int.le_add_of_nonneg_right (Int.natCast_nonneg elapsed))
  case case5 h answer noted _ =>
    obtain ⟨-, hrival, hquiet⟩ := hund
    obtain ⟨hmonitor, hmarked, hparent, -, hquorum, hnow⟩ := pass_frame p facts n
      (n.finality.connectBlock p.finality h answer noted)
    refine hinv.leaves (leaves_of_pass hmonitor hmarked hparent hnow hheight (fun r hr hold => ?_)
      fun htimed => ?_)
    · exact (congrFun hquorum r).trans (update_certified (hrival r hr) hold)
    · exact if_neg (by rw [hquiet htimed]; exact Bool.false_ne_true)
  case case7 =>
    obtain ⟨q, -, rfl⟩ := Option.map_eq_some_iff.mp hnext
    have hleaves : Leaves facts n (n.pass p facts { n.finality with tip := q }) :=
      leaves_pass rfl rfl hheight
    exact hinv.leaves hleaves.updateTip
  case case8 => exact hinv.leaves (leaves_pass rfl rfl hheight)
  case case9 =>
    refine hinv.leaves { leaves_refl with unmarked := fun r hr hold => ?_ }
    exact (Function.update_of_ne (Ne.symm (hund.2 r hr)) ..).trans hold
  case case10 h =>
    refine hinv.leaves { leaves_refl with unmarked := fun r _ hold => ?_ }
    change Function.update n.marked h false r = false
    rw [Function.update_apply]
    split
    · rfl
    · exact hold
  case case12 =>
    refine hinv.leaves { leaves_refl with parent := fun hasked => ?_ }
    rw [show n.monitor.asked = false from hund.2] at hasked
    cases hasked
  -- From here on the monitor takes its steps; every failed reading lets go of the rival.
  case case14 hidle _ => exact .of_idle hidle
  case case15 => exact hinv
  case case16 r hfind =>
    refine ⟨?_, nofun, nofun, nofun, nofun⟩
    rintro _ ⟨⟩
    exact { eligible_findRival hfind with }
  case case19 r hfound hpassed =>
    have hfinal : n.extended ≤ n.finalAdvance := hund.2
    refine hinv.advance (by rw [hfound]; rfl) (fun _ => ?_) nofun nofun nofun
    unfold Waited
    omega
  case case21 ok r hpatient =>
    cases ok with
    | false => exact .of_idle rfl
    | true =>
      exact hinv.advance (by rw [hpatient]; rfl) (fun _ => hinv.waited (by rw [hpatient]; rfl))
        (fun _ => hund.2 rfl) nofun nofun
  case case24 r hanchored btcHeight hcount =>
    refine hinv.advance (by rw [hanchored]; rfl) (fun _ => hinv.waited (by rw [hanchored]; rfl))
      (fun _ => hinv.onBest (by rw [hanchored]; rfl)) ?_ nofun
    rintro _ _ ⟨⟩
    exact hcount
  case case28 r btcHeight hcounted uncontested huncontested hle =>
    refine hinv.advance (by rw [hcounted]; rfl) (fun _ => hinv.waited (by rw [hcounted]; rfl))
      (fun _ => hinv.onBest (by rw [hcounted]; rfl)) nofun ?_
    rintro _ ⟨⟩
    exact ⟨btcHeight, uncontested, hinv.counted r btcHeight hcounted, huncontested,
      Int.not_lt.mp hle⟩
  all_goals first | exact .of_idle rfl | exact hinv.leaves { leaves_refl with }

/-- In every run that meets the condition, at the moment finality is released for a rival branch
every release condition holds: no quorum-certified block has extended the local chain for the
patience, the rival's certified block is deep enough above the final height, certified and not
failed, and its anchor is on the parent's best chain and not contested. -/
theorem release_conditions_hold (p : ReconcileParams) (facts : Uint256 → ForkFacts)
    (anchorOf : Uint256 → BlockAnchor) (n m : ReconcileNode)
    (hreach : (reconcileMachine p facts anchorOf).Reachable (Undisturbed p facts anchorOf) n)
    (hnext : n.next p facts anchorOf .release = some m) :
    ∃ r, m.release = some (r, n.finalHeight facts) ∧ Waited p n ∧ Eligible p facts n r ∧
      n.parent.onBest (anchorOf r) = true ∧ Uncontested p n (anchorOf r) := by
  have hinv : MonitorInv p facts anchorOf n :=
    Machine.Reachable.invariant (fun _ hinit => .of_idle hinit.2.2.1)
      (fun _ _ _ h hund hnext => h.next hund hnext) hreach
  obtain ⟨r, hsettled, rfl⟩ := next_release hnext
  have hr : r ∈ n.monitor.rival? := by rw [hsettled]; rfl
  exact ⟨r, rfl, hinv.waited (by rw [hsettled]; rfl), hinv.eligible r hr,
    hinv.onBest (by rw [hsettled]; rfl) r hr, hinv.settled r hsettled⟩

/-- Ten minutes of patience and a depth of two; a block is final once it is connected. -/
def patientParams : ReconcileParams where
  finality := ⟨0, 0⟩
  anchor := ⟨true, true, 1, true, 6⟩
  posReconcileMinDepth := 2
  posReconcilePatience := 600
  posReconcileMinDepth_pos := by decide

def sameAnchor (_ : Uint256) : BlockAnchor := ⟨50, 9⟩

/-- Block 1 is final, and the best header is block 5 of the longer branch, which carries a
quorum. -/
def partitioned : ReconcileNode where
  finality := ⟨1, fun h => h = 1 || h = 5, 0, some 1, none, fun _ => none, 0, 1000, [],
    fun _ => true⟩
  marked _ := false
  bestHeader := 5
  parent := ⟨fun _ => true, ⟨some 100, none, some [], fun _ => none⟩⟩
  extended := 1

/-- The monitor arms its clock, waits and reads everything. -/
def readsAll : List ReconcileEvent :=
  [.look, .tick 600000, .look, .clock, .checkAnchor true, .count, .chainTips]

/-- Ten minutes later the monitor has read everything. -/
def partitionedSettled : ReconcileNode :=
  { partitioned with
    finality := { partitioned.finality with now := 601000 }
    finalAdvance := 1
    monitor := .settled 5 }

theorem init_partitioned :
    (reconcileMachine patientParams reorgFacts sameAnchor).init partitioned :=
  ⟨rfl, rfl, rfl, rfl⟩

theorem run_readsAll : (reconcileMachine patientParams reorgFacts sameAnchor).run partitioned
    readsAll = some partitionedSettled := by
  rfl

/-- Nothing interferes while the monitor reads. -/
theorem allows_readsAll : (reconcileMachine patientParams reorgFacts sameAnchor).Allows
    (Undisturbed patientParams reorgFacts sameAnchor) partitioned readsAll := by
  -- Before the second look there is no rival.
  refine ⟨⟨(fun _ _ h => nomatch h), trivial⟩, ?_⟩
  rintro _ ⟨⟩
  refine ⟨⟨(fun _ _ h => nomatch h), trivial⟩, ?_⟩
  rintro _ ⟨⟩
  refine ⟨⟨(fun _ _ h => nomatch h), trivial⟩, ?_⟩
  rintro _ ⟨⟩
  refine ⟨⟨?_, by decide⟩, ?_⟩
  · rintro _ ⟨⟩ _
    exact Int.le_refl _
  rintro _ ⟨⟩
  refine ⟨⟨?_, fun _ _ _ => rfl⟩, ?_⟩
  · rintro _ ⟨⟩ _
    exact Int.le_refl _
  rintro _ ⟨⟩
  refine ⟨⟨?_, trivial⟩, ?_⟩
  · rintro _ ⟨⟩ _
    exact Int.le_refl _
  rintro _ ⟨⟩
  refine ⟨⟨?_, trivial⟩, ?_⟩
  · rintro _ ⟨⟩ _
    exact Int.le_refl _
  rintro _ ⟨⟩
  trivial

/-- Finality is released for the longer branch. -/
theorem release_conditions_partitioned :
    ∃ n m, (reconcileMachine patientParams reorgFacts sameAnchor).Reachable
        (Undisturbed patientParams reorgFacts sameAnchor) n ∧
      n.next patientParams reorgFacts sameAnchor .release = some m ∧
      m.release = some (5, 1) ∧ Waited patientParams n ∧ Eligible patientParams reorgFacts n 5 := by
  have hreach := Machine.Reachable.run (.init init_partitioned) allows_readsAll run_readsAll
  obtain ⟨r, hrelease, hwaited, heligible, -⟩ := release_conditions_hold patientParams reorgFacts
    sameAnchor partitionedSettled _ hreach rfl
  have hr : (5, 1) = (r, partitionedSettled.finalHeight reorgFacts) := Option.some.inj hrelease
  obtain rfl : 5 = r := congrArg Prod.fst hr
  exact ⟨_, _, hreach, rfl, hrelease, hwaited, heligible⟩

/-- After the monitor has read everything, block 2 extends the local chain with a quorum and
becomes final. The release goes through all the same: the rival is one block above the final
height, where two are required, and the last quorum-certified extension is less than the patience
ago. -/
theorem release_after_extension :
    ∃ n m, (reconcileMachine patientParams reorgFacts sameAnchor).Reachable (fun _ _ => True) n ∧
      n.next patientParams reorgFacts sameAnchor .release = some m ∧ m.release = some (5, 2) ∧
      ¬Waited patientParams n ∧
      ¬n.finalHeight reorgFacts + patientParams.posReconcileMinDepth ≤ nHeight reorgFacts 5 := by
  have hreach : (reconcileMachine patientParams reorgFacts sameAnchor).Reachable
      (fun _ _ => True) _ :=
    .next (.connect 2 true true) (Machine.reachable_run init_partitioned run_readsAll) trivial rfl
  refine ⟨_, _, hreach, rfl, ?_, ?_, ?_⟩
  · decide +kernel
  · unfold Waited
    decide +kernel
  · decide +kernel

end Sequentia.Anchor
