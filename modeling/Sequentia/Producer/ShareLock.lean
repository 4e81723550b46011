import Sequentia.Lib.Runs
import Sequentia.Transaction

/-!
# The share-lock of a producer

Having released a signature share for a block, a producer must not sign a rival of the same
height before it has asked its peers for a certificate of the first block and waited a round. The
memory for this is a single remembered block, the share-lock, which every share that is released
overwrites.

The worker thread runs `DriveRound` over and over. Its first part decides what to do and ends
before the block is validated; the second part releases the shares. Gossip, certificates and the
chain's tip may change in between, but only the worker touches the lock.
-/

namespace Sequentia.Producer

open List

/-- The share-lock: the block most recently signed. -/
structure ShareLock where
  /-- `m_lock_hash`. -/
  hash : Uint256
  /-- `m_lock_height`. -/
  height : ℕ
  /-- `m_lock_grace_start_ms`, or none if not started. -/
  graceStart : Option ℤ := none
  /-- `m_lock_queried`. -/
  queried : Bool := false
  deriving DecidableEq

/-- What the node has sent to its peers. -/
inductive Sent where
  /-- The shares for a block of a height, sent at a time, and whether a certificate for the height
  was held. -/
  | share (height : ℕ) (hash : Uint256) (time : ℤ) (certified : Bool)
  /-- The query for a block's certificate. -/
  | query (hash : Uint256) (time : ℤ)
  deriving DecidableEq

/-- What the first part of `DriveRound` hands to the second. -/
structure Wish where
  height : ℕ
  roundIndex : ℤ
  backed : Uint256
  /-- The time the pass has read. -/
  now : ℤ
  deriving DecidableEq

/-- The parts of a producer that decide what it signs, and what it has sent. -/
structure LockNode where
  /-- The tip of the active chain. -/
  tipHash : Uint256
  tipHeight : ℕ
  lastTip : Option Uint256 := none
  /-- The heights of `m_certified_heights`. -/
  certified : List ℕ := []
  roundHeight : ℕ := 0
  /-- The blocks of `m_candidates`. -/
  candidates : List Uint256 := []
  backedHash : Option Uint256 := none
  signedRound : ℤ := -1
  /-- The share-lock, none as long as `m_lock_hash` is null. -/
  lock : Option ShareLock := none
  /-- The worker has decided to sign and is validating the block. -/
  wish : Option Wish := none
  /-- The time the last pass has read. -/
  clock : ℤ := 0
  /-- What was sent, the latest first; for reasoning only. -/
  sent : List Sent := []
  deriving DecidableEq

/-- The constants of a producer. -/
structure RoundParams where
  conBitcoinAnchor : Bool
  roundMs : ℤ
  roundMs_pos : 0 < roundMs

/-- What a pass of `DriveRound` finds besides the producer's state. -/
structure RoundView where
  roundIndex : ℤ
  /-- The collection has run all its rounds. -/
  exhausted : Bool
  /-- The block `BackedForRound` picks. -/
  backed : Uint256
  /-- `gap_passed` apart from the switch: the parent chain's height and time have advanced. -/
  gapPassed : Bool

namespace LockNode

/-- `SendCertQueryOnce`, for the block of the lock. -/
def sendCertQueryOnce (n : LockNode) (now : ℤ) : LockNode :=
  match n.lock with
  | none => n
  | some lock =>
    if lock.queried then n
    else
      { n with
        lock := some { lock with queried := true }
        sent := .query lock.hash now :: n.sent }

def startGrace (n : LockNode) (now : ℤ) : LockNode :=
  { n with lock := n.lock.map fun lock =>
      { lock with graceStart := some (lock.graceStart.getD now) } }

/-- `RestartCollection`, with the query that `DriveRound` sends for it. -/
def restartCollection (n : LockNode) (height : ℕ) (now : ℤ) : LockNode :=
  let n := { n with roundHeight := 0, candidates := [], backedHash := none, signedRound := -1 }
  match n.lock with
  | some lock =>
    if lock.height = height then
      { n with lock := some { lock with graceStart := some now, queried := false } }
        |>.sendCertQueryOnce now
    else n
  | none => n

/-- The ancestry arm applies: the tip is a rival of the block signed at its height. -/
def rivalTip (n : LockNode) : Bool :=
  n.lock.any fun lock => lock.height == n.tipHeight && lock.hash != n.tipHash

/-- The same-height arm applies: a different block was signed at this height. -/
def rivalOf (n : LockNode) (height : ℕ) (backed : Uint256) : Bool :=
  n.lock.any fun lock => lock.height == height && lock.hash != backed

def graceOver (n : LockNode) (now wait : ℤ) : Bool :=
  n.lock.any fun lock => lock.graceStart.any fun start => wait ≤ now - start

def graceStarted (n : LockNode) : Bool := n.lock.any fun lock => lock.graceStart.isSome

/-- The part of `DriveRound` after the ancestry arm, up to the validation of the block. -/
def decideSigning (p : RoundParams) (n : LockNode) (now : ℤ) (view : RoundView) : LockNode :=
  let height := n.tipHeight + 1
  let wants := decide (n.signedRound < view.roundIndex) || n.backedHash != some view.backed
  let rival := wants && n.rivalOf height view.backed
  let wantSign := wants && !(rival && !n.graceOver now p.roundMs)
  let n := if rival then n.startGrace now else n
  if wantSign then { n with wish := some ⟨height, view.roundIndex, view.backed, now⟩ }
  else if n.graceStarted then n.sendCertQueryOnce now
  else n

/-- The first part of `DriveRound`, up to the validation of the block. -/
def driveRound (p : RoundParams) (n : LockNode) (now : ℤ) (view : RoundView) : LockNode :=
  let height := n.tipHeight + 1
  let n := { n with clock := now }
  if height ∈ n.certified then n
  else if n.roundHeight ≠ height then n
  else if view.exhausted then n.restartCollection height now
  else if view.backed ∉ n.candidates then n
  else if n.rivalTip then
    let n := n.startGrace now
    let gapPassed := p.conBitcoinAnchor && view.gapPassed
    let gracePassed := !p.conBitcoinAnchor && n.graceOver now (2 * p.roundMs)
    if gapPassed || gracePassed then n.decideSigning p now view
    else n.sendCertQueryOnce now
  else n.decideSigning p now view

/-- The second part of `DriveRound`: the block has been validated against the tip of that moment,
and the shares are released if it is still the round's choice. -/
def releaseShares (n : LockNode) (wish : Wish) (valid stillBacked : Bool) : LockNode :=
  let n := { n with wish := none }
  if !valid then { n with candidates := n.candidates.erase wish.backed }
  else if n.roundHeight ≠ wish.height ∨ !stillBacked then n
  else
    { n with
      signedRound := wish.roundIndex
      backedHash := some wish.backed
      lock := some { hash := wish.backed, height := wish.height }
      sent := .share wish.height wish.backed wish.now (decide (wish.height ∈ n.certified)) ::
        n.sent }

end LockNode

/-- What happens. -/
inductive LockEvent where
  /-- The tip of the active chain changes, in either direction. -/
  | setTip (hash : Uint256) (height : ℕ)
  /-- `Step` sees the tip, with a proposal of its own at or above the next height or not. -/
  | step (proposed : Bool)
  | certify (height : ℕ)
  | forget (height : ℕ)
  /-- `RecordCandidate` for a proposal of a height. -/
  | recordCandidate (hash : Uint256) (height : ℕ)
  | exclude (hash : Uint256)
  /-- A certificate is assembled from the shares collected for the backed block. -/
  | assemble
  /-- The first part of a pass of the worker. -/
  | driveRound (now : ℤ) (view : RoundView)
  /-- The second part. -/
  | release (valid stillBacked : Bool)

/-- The state after an event. -/
def LockNode.next (p : RoundParams) (n : LockNode) : LockEvent → Option LockNode
  | .setTip hash height => some { n with tipHash := hash, tipHeight := height }
  | .step proposed =>
    if some n.tipHash = n.lastTip then some n
    else if n.tipHeight + 1 ≤ n.roundHeight ∨ proposed then
      some { n with
        lastTip := some n.tipHash, roundHeight := 0, candidates := [], backedHash := none
        signedRound := -1 }
    else some { n with lastTip := some n.tipHash }
  | .certify height => some { n with certified := height :: n.certified }
  | .forget height => some { n with certified := n.certified.filter (· ≠ height) }
  | .recordCandidate hash height =>
    if height < n.roundHeight then some n
    else if n.roundHeight < height then
      some { n with
        roundHeight := height, candidates := [hash], backedHash := none, signedRound := -1 }
    else some { n with candidates := n.candidates.insert hash }
  | .exclude hash => some { n with candidates := n.candidates.erase hash }
  | .assemble => some { n with backedHash := none }
  | .driveRound now view =>
    -- One worker, and time does not run backwards.
    if n.wish = none ∧ n.clock ≤ now then some (n.driveRound p now view) else none
  | .release valid stillBacked =>
    match n.wish with
    | none => none
    | some wish => some (n.releaseShares wish valid stillBacked)

/-- A producer between two restarts, started at any tip. -/
def lockMachine (p : RoundParams) : Machine LockNode LockEvent where
  init n := ∃ hash height, n = { tipHash := hash, tipHeight := height }
  next := LockNode.next p

/-- The condition on an event. Shares for a height at which shares were released before are
released only while the lock is at that height. No certificate for a height arrives while a block
of it is being validated. When the ancestry arm starts the grace of the lock, it holds the
round. -/
def Locked (p : RoundParams) (n : LockNode) : LockEvent → Prop
  | .release _ _ => ∀ wish ∈ n.wish, (∃ x t c, Sent.share wish.height x t c ∈ n.sent) →
      ∃ lock ∈ n.lock, lock.height = wish.height
  | .certify height => ∀ wish ∈ n.wish, wish.height ≠ height
  | .driveRound _ view => n.rivalTip = true → n.graceStarted = false →
      (p.conBitcoinAnchor && view.gapPassed) = false
  | _ => True

/-- What was sent before a share justifies it: for every share of the height for another block,
its certificate was asked for since, at least a round before. -/
def Justified (p : RoundParams) (height : ℕ) (hash : Uint256) (time : ℤ) (before : List Sent) :
    Prop :=
  ∀ later earlier x t c, before = later ++ .share height x t c :: earlier → x ≠ hash →
    ∃ asked, Sent.query x asked ∈ later ∧ asked + p.roundMs ≤ time

variable {p : RoundParams} {n m : LockNode} {now : ℤ} {view : RoundView}

/-- The lock is the block of the latest share, and its grace began with a query. -/
structure LockInv (n : LockNode) (lock : ShareLock) : Prop where
  /-- The latest share is for the block of the lock, and the grace began when its certificate was
  asked for. -/
  latest : ∃ later earlier t, n.sent = later ++ .share lock.height lock.hash t false :: earlier ∧
    (∀ h x t c, Sent.share h x t c ∉ later) ∧ t ≤ n.clock ∧
    ∀ g ∈ lock.graceStart, Sent.query lock.hash g ∈ later
  /-- A query is sent only once the grace has begun. -/
  queried : lock.queried = true → lock.graceStart.isSome = true

/-- What holds between two events. -/
structure LogInv (p : RoundParams) (n : LockNode) : Prop where
  history : ∀ later earlier h x t c, n.sent = later ++ .share h x t c :: earlier →
    c = false ∧ Justified p h x t earlier
  unlocked : n.lock = none → ∀ h x t c, Sent.share h x t c ∉ n.sent
  /-- The lock stands for the latest share. -/
  locked : ∀ lock ∈ n.lock, LockInv n lock
  /-- What the worker wishes to sign has no certificate at its height, and the grace of a rival
  is over. -/
  wish : ∀ w ∈ n.wish, w.height ∉ n.certified ∧ w.now = n.clock ∧
    ∀ lock ∈ n.lock, lock.height = w.height → lock.hash ≠ w.backed →
      ∃ g ∈ lock.graceStart, g + p.roundMs ≤ w.now

theorem logInv_init {hash : Uint256} {height : ℕ} :
    LogInv p { tipHash := hash, tipHeight := height } where
  history later earlier h x t c hsplit := by simp at hsplit
  unlocked _ h x t c := not_mem_nil
  locked _ hlock := nomatch hlock
  wish _ hwish := nomatch hwish

theorem LogInv.congr (hinv : LogInv p n) (hlock : m.lock = n.lock) (hsent : m.sent = n.sent)
    (hwish : m.wish = n.wish) (hclock : m.clock = n.clock)
    (hcertified : ∀ w ∈ n.wish, w.height ∈ m.certified → w.height ∈ n.certified) :
    LogInv p m where
  history := by
    rw [hsent]
    exact hinv.history
  unlocked := by
    rw [hlock, hsent]
    exact hinv.unlocked
  locked lock hmem := by
    have hold := hinv.locked lock (hlock ▸ hmem)
    exact ⟨by rw [hsent, hclock]; exact hold.latest, hold.queried⟩
  wish w hmem := by
    rw [hwish] at hmem
    rw [hlock, hclock]
    exact ⟨fun h => (hinv.wish w hmem).1 (hcertified w hmem h), (hinv.wish w hmem).2⟩

/-- Time passes while the worker wishes nothing. -/
theorem LogInv.tick (hinv : LogInv p n) (hidle : n.wish = none) (hle : n.clock ≤ now) :
    LogInv p { n with clock := now } where
  history := hinv.history
  unlocked := hinv.unlocked
  locked lock hmem := by
    obtain ⟨⟨later, earlier, t, hsent, hnone, ht, hgrace⟩, hqueried⟩ := hinv.locked lock hmem
    exact ⟨⟨later, earlier, t, hsent, hnone, Int.le_trans ht hle, hgrace⟩, hqueried⟩
  wish w hmem := nomatch hidle.symm.trans hmem

theorem split_query {x : Uint256} {t : ℤ} {l later earlier : List Sent} {a : Sent}
    (hshare : ∀ y s, a ≠ .query y s) (hsplit : .query x t :: l = later ++ a :: earlier) :
    ∃ later', later = .query x t :: later' ∧ l = later' ++ a :: earlier := by
  cases later with
  | nil =>
    rw [nil_append, List.cons.injEq] at hsplit
    exact absurd hsplit.1.symm (hshare x t)
  | cons b later' =>
    rw [cons_append, List.cons.injEq] at hsplit
    exact ⟨later', by rw [hsplit.1], hsplit.2⟩

/-- The worker asks for the certificate of the lock's block, with a grace that began before or
begins now. -/
theorem LogInv.ask (hinv : LogInv p n) (hidle : n.wish = none) (now : ℤ)
    (lock lock' : ShareLock) (hlock : n.lock = some lock)
    (hhash : lock'.hash = lock.hash) (hheight : lock'.height = lock.height)
    (hstarted : lock'.graceStart.isSome = true)
    (hgrace : ∀ g ∈ lock'.graceStart, g = now ∨ g ∈ lock.graceStart) :
    LogInv p { n with lock := some lock', sent := .query lock.hash now :: n.sent } where
  history later earlier h x t c hsplit := by
    obtain ⟨later', -, hsplit⟩ := split_query (by simp) hsplit
    exact hinv.history later' earlier h x t c hsplit
  unlocked h := nomatch h
  locked l hmem := by
    cases hmem
    obtain ⟨⟨later, earlier, t, hsent, hnone, ht, hold⟩, -⟩ := hinv.locked lock hlock
    refine ⟨⟨.query lock.hash now :: later, earlier, t, ?_, ?_, ht, ?_⟩, fun _ => hstarted⟩
    · rw [hsent, hhash, hheight, cons_append]
    · simpa using hnone
    · intro g hg
      rw [hhash]
      rcases hgrace g hg with rfl | hg
      · exact mem_cons_self
      · exact mem_cons_of_mem _ (hold g hg)
  wish w hmem := nomatch hidle.symm.trans hmem

theorem graceStarted_iff : n.graceStarted = true ↔
    ∃ lock, n.lock = some lock ∧ lock.graceStart.isSome = true := by
  cases hlock : n.lock <;> simp [LockNode.graceStarted, hlock]

theorem startGrace_of_started (h : n.graceStarted = true) : n.startGrace now = n := by
  obtain ⟨lock, hlock, hstarted⟩ := graceStarted_iff.mp h
  obtain ⟨g, hg⟩ := Option.isSome_iff_exists.mp hstarted
  obtain ⟨hash, height, _, queried⟩ := lock
  cases hg
  simp [LockNode.startGrace, hlock]
  cases n
  cases hlock
  rfl

/-- The worker asks for the certificate of a lock whose grace has begun. -/
theorem LogInv.sendCertQueryOnce (hinv : LogInv p n) (hidle : n.wish = none)
    (hstarted : n.graceStarted = true) : LogInv p (n.sendCertQueryOnce now) := by
  obtain ⟨lock, hlock, hgrace⟩ := graceStarted_iff.mp hstarted
  unfold LockNode.sendCertQueryOnce
  rw [hlock]
  dsimp only
  split
  · exact hinv
  · exact hinv.ask hidle now lock _ hlock rfl rfl hgrace fun g hg => .inr hg

/-- The worker starts the grace of the lock, if it has not begun, and asks for the
certificate. -/
theorem LogInv.startGrace (hinv : LogInv p n) (hidle : n.wish = none) :
    LogInv p ((n.startGrace now).sendCertQueryOnce now) := by
  by_cases hstarted : n.graceStarted = true
  · rw [startGrace_of_started hstarted]
    exact hinv.sendCertQueryOnce hidle hstarted
  cases hlock : n.lock with
  | none =>
    have hsame : (n.startGrace now).sendCertQueryOnce now = n := by
      simp [LockNode.startGrace, LockNode.sendCertQueryOnce, hlock]
      cases n
      cases hlock
      rfl
    rw [hsame]
    exact hinv
  | some lock =>
    have hgrace : lock.graceStart = none := by
      simpa [LockNode.graceStarted, hlock] using hstarted
    have hqueried : lock.queried = false := by
      by_contra h
      simpa [hgrace] using (hinv.locked lock hlock).queried (by simpa using h)
    have hasked := hinv.ask hidle now lock { lock with graceStart := some now, queried := true }
      hlock rfl rfl rfl (by simp)
    simpa [LockNode.startGrace, LockNode.sendCertQueryOnce, hlock, hgrace, hqueried] using hasked

/-- `RestartCollection` starts the grace anew and asks again. -/
theorem LogInv.restartCollection (hinv : LogInv p n) (hidle : n.wish = none) {height : ℕ} :
    LogInv p (n.restartCollection height now) := by
  have hcleared : LogInv p
      { n with roundHeight := 0, candidates := [], backedHash := none, signedRound := -1 } :=
    hinv.congr rfl rfl rfl rfl fun _ _ h => h
  unfold LockNode.restartCollection
  dsimp only
  split
  · next lock hlock =>
    split
    · exact hcleared.ask hidle now lock _ hlock rfl rfl rfl (by simp)
    · exact hcleared
  · exact hcleared

theorem LogInv.wishes (hinv : LogInv p n) {w : Wish} (hcertified : w.height ∉ n.certified)
    (hclock : w.now = n.clock)
    (hgrace : ∀ lock ∈ n.lock, lock.height = w.height → lock.hash ≠ w.backed →
      ∃ g ∈ lock.graceStart, g + p.roundMs ≤ w.now) :
    LogInv p { n with wish := some w } where
  history := hinv.history
  unlocked := hinv.unlocked
  locked lock hlock := ⟨(hinv.locked lock hlock).latest, (hinv.locked lock hlock).queried⟩
  wish := by
    rintro _ ⟨⟩
    exact ⟨hcertified, hclock, hgrace⟩

theorem rivalOf_eq_true_iff {height : ℕ} {backed : Uint256} : n.rivalOf height backed = true ↔
    ∃ lock, n.lock = some lock ∧ lock.height = height ∧ lock.hash ≠ backed := by
  cases hlock : n.lock <;> simp [LockNode.rivalOf, hlock]

theorem graceOver_eq_true_iff {wait : ℤ} : n.graceOver now wait = true ↔
    ∃ lock, n.lock = some lock ∧ ∃ g ∈ lock.graceStart, wait ≤ now - g := by
  cases hlock : n.lock with
  | none => simp [LockNode.graceOver, hlock]
  | some lock => cases hgrace : lock.graceStart <;> simp [LockNode.graceOver, hlock, hgrace]

theorem graceStarted_of_over {wait : ℤ} (h : n.graceOver now wait = true) :
    n.graceStarted = true := by
  obtain ⟨lock, hlock, g, hg, -⟩ := graceOver_eq_true_iff.mp h
  exact graceStarted_iff.mpr ⟨lock, hlock, Option.isSome_of_mem hg⟩

theorem graceOver_startGrace {wait : ℤ} (hstarted : n.graceStarted = false) (hwait : 0 < wait) :
    (n.startGrace now).graceOver now wait = false := by
  cases hlock : n.lock with
  | none => simp [LockNode.startGrace, LockNode.graceOver, hlock]
  | some lock =>
    have hgrace : lock.graceStart = none := by
      simpa [LockNode.graceStarted, hlock] using hstarted
    simpa [LockNode.startGrace, LockNode.graceOver, hlock, hgrace] using hwait

theorem LogInv.decideSigning (hinv : LogInv p n) (hidle : n.wish = none) (hclock : n.clock = now)
    (hcertified : n.tipHeight + 1 ∉ n.certified) :
    LogInv p (n.decideSigning p now view) := by
  unfold LockNode.decideSigning
  dsimp only
  generalize hwants : (decide (n.signedRound < view.roundIndex) ||
    n.backedHash != some view.backed) = wants
  cases hrival : wants && n.rivalOf (n.tipHeight + 1) view.backed with
  | false =>
    -- No rival was signed at the height, so there is no grace to wait for.
    simp only [Bool.false_and, Bool.not_false, Bool.and_true, Bool.false_eq_true, if_false]
    split
    · next hwant =>
      refine hinv.wishes hcertified hclock.symm fun lock hlock hheight hhash => ?_
      rw [hwant, Bool.true_and] at hrival
      exact absurd (rivalOf_eq_true_iff.mpr ⟨lock, hlock, hheight, hhash⟩)
        (Bool.not_eq_true _ ▸ hrival)
    · split
      · next hstarted => exact hinv.sendCertQueryOnce hidle hstarted
      · exact hinv
  | true =>
    obtain ⟨hwant, hrivalOf⟩ := Bool.and_eq_true_iff.mp hrival
    obtain ⟨lock, hlock, -⟩ := rivalOf_eq_true_iff.mp hrivalOf
    simp only [hwant, Bool.true_and, Bool.not_not, if_true]
    split
    · next hover =>
      rw [startGrace_of_started (graceStarted_of_over hover)]
      refine hinv.wishes hcertified hclock.symm fun lock' hlock' _ _ => ?_
      obtain ⟨l, hl, g, hg, hwait⟩ := graceOver_eq_true_iff.mp hover
      obtain rfl := Option.some.inj (hl.symm.trans hlock')
      exact ⟨g, hg, by simpa using Int.add_le_of_le_sub_left hwait⟩
    · rw [if_pos (by simp [LockNode.startGrace, LockNode.graceStarted, hlock])]
      exact hinv.startGrace hidle

/-- A pass of the worker up to the validation keeps what holds, if the ancestry arm holds the round
when it starts the grace. -/
theorem LogInv.driveRound (hinv : LogInv p n) (hidle : n.wish = none) (hle : n.clock ≤ now)
    (hlocked : n.rivalTip = true → n.graceStarted = false →
      (p.conBitcoinAnchor && view.gapPassed) = false) :
    LogInv p (n.driveRound p now view) := by
  have htick := hinv.tick hidle hle
  unfold LockNode.driveRound
  dsimp only
  split
  · exact htick
  next hcertified =>
  split
  · exact htick
  split
  · exact htick.restartCollection hidle
  split
  · exact htick
  split
  · next hrival =>
    split
    · next hpassed =>
      -- The grace cannot have begun in this pass, so starting it did nothing.
      have hstarted : ({ n with clock := now } : LockNode).graceStarted = true := by
        by_contra hnot
        rw [Bool.not_eq_true] at hnot
        have hpos : 0 < 2 * p.roundMs := by have := p.roundMs_pos; omega
        rw [hlocked hrival hnot, graceOver_startGrace hnot hpos] at hpassed
        simp at hpassed
      rw [startGrace_of_started hstarted]
      exact htick.decideSigning hidle rfl hcertified
    · exact htick.startGrace hidle
  · exact htick.decideSigning hidle rfl hcertified

theorem LogInv.justified (hinv : LogInv p n) {w : Wish} (hwish : n.wish = some w)
    (hlocked : (∃ x t c, Sent.share w.height x t c ∈ n.sent) →
      ∃ lock ∈ n.lock, lock.height = w.height) :
    Justified p w.height w.backed w.now n.sent := by
  obtain ⟨-, hnow, hgrace⟩ := hinv.wish w hwish
  intro later earlier x t c hsplit hne
  obtain ⟨lock, hlock, hheight⟩ := hlocked ⟨x, t, c, by simp [hsplit]⟩
  obtain ⟨⟨after, before, s, hsent, hnone, hs, hasked⟩, -⟩ := hinv.locked lock hlock
  rw [hheight] at hsent
  -- A share for the lock's block: the grace of the lock began after it.
  have hlatest (hx : x = lock.hash) (hsub : after ⊆ later) :
      ∃ asked, Sent.query x asked ∈ later ∧ asked + p.roundMs ≤ w.now := by
    obtain ⟨g, hg, hover⟩ := hgrace lock hlock hheight (hx ▸ hne)
    exact ⟨g, hx ▸ hsub (hasked g hg), hover⟩
  obtain ⟨rest, hlater, hbefore⟩ | ⟨rest, hafter, hearlier⟩ :=
    append_eq_append_iff.mp (hsent.symm.trans hsplit)
  · have hsub : after ⊆ later := hlater ▸ subset_append_left after rest
    cases rest with
    | nil =>
      rw [nil_append, List.cons.injEq, Sent.share.injEq] at hbefore
      exact hlatest hbefore.1.2.1.symm hsub
    | cons a rest =>
      rw [cons_append, List.cons.injEq] at hbefore
      by_cases hx : x = lock.hash
      · exact hlatest hx hsub
      · -- The lock's own share was justified against an older one.
        have hhistory := (hinv.history after before w.height lock.hash s false hsent).2
        obtain ⟨asked, hmem, hle⟩ := hhistory rest earlier x t c hbefore.2 hx
        refine ⟨asked, ?_, by omega⟩
        rw [hlater]
        exact mem_append_right _ (mem_cons_of_mem _ hmem)
  · cases rest with
    | nil =>
      rw [nil_append, List.cons.injEq, Sent.share.injEq] at hearlier
      exact hlatest hearlier.1.2.1 (by rw [hafter, append_nil]; exact List.Subset.refl _)
    | cons a rest =>
      rw [cons_append, List.cons.injEq] at hearlier
      exact absurd (by simp [hafter, hearlier.1]) (hnone w.height x t c)

/-- The second part of a pass keeps what holds, if the lock is at the height of the shares
released whenever shares were released there before. -/
theorem LogInv.releaseShares (hinv : LogInv p n) {w : Wish} (hwish : n.wish = some w)
    (hlocked : (∃ x t c, Sent.share w.height x t c ∈ n.sent) →
      ∃ lock ∈ n.lock, lock.height = w.height) (valid stillBacked : Bool) :
    LogInv p (n.releaseShares w valid stillBacked) := by
  obtain ⟨hcertified, hnow, -⟩ := hinv.wish w hwish
  have hidle : LogInv p { n with wish := none } :=
    { hinv with
      locked := fun lock hlock =>
        ⟨(hinv.locked lock hlock).latest, (hinv.locked lock hlock).queried⟩
      wish := fun _ h => nomatch h }
  unfold LockNode.releaseShares
  dsimp only
  split
  · exact hidle.congr rfl rfl rfl rfl fun _ _ h => h
  split
  · exact hidle
  rw [decide_eq_false hcertified]
  have hjustified := hinv.justified hwish hlocked
  refine ⟨?_, (fun h => nomatch h), ?_, (fun _ h => nomatch h)⟩
  · intro later earlier h x t c hsplit
    cases later with
    | nil =>
      rw [nil_append, List.cons.injEq, Sent.share.injEq] at hsplit
      obtain ⟨⟨rfl, rfl, rfl, rfl⟩, rfl⟩ := hsplit
      exact ⟨rfl, hjustified⟩
    | cons a later =>
      rw [cons_append, List.cons.injEq] at hsplit
      exact hinv.history later earlier h x t c hsplit.2
  · rintro lock ⟨⟩
    exact ⟨⟨[], n.sent, w.now, rfl, by simp, Int.le_of_eq hnow, by simp⟩, by simp⟩

/-- Every event that meets the condition keeps what holds. -/
theorem LogInv.next (hinv : LogInv p n) {e : LockEvent} (hlocked : Locked p n e)
    (hnext : n.next p e = some m) : LogInv p m := by
  revert hnext
  fun_cases LockNode.next p n e <;> rintro ⟨⟩
  case case5 =>
    refine hinv.congr rfl rfl rfl rfl fun w hw hmem => ?_
    exact (mem_cons.mp hmem).resolve_left (hlocked w hw)
  case case6 => exact hinv.congr rfl rfl rfl rfl fun _ _ h => mem_of_mem_filter h
  case case12 hguard => exact hinv.driveRound hguard.1 hguard.2 hlocked
  case case15 hwish => exact hinv.releaseShares hwish (hlocked _ hwish) _ _
  all_goals exact hinv.congr rfl rfl rfl rfl fun _ _ h => h

/-- In every run that meets the condition, every release of shares for a block happens without a
certificate for its height, and for every other block of the height that shares were released for
before, the certificate of that block was asked for in between, at least a round earlier. -/
theorem shares_justified (p : RoundParams) (n : LockNode)
    (hreach : (lockMachine p).Reachable (Locked p) n) (later earlier : List Sent) (height : ℕ)
    (hash : Uint256) (time : ℤ) (certified : Bool)
    (hsent : n.sent = later ++ .share height hash time certified :: earlier) :
    certified = false ∧ Justified p height hash time earlier := by
  have hinv : LogInv p n := by
    refine Machine.Reachable.invariant ?_ (fun _ _ _ h hlocked hnext => h.next hlocked hnext) hreach
    rintro _ ⟨hash, height, rfl⟩
    exact logInv_init
  exact hinv.history later earlier height hash time certified hsent

/-- A round of ten milliseconds, without anchoring. -/
def shortRound : RoundParams where
  conBitcoinAnchor := false
  roundMs := 10
  roundMs_pos := by decide

/-- A pass that finds a block to back in a round. -/
def backs (hash : Uint256) (roundIndex : ℤ) : RoundView where
  roundIndex := roundIndex
  exhausted := false
  backed := hash
  gapPassed := false

/-- A producer at height 4 signs blocks of the heights 5 and 6, the tip goes back to height 4, and
the producer signs another block of height 5. -/
def rollsBack : List LockEvent :=
  [.step false, .recordCandidate 100 5, .driveRound 0 (backs 100 0), .release true true,
    .setTip 100 5, .step false, .recordCandidate 200 6, .driveRound 20 (backs 200 0),
    .release true true,
    .setTip 1 4, .step false, .recordCandidate 101 5,
    .driveRound 40 (backs 101 0), .release true true]

theorem locked_drive (n : LockNode) (now : ℤ) (view : RoundView) :
    Locked shortRound n (.driveRound now view) := fun _ _ => rfl

theorem exists_reachable_waits : ∃ n, (lockMachine shortRound).Reachable (Locked shortRound) n ∧
    n.sent = [.share 5 101 11 false, .query 100 1, .share 5 100 0 false] := by
  have hround : (lockMachine shortRound).Reachable (Locked shortRound) _ :=
    .next (.driveRound 0 (backs 100 0)) (.next (.recordCandidate 100 5)
      (.next (.step false) (.init ⟨1, 4, rfl⟩) trivial rfl) trivial rfl) (locked_drive _ _ _) rfl
  have hsigned : (lockMachine shortRound).Reachable (Locked shortRound) _ :=
    .next (.release true true) hround
      (fun _ _ ⟨_, _, _, hnone⟩ => absurd hnone not_mem_nil) rfl
  have hwaited : (lockMachine shortRound).Reachable (Locked shortRound) _ :=
    .next (.driveRound 11 (backs 101 1)) (.next (.driveRound 1 (backs 101 1))
      (.next (.recordCandidate 101 5) hsigned trivial rfl) (locked_drive _ _ _) rfl)
      (locked_drive _ _ _) rfl
  refine ⟨_, .next (.release true true) hwaited ?_ rfl, by decide +kernel⟩
  rintro _ ⟨⟩ _
  exact ⟨⟨100, 5, some 1, true⟩, rfl, rfl⟩

/-- A run in which a rival is signed after a round. -/
theorem shares_justified_rival : ∃ n, (lockMachine shortRound).Reachable (Locked shortRound) n ∧
      n.sent = [.share 5 101 11 false, .query 100 1, .share 5 100 0 false] ∧
      Justified shortRound 5 101 11 [.query 100 1, .share 5 100 0 false] := by
  obtain ⟨n, hreach, hsent⟩ := exists_reachable_waits
  exact ⟨n, hreach, hsent, (shares_justified shortRound n hreach [] _ 5 101 11 false hsent).2⟩

/-- After a rollback the lock is at another height: a rival of the first block is signed although
nothing was asked. -/
theorem rollback_signs_rival : ∃ n, (lockMachine shortRound).Reachable (fun _ _ => True) n ∧
      n.sent = [.share 5 101 40 false, .share 6 200 20 false, .share 5 100 0 false] := by
  refine ⟨_, Machine.reachable_run ⟨1, 4, rfl⟩
    (show (lockMachine shortRound).run _ rollsBack = some _ from rfl), by decide +kernel⟩

end Sequentia.Producer
