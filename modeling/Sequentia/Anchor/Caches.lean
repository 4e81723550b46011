import Sequentia.Lib.Forest
import Sequentia.Lib.Runs
import Sequentia.Transaction

/-!
# The anchor caches and the parent's best chain

A block is anchored to a block of the parent chain, and the node remembers what the parent daemon
said about an anchor: `g_anchor_ok_cache` holds the anchors on the parent's best chain and
`g_anchor_stale_cache` the ones definitively off it. The watcher drops the part of both caches
that a move of the parent's tip may have changed, reasoning from the last tip it recorded.

The parent moves on its own, and every reply of its daemon is about the tip of that moment: a
watcher tick reads the tip, walks back from the recorded one block by block and drops, and
validation asks and stores in between. Each of these is an event of its own.
-/

namespace Sequentia.Anchor

open List

inductive AnchorCheckResult where
  | ok
  | noConnection
  | notFound
  | stale
  | heightMismatch
  deriving DecidableEq

/-- A reply to `getblockheader`. -/
inductive HeaderReply where
  | error (code : Option ℤ)
  /-- No error and no result either. -/
  | noResult
  /-- The header, with the two numbers that are read if they are numbers. -/
  | header (confirmations height : Option ℤ)
  deriving DecidableEq

def rpcInvalidAddressOrKey : ℤ := -5

def interpretAnchorHeaderReply (reply : HeaderReply) (height : ℕ) : AnchorCheckResult :=
  match reply with
  | .error code => if code = some rpcInvalidAddressOrKey then .notFound else .noConnection
  | .noResult => .noConnection
  | .header confirmations blockheight =>
    match confirmations with
    | none => .stale
    | some confirmations =>
      if confirmations < 1 then .stale
      else if blockheight = some (height : ℤ) then .ok
      else .heightMismatch

def anchorOkCacheMax : ℕ := 2 ^ 20

def anchorForkWalkMax : ℕ := 2016

/-- A reply that has come in and is not stored yet. -/
structure Query where
  height : ℕ
  /-- The anchor asked about. -/
  hash : Uint256
  /-- What the daemon said. -/
  reply : HeaderReply
  tip : Uint256
  /-- How often the watcher had dropped by that moment. -/
  drops : ℕ
  deriving DecidableEq

/-- How far a watcher tick has come with a tip that is not the recorded one. -/
inductive Tick where
  | idle
  /-- Inside `MainchainUnchangedHeight`, about to ask for the header of `cursor`. -/
  | walking (best cursor : Uint256) (depth : ℕ)
  /-- `MainchainUnchangedHeight` has returned; `none` is `-1`. -/
  | classified (best : Uint256) (unchangedHeight : Option ℕ)
  deriving DecidableEq

/-- The node and the parent chain it watches. -/
structure WatchNode where
  /-- The tip of the parent's best chain. -/
  parent : Uint256
  /-- `g_anchor_ok_cache`. -/
  okCache : List (ℕ × Uint256) := []
  /-- `g_anchor_stale_cache`. -/
  staleCache : List (ℕ × Uint256) := []
  lastMainchainTip : Option Uint256 := none
  /-- Replies that are not stored yet. -/
  asked : List Query := []
  tick : Tick := .idle
  /-- How often the watcher has dropped. -/
  drops : ℕ := 0
  /-- A tick has processed the parent's tip and the parent has not moved since. -/
  processed : Bool := false

def WatchNode.cacheAnchorVerdict (n : WatchNode) (height : ℕ) (hash : Uint256)
    (res : AnchorCheckResult) : WatchNode :=
  match res with
  | .ok =>
    if n.okCache.length < anchorOkCacheMax then
      { n with okCache := n.okCache.insert (height, hash) }
    else n
  | .stale | .heightMismatch => { n with staleCache := n.staleCache.insert (height, hash) }
  | .noConnection | .notFound => n

/-- `DropAnchorCachesAbove`. -/
def dropAbove (unchangedHeight : Option ℕ) (cache : List (ℕ × Uint256)) : List (ℕ × Uint256) :=
  match unchangedHeight with
  | none => []
  | some unchanged => cache.filter fun e => e.1 ≤ unchanged

/-- The part of `CheckMainchainAnchor` that answers from the caches. -/
def WatchNode.cachedAnswer (n : WatchNode) (height : ℕ) (hash : Uint256) :
    Option AnchorCheckResult :=
  if (height, hash) ∈ n.okCache then some .ok
  else if (height, hash) ∈ n.staleCache then some .stale
  else none

/-- What happens. -/
inductive WatchEvent where
  /-- The parent's best chain changes. -/
  | move (tip : Uint256)
  /-- The daemon replies to a question about an anchor, asked by `CheckMainchainAnchor` or
  `PrefetchAnchorVerdicts`. -/
  | ask (height : ℕ) (hash : Uint256) (reply : HeaderReply)
  | store (query : Query)
  | tickStart
  /-- The daemon replies, or does not, to one question of `MainchainUnchangedHeight`. -/
  | walk (answered : Bool)
  /-- A tick records the tip it has read and drops. -/
  | commit

variable (chain : Forest Uint256)

/-- A reply is what a daemon with this tip says: it may fail, but a header it returns has the
block's height, and at least one confirmation exactly when the block is on the best chain. -/
def Truthful (tip hash : Uint256) : HeaderReply → Prop
  | .header confirmations height =>
    height = some (chain.height hash : ℤ) ∧
      ∃ c ∈ confirmations, 1 ≤ c ↔ hash ∈ chain.path tip
  | _ => True

instance (tip hash : Uint256) (reply : HeaderReply) : Decidable (Truthful chain tip hash reply) :=
  match reply with
  | .header none _ => .isFalse fun h => by obtain ⟨-, c, hc, -⟩ := h; cases hc
  | .header (some c) height =>
    decidable_of_iff (height = some (chain.height hash : ℤ) ∧ (1 ≤ c ↔ hash ∈ chain.path tip)) (by
      simp [Truthful])
  | .error _ => .isTrue trivial
  | .noResult => .isTrue trivial

/-- One turn of the loop of `MainchainUnchangedHeight`. -/
def unchangedHeightTurn (parent best cursor : Uint256) (depth : ℕ) (answered : Bool) : Tick :=
  if !answered then .classified best none
  else if cursor ∈ chain.path parent then .classified best (some (chain.height cursor))
  else match chain.parent cursor with
    | none => .classified best none
    | some prev =>
      if depth + 1 ≤ anchorForkWalkMax then .walking best prev (depth + 1)
      else .classified best none

/-- The state after an event. -/
def WatchNode.next (n : WatchNode) : WatchEvent → Option WatchNode
  | .move tip => some { n with parent := tip, processed := false }
  | .ask height hash reply =>
    if Truthful chain n.parent hash reply then
      some { n with asked := ⟨height, hash, reply, n.parent, n.drops⟩ :: n.asked }
    else none
  | .store query =>
    if query ∈ n.asked then
      some (n.cacheAnchorVerdict query.height query.hash
        (interpretAnchorHeaderReply query.reply query.height))
    else none
  | .tickStart =>
    if n.tick = .idle then
      match n.lastMainchainTip with
      | none => some { n with tick := .classified n.parent none }
      | some oldTip =>
        if n.parent = oldTip then some { n with processed := true }
        else some { n with tick := .walking n.parent oldTip 0 }
    else none
  | .walk answered =>
    match n.tick with
    | .walking best cursor depth =>
      some { n with tick := unchangedHeightTurn chain n.parent best cursor depth answered }
    | _ => none
  | .commit =>
    match n.tick with
    | .classified best unchangedHeight =>
      some { n with
        lastMainchainTip := some best
        okCache := dropAbove unchangedHeight n.okCache
        staleCache := dropAbove unchangedHeight n.staleCache
        tick := .idle
        drops := n.drops + 1
        processed := best == n.parent }
    | _ => none

/-- The node and the parent from the start of the node on, with the parent at any tip. -/
def watcher : Machine WatchNode WatchEvent where
  init n := ∃ tip, n = { parent := tip }
  next := WatchNode.next chain

/-- The condition on an event: the parent neither moves while a tick compares two tips nor returns
to the recorded tip, and a reply is stored before the next drop, where the chain it is about has
at its height the block that the recorded tip's chain has there, if that is high enough. -/
def Steady (n : WatchNode) : WatchEvent → Prop
  | .move tip => n.tick = .idle ∧ n.lastMainchainTip ≠ some tip
  | .store query =>
    query.drops = n.drops ∧
      ∀ oldTip ∈ n.lastMainchainTip, query.height ≤ chain.height oldTip →
        chain.atHeight oldTip query.height = chain.atHeight query.tip query.height
  | _ => True

variable {chain} {n m : WatchNode} {tip hash : Uint256} {reply : HeaderReply} {height : ℕ}

/-- A header with a verdict: the block is the one at the height on the daemon's best chain exactly
when the verdict is that it is. -/
theorem Truthful.interpret (htruthful : Truthful chain tip hash reply) (height : ℕ) :
    (interpretAnchorHeaderReply reply height = .ok → chain.atHeight tip height = some hash) ∧
      (interpretAnchorHeaderReply reply height = .stale ∨
          interpretAnchorHeaderReply reply height = .heightMismatch →
        chain.atHeight tip height ≠ some hash) := by
  simp only [Forest.atHeight_eq_some_iff, ne_eq]
  cases reply with
  | error code =>
    rw [interpretAnchorHeaderReply]
    split <;> simp
  | noResult => simp [interpretAnchorHeaderReply]
  | header confirmations blockheight =>
    obtain ⟨rfl, c, hc, hbest⟩ := htruthful
    rw [Option.mem_def.mp hc, interpretAnchorHeaderReply]
    by_cases hfew : c < 1
    · have hoff : hash ∉ chain.path tip := fun h => absurd (hbest.mpr h) (Int.not_le.mpr hfew)
      simp [hfew, hoff]
    · have hon : hash ∈ chain.path tip := hbest.mp (Int.not_lt.mp hfew)
      by_cases hheight : chain.height hash = height <;>
        simp [hfew, hon, hheight, Int.natCast_inj]

/-- What the watcher's state says about the caches. -/
structure Inv (chain : Forest Uint256) (n : WatchNode) : Prop where
  /-- Replies are what the daemon said about the tip they were given for. -/
  truthful : ∀ q ∈ n.asked, Truthful chain q.tip q.hash q.reply
  drops_le : ∀ q ∈ n.asked, q.drops ≤ n.drops
  stayed : ∀ q ∈ n.asked, q.drops = n.drops → n.lastMainchainTip = some n.parent →
    q.tip = n.parent
  canonical : ∀ oldTip, n.lastMainchainTip = some oldTip → ∀ e ∈ n.okCache,
    e.1 ≤ chain.height oldTip → chain.atHeight oldTip e.1 = some e.2
  below : n.lastMainchainTip = some n.parent → ∀ e ∈ n.okCache, e.1 ≤ chain.height n.parent
  stale : ∀ oldTip, n.lastMainchainTip = some oldTip → ∀ e ∈ n.staleCache,
    chain.atHeight oldTip e.1 ≠ some e.2
  processed : n.processed = true → n.lastMainchainTip = some n.parent
  walking : ∀ best cursor depth, n.tick = .walking best cursor depth →
    best = n.parent ∧ ∃ oldTip, n.lastMainchainTip = some oldTip ∧ cursor ∈ chain.path oldTip
  /-- It finds a block of both chains. -/
  classified : ∀ best unchangedHeight, n.tick = .classified best unchangedHeight →
    best = n.parent ∧ ∀ k, unchangedHeight = some k → ∃ oldTip y,
      n.lastMainchainTip = some oldTip ∧ y ∈ chain.path oldTip ∧ y ∈ chain.path n.parent ∧
        chain.height y = k

namespace Inv

variable (hinv : Inv chain n)

include hinv

theorem move (hsteady : Steady chain n (.move tip)) :
    Inv chain { n with parent := tip, processed := false } := by
  obtain ⟨hidle, hlast⟩ := hsteady
  exact { hinv with
    stayed := fun _ _ _ h => absurd h hlast
    below := fun h => absurd h hlast
    processed := fun h => nomatch h
    walking := fun _ _ _ h => nomatch hidle.symm.trans h
    classified := fun _ _ h => nomatch hidle.symm.trans h }

theorem ask (htruthful : Truthful chain n.parent hash reply) :
    Inv chain { n with asked := ⟨height, hash, reply, n.parent, n.drops⟩ :: n.asked } := by
  refine { hinv with truthful := ?_, drops_le := ?_, stayed := ?_ }
  · intro q hq
    rcases mem_cons.mp hq with rfl | hq
    · exact htruthful
    · exact hinv.truthful q hq
  · intro q hq
    rcases mem_cons.mp hq with rfl | hq
    · exact Nat.le_refl _
    · exact hinv.drops_le q hq
  · intro q hq
    rcases mem_cons.mp hq with rfl | hq
    · exact fun _ _ => rfl
    · exact hinv.stayed q hq

theorem store {q : Query} (hq : q ∈ n.asked)
    (hsteady : Steady chain n (.store q)) :
    Inv chain (n.cacheAnchorVerdict q.height q.hash
      (interpretAnchorHeaderReply q.reply q.height)) := by
  obtain ⟨hdrops, hagree⟩ := hsteady
  obtain ⟨hok, hoff⟩ := (hinv.truthful q hq).interpret q.height
  cases hres : interpretAnchorHeaderReply q.reply q.height with
  | ok =>
    rw [WatchNode.cacheAnchorVerdict]
    split
    · refine { hinv with canonical := ?_, below := ?_ }
      · intro oldTip hlast e he hle
        rcases mem_insert_iff.mp he with rfl | he
        · exact (hagree oldTip hlast hle).trans (hok hres)
        · exact hinv.canonical oldTip hlast e he hle
      · intro hlast e he
        rcases mem_insert_iff.mp he with rfl | he
        · have hmem := Forest.atHeight_eq_some_iff.mp (hok hres)
          rw [hinv.stayed q hq hdrops hlast] at hmem
          exact hmem.2 ▸ Forest.height_le hmem.1
        · exact hinv.below hlast e he
    · exact hinv
  | stale | heightMismatch =>
    have hne := hoff (by simp [hres])
    refine { hinv with stale := ?_ }
    intro oldTip hlast e he
    rcases mem_insert_iff.mp he with rfl | he
    · rcases Nat.lt_or_ge (chain.height oldTip) q.height with hlt | hle
      · rw [Forest.atHeight_of_lt hlt]
        exact (Option.some_ne_none _).symm
      · rw [hagree oldTip hlast hle]
        exact hne
    · exact hinv.stale oldTip hlast e he
  | noConnection | notFound => exact hinv

/-- One question of the walk: the walk ends without an answer, ends at a block of both chains or
goes on to the block below. -/
theorem walk {best cursor : Uint256} {depth : ℕ} {answered : Bool}
    (htick : n.tick = .walking best cursor depth) :
    Inv chain { n with
      tick := unchangedHeightTurn chain n.parent best cursor depth answered } := by
  obtain ⟨hbest, oldTip, hlast, hcursor⟩ := hinv.walking _ _ _ htick
  have hnone : Inv chain { n with tick := .classified best none } :=
    { hinv with
      walking := fun _ _ _ h => nomatch h
      classified := fun _ _ h => by cases h; exact ⟨hbest, fun _ hk => nomatch hk⟩ }
  unfold unchangedHeightTurn
  split
  · exact hnone
  · split
    · rename_i hon
      exact { hinv with
        walking := fun _ _ _ h => nomatch h
        classified := fun _ _ h => by
          cases h
          exact ⟨hbest, fun k hk => ⟨oldTip, cursor, hlast, hcursor, hon, Option.some.inj hk⟩⟩ }
    · cases hprev : chain.parent cursor with
      | none => exact hnone
      | some prev =>
        dsimp only
        split
        · have hmem : prev ∈ chain.path cursor := by
            rw [Forest.path_child hprev]
            exact mem_cons_of_mem cursor (Forest.mem_path_self prev)
          exact { hinv with
            walking := fun _ _ _ h => by
              cases h
              exact ⟨hbest, oldTip, hlast, Forest.path_subset hcursor hmem⟩
            classified := fun _ _ h => nomatch h }
        · exact hnone

omit hinv

/-- What is kept is below a block of both chains. -/
theorem mem_dropAbove {unchangedHeight : Option ℕ} {cache : List (ℕ × Uint256)}
    {e : ℕ × Uint256} : e ∈ dropAbove unchangedHeight cache ↔
      e ∈ cache ∧ ∃ k, unchangedHeight = some k ∧ e.1 ≤ k := by
  cases unchangedHeight <;> simp [dropAbove]

theorem commit (hinv : Inv chain n) {best : Uint256} {unchangedHeight : Option ℕ}
    (htick : n.tick = .classified best unchangedHeight) :
    Inv chain { n with
      lastMainchainTip := some best
      okCache := dropAbove unchangedHeight n.okCache
      staleCache := dropAbove unchangedHeight n.staleCache
      tick := .idle
      drops := n.drops + 1
      processed := best == n.parent } := by
  obtain ⟨rfl, hcommon⟩ := hinv.classified _ _ htick
  -- A kept height has the same block on the chains of the old and the new tip.
  have hsame : ∀ k, unchangedHeight = some k → ∀ h ≤ k, ∃ oldTip,
      n.lastMainchainTip = some oldTip ∧ h ≤ chain.height oldTip ∧ h ≤ chain.height n.parent ∧
        chain.atHeight n.parent h = chain.atHeight oldTip h := by
    intro k hk h hle
    obtain ⟨oldTip, y, hlast, hold, hnew, rfl⟩ := hcommon k hk
    refine ⟨oldTip, hlast, hle.trans (Forest.height_le hold), hle.trans (Forest.height_le hnew), ?_⟩
    rw [Forest.atHeight_eq hold hle, Forest.atHeight_eq hnew hle]
  refine { hinv with
    drops_le := fun q hq => Nat.le_succ_of_le (hinv.drops_le q hq)
    stayed := ?_, canonical := ?_, below := ?_, stale := ?_
    processed := fun h => congrArg some (beq_iff_eq.mp h)
    walking := fun _ _ _ h => nomatch h
    classified := fun _ _ h => nomatch h }
  · intro q hq (hdrops : q.drops = n.drops + 1)
    have hle := hinv.drops_le q hq
    omega
  · rintro _ ⟨rfl⟩ e he -
    obtain ⟨he, k, hk, hle⟩ := mem_dropAbove.mp he
    obtain ⟨oldTip, hlast, hold, -, heq⟩ := hsame k hk e.1 hle
    exact heq.trans (hinv.canonical oldTip hlast e he hold)
  · intro _ e he
    obtain ⟨he, k, hk, hle⟩ := mem_dropAbove.mp he
    obtain ⟨_, _, _, hnew, _⟩ := hsame k hk e.1 hle
    exact hnew
  · rintro _ ⟨rfl⟩ e he
    obtain ⟨he, k, hk, hle⟩ := mem_dropAbove.mp he
    obtain ⟨oldTip, hlast, -, -, heq⟩ := hsame k hk e.1 hle
    exact heq ▸ hinv.stale oldTip hlast e he

theorem next (hinv : Inv chain n) {e : WatchEvent} (hsteady : Steady chain n e)
    (hnext : n.next chain e = some m) : Inv chain m := by
  revert hnext
  fun_cases WatchNode.next chain n e <;> rintro ⟨⟩
  case case1 => exact hinv.move hsteady
  case case2 htruthful => exact hinv.ask htruthful
  case case4 hq => exact hinv.store hq hsteady
  case case6 =>
    exact { hinv with
      walking := fun _ _ _ h => nomatch h
      classified := fun best _ h => by cases h; exact ⟨rfl, fun _ hk => nomatch hk⟩ }
  case case7 hlast => exact { hinv with processed := fun _ => hlast }
  case case8 oldTip hlast _ =>
    exact { hinv with
      walking := fun _ _ _ h => by
        cases h
        exact ⟨rfl, oldTip, hlast, Forest.mem_path_self oldTip⟩
      classified := fun _ _ h => nomatch h }
  case case10 htick => exact hinv.walk htick
  case case12 htick => exact hinv.commit htick

end Inv

theorem inv_of_reachable (hreach : (watcher chain).Reachable (Steady chain) n) : Inv chain n :=
  hreach.invariant (fun _ ⟨_, hinit⟩ => hinit ▸
      ⟨nofun, nofun, nofun, nofun, nofun, nofun, nofun, nofun, nofun⟩)
    fun _ _ _ hinv hsteady hnext => hinv.next hsteady hnext

theorem Truthful.interpret_header {confirmations blockheight : Option ℤ}
    (htruthful : Truthful chain tip hash (.header confirmations blockheight)) :
    interpretAnchorHeaderReply (.header confirmations blockheight) height = .ok ↔
      chain.atHeight tip height = some hash := by
  obtain ⟨hok, hoff⟩ := htruthful.interpret height
  refine ⟨hok, fun hat => ?_⟩
  by_contra hne
  refine hoff ?_ hat
  obtain ⟨-, c, hc, -⟩ := htruthful
  obtain rfl := Option.mem_def.mp hc
  simp only [interpretAnchorHeaderReply] at hne ⊢
  split <;> simp_all

/-- In runs that meet the condition, once a tick has processed the parent's tip and while the
parent stays there, the anchors remembered as canonical are on its best chain, the ones remembered
as stale are not, and a cached answer agrees with the daemon's. -/
theorem caches_agree (hreach : (watcher chain).Reachable (Steady chain) n)
    (hprocessed : n.processed = true) :
    (∀ e ∈ n.okCache, chain.atHeight n.parent e.1 = some e.2) ∧
      (∀ e ∈ n.staleCache, chain.atHeight n.parent e.1 ≠ some e.2) ∧
      ∀ height hash answer confirmations blockheight,
        n.cachedAnswer height hash = some answer →
        Truthful chain n.parent hash (.header confirmations blockheight) →
        (answer = .ok ↔
          interpretAnchorHeaderReply (.header confirmations blockheight) height = .ok) := by
  have hinv := inv_of_reachable hreach
  have hlast := hinv.processed hprocessed
  have hcanonical : ∀ e ∈ n.okCache, chain.atHeight n.parent e.1 = some e.2 :=
    fun e he => hinv.canonical _ hlast e he (hinv.below hlast e he)
  have hstale := hinv.stale _ hlast
  refine ⟨hcanonical, hstale, ?_⟩
  intro height hash answer confirmations blockheight hcached htruthful
  rw [htruthful.interpret_header]
  revert hcached
  fun_cases WatchNode.cachedAnswer n height hash <;> rintro ⟨⟩
  · next hok => exact ⟨fun _ => hcanonical _ hok, fun _ => rfl⟩
  · next hoff => exact ⟨nofun, fun hat => absurd hat (hstale _ hoff)⟩

/-- Two blocks on one parent. -/
def forkChain : Forest Uint256 where
  parent x := if x = 2 ∨ x = 3 then some 1 else none
  ancestors x := if x = 2 ∨ x = 3 then [1] else []
  ancestors_eq x := by
    by_cases hx : x = 2 ∨ x = 3
    · simp only [if_pos hx, List.cons.injEq, true_and]
      decide
    · simp only [if_neg hx]

/-- The node after its first tick, once it has asked about the tip it recorded. -/
def firstTick : WatchNode where
  parent := 2
  okCache := [(1, 2)]
  lastMainchainTip := some 2
  asked := [⟨1, 2, .header (some 1) (some 1), 2, 1⟩]
  drops := 1
  processed := true

theorem caches_agree_first_tick : firstTick.processed = true ∧
      ∀ e ∈ firstTick.okCache, forkChain.atHeight firstTick.parent e.1 = some e.2 := by
  have hreach : (watcher forkChain).Reachable (Steady forkChain) firstTick :=
    .next (.store ⟨1, 2, .header (some 1) (some 1), 2, 1⟩)
      (.next (.ask 1 2 (.header (some 1) (some 1)))
        (.next .commit (.next .tickStart (.init ⟨2, rfl⟩) trivial rfl) trivial rfl) trivial rfl)
      ⟨rfl, by rintro _ ⟨rfl⟩ -; rfl⟩ rfl
  exact ⟨rfl, (caches_agree hreach rfl).1⟩

/-- The parent goes from one block to its sibling and back between two ticks. In between the node
asks about the sibling and remembers it as canonical; the second tick sees the recorded tip and
drops nothing. -/
theorem flap_keeps_sibling :
    ∃ n, (watcher forkChain).Reachable (fun _ _ => True) n ∧ n.processed = true ∧
      ∃ e ∈ n.okCache, forkChain.atHeight n.parent e.1 ≠ some e.2 := by
  have hrun : (watcher forkChain).run { parent := 2 }
      [.tickStart, .commit, .move 3, .ask 1 3 (.header (some 1) (some 1)),
        .store ⟨1, 3, .header (some 1) (some 1), 3, 1⟩, .move 2, .tickStart] =
      some { parent := 2, okCache := [(1, 3)], lastMainchainTip := some 2, drops := 1
             asked := [⟨1, 3, .header (some 1) (some 1), 3, 1⟩], processed := true } := by rfl
  exact ⟨_, Machine.reachable_run ⟨2, rfl⟩ hrun, rfl, (1, 3), mem_singleton_self _, by decide⟩

end Sequentia.Anchor
