import Mathlib.Data.List.MinMax
import Mathlib.Data.List.Sort
import Sequentia.Anchor.Caches

/-!
# Checkpoints on the parent chain and the finality floor

A checkpoint is a block and its height committed in a block of the parent chain. The node keeps
every commitment it has seen in a table of bounded size, and on each watcher tick it derives the
finality floor from the table: the highest block of the active chain that a commitment names
which is on the parent's best chain and buried deep enough. When the commitment that holds the
floor cannot be judged because the parent is unreachable, the floor stays.
-/

namespace Sequentia.Anchor

open List

/-- `PosCheckpoint`: a commitment to a block in a block of the parent chain. -/
structure PosCheckpoint where
  /-- The block the commitment names. -/
  seqHash : Uint256
  seqHeight : ℕ
  btcHeight : ℤ
  /-- The parent block. -/
  btcHash : Uint256
  deriving DecidableEq

namespace PosCheckpoint

/-- Two commitments have the same `PosCheckpointKey`. -/
def sameKey (a b : PosCheckpoint) : Bool :=
  a.seqHash == b.seqHash && a.seqHeight == b.seqHeight && a.btcHash == b.btcHash

/-- The order of the `PosCheckpointKey`s. -/
def keyLess (a b : PosCheckpoint) : Bool :=
  compareLex (compareOn seqHash) (compareLex (compareOn seqHeight) (compareOn btcHash)) a b == .lt

end PosCheckpoint

def posCheckpointsMax : ℕ := 100000

/-- The first of the commitments that are lowest on the parent chain. -/
def oldestCheckpoint (table : List PosCheckpoint) : Option PosCheckpoint :=
  @List.argmin _ _ Int.instLinearOrder.toPreorder _ PosCheckpoint.btcHeight table

/-- The table without its oldest commitment, if it is full. -/
def makeRoom (table : List PosCheckpoint) : List PosCheckpoint :=
  if posCheckpointsMax ≤ table.length then
    match oldestCheckpoint table with
    | some oldest => table.erase oldest
    | none => table
  else table

/-- `RecordCheckpointIfPresent`, for an output that holds a commitment. -/
def recordCheckpoint (table : List PosCheckpoint) (c : PosCheckpoint) : List PosCheckpoint :=
  if table.any c.sameKey then table
  else (makeRoom table).orderedInsert (fun a b => a.keyLess b) c

/-- What a pass learns about one commitment: each is judged on its own, at its own moment. -/
structure View where
  /-- What `CheckMainchainAnchor` answers. -/
  verdict : AnchorCheckResult
  indexHeight : Option ℕ
  contained : Bool
  /-- The height of the active chain's tip, if there is one. -/
  tipHeight : Option ℕ
  deriving DecidableEq

def View.onActiveChain (v : View) (c : PosCheckpoint) : Bool :=
  v.indexHeight == some c.seqHeight && v.contained

def View.knownElsewhere (v : View) (c : PosCheckpoint) : Bool :=
  v.indexHeight.any fun height => height != c.seqHeight

def View.chainReachedHeight (v : View) (c : PosCheckpoint) : Bool :=
  v.tipHeight.any fun height => c.seqHeight ≤ height

/-- What a pass has found so far. -/
structure Pass where
  bestHeight : ℤ := -1
  bestHash : Uint256 := 0
  /-- The commitment that gave them, for reasoning only. -/
  bestBy : Option PosCheckpoint := none
  /-- `finalized_indeterminate`. -/
  indeterminate : Bool := false
  conflicts : List PosCheckpoint := []

/-- The checkpoint state of the node. -/
structure FloorNode where
  /-- `g_pos_checkpoints`, in the order of the keys. -/
  checkpoints : List PosCheckpoint := []
  /-- `g_pos_finalized_height`, the finality floor. -/
  finalizedHeight : ℤ := -1
  /-- `g_pos_finalized_hash`. -/
  finalizedHash : Uint256 := 0
  /-- The commitment that holds the floor, for reasoning only. -/
  holder : Option PosCheckpoint := none
  /-- `g_pos_checkpoint_conflicts`. -/
  conflicts : List PosCheckpoint := []

namespace FloorNode

/-- A commitment names the block of the finality point. -/
def namesFloor (n : FloorNode) (c : PosCheckpoint) : Bool :=
  0 ≤ n.finalizedHeight && (c.seqHeight : ℤ) == n.finalizedHeight && c.seqHash == n.finalizedHash

/-- A commitment is buried at least `-poscheckpointdepth` deep. -/
def buried (depth btcTipHeight : ℤ) (c : PosCheckpoint) : Bool :=
  depth ≤ btcTipHeight - c.btcHeight + 1

/-- The turn of a pass for one commitment. -/
def judge (n : FloorNode) (depth btcTipHeight : ℤ) (view : PosCheckpoint → View)
    (pass : Pass) (c : PosCheckpoint) : Pass :=
  if !buried depth btcTipHeight c then pass
  else if (view c).verdict ≠ .ok then
    if (view c).verdict = .noConnection ∧ n.namesFloor c then { pass with indeterminate := true }
    else pass
  else if (view c).onActiveChain c then
    if pass.bestHeight < c.seqHeight then
      { pass with bestHeight := c.seqHeight, bestHash := c.seqHash, bestBy := some c }
    else pass
  else if (view c).chainReachedHeight c && !(view c).knownElsewhere c then
    { pass with conflicts := pass.conflicts ++ [c] }
  else pass

/-- The loop of `UpdatePosFinality`. -/
def pass (n : FloorNode) (depth btcTipHeight : ℤ) (view : PosCheckpoint → View) : Pass :=
  n.checkpoints.foldl (n.judge depth btcTipHeight view) {}

def updatePosFinality (n : FloorNode) (depth btcTipHeight : ℤ) (view : PosCheckpoint → View) :
    FloorNode :=
  if depth ≤ 0 then n
  else
    let pass := n.pass depth btcTipHeight view
    let holdFloor := pass.bestHeight < n.finalizedHeight && pass.indeterminate
    if holdFloor then { n with conflicts := pass.conflicts }
    else
      { n with
        finalizedHeight := pass.bestHeight
        finalizedHash := pass.bestHash
        holder := pass.bestBy
        conflicts := pass.conflicts }

end FloorNode

/-- What happens to the checkpoint state. -/
inductive FloorEvent where
  | observe (c : PosCheckpoint)
  /-- A tick recomputes the floor, with any answers of the parent and any local chain. -/
  | update (btcTipHeight : ℤ) (view : PosCheckpoint → View)

/-- The state after an event. -/
def FloorNode.next (depth : ℤ) (n : FloorNode) : FloorEvent → FloorNode
  | .observe c => { n with checkpoints := recordCheckpoint n.checkpoints c }
  | .update btcTipHeight view => n.updatePosFinality depth btcTipHeight view

/-- The node from its start on, with a `-poscheckpointdepth`. -/
def floorMachine (depth : ℤ) : Machine FloorNode FloorEvent where
  init n := n = {}
  next n e := some (n.next depth e)

/-- The condition on an event: a commitment that is recorded does not push the one that holds the
floor out of a full table. -/
def KeepsHolder (n : FloorNode) : FloorEvent → Prop
  | .observe c => ∀ h ∈ n.holder, h ∈ recordCheckpoint n.checkpoints c
  | .update _ _ => True

namespace FloorNode

variable {n : FloorNode} {depth btcTipHeight : ℤ} {view : PosCheckpoint → View} {c : PosCheckpoint}

/-- A commitment that is buried, on the parent's best chain and names a block of the active
chain. -/
def Qualifies (depth btcTipHeight : ℤ) (view : PosCheckpoint → View) (c : PosCheckpoint) : Prop :=
  buried depth btcTipHeight c = true ∧ (view c).verdict = .ok ∧ (view c).onActiveChain c = true

/-- What a pass has found is a qualifying commitment, and what it could not judge was asked
about. -/
structure Found (n : FloorNode) (depth btcTipHeight : ℤ) (view : PosCheckpoint → View)
    (found : Pass) : Prop where
  best : found.bestHeight = -1 ∨ ∃ c ∈ n.checkpoints, found.bestBy = some c ∧
    found.bestHeight = c.seqHeight ∧ found.bestHash = c.seqHash ∧
    Qualifies depth btcTipHeight view c
  /-- A commitment of the table could not be judged. -/
  asked : found.indeterminate = true → ∃ c ∈ n.checkpoints, (view c).verdict = .noConnection

theorem pass_found (depth btcTipHeight : ℤ) (view : PosCheckpoint → View) :
    Found n depth btcTipHeight view (n.pass depth btcTipHeight view) := by
  refine List.foldlRecOn (motive := Found n depth btcTipHeight view) n.checkpoints _
    ⟨.inl rfl, nofun⟩ ?_
  rintro found ⟨hbest, hasked⟩ c hc
  unfold judge
  split_ifs with hburied hverdict hunknown hactive hhigher
  · exact ⟨hbest, hasked⟩
  · exact ⟨hbest, fun _ => ⟨c, hc, hunknown.1⟩⟩
  · exact ⟨hbest, hasked⟩
  · refine ⟨.inr ⟨c, hc, rfl, rfl, rfl, ?_, ?_, hactive⟩, hasked⟩
    · simpa using hburied
    · simpa using hverdict
  · exact ⟨hbest, hasked⟩
  · exact ⟨hbest, hasked⟩
  · exact ⟨hbest, hasked⟩

theorem judge_facts (n : FloorNode) (depth btcTipHeight : ℤ) (view : PosCheckpoint → View)
    (found : Pass) (c : PosCheckpoint) :
    found.bestHeight ≤ (n.judge depth btcTipHeight view found c).bestHeight ∧
      (found.indeterminate = true →
        (n.judge depth btcTipHeight view found c).indeterminate = true) ∧
      (Qualifies depth btcTipHeight view c →
        (c.seqHeight : ℤ) ≤ (n.judge depth btcTipHeight view found c).bestHeight) ∧
      (buried depth btcTipHeight c = true → (view c).verdict = .noConnection →
        n.namesFloor c = true →
        (n.judge depth btcTipHeight view found c).indeterminate = true) := by
  unfold judge Qualifies
  split_ifs <;> simp_all
  omega

/-- A pass finds at least every qualifying commitment, and notes every commitment of the floor's
block that it cannot judge. -/
theorem pass_complete (depth btcTipHeight : ℤ) (view : PosCheckpoint → View)
    (hc : c ∈ n.checkpoints) :
    (Qualifies depth btcTipHeight view c →
        (c.seqHeight : ℤ) ≤ (n.pass depth btcTipHeight view).bestHeight) ∧
      (buried depth btcTipHeight c = true → (view c).verdict = .noConnection →
        n.namesFloor c = true → (n.pass depth btcTipHeight view).indeterminate = true) := by
  obtain ⟨before, after, hsplit⟩ := append_of_mem hc
  have hafter : ∀ found : Pass,
      found.bestHeight ≤ (after.foldl (n.judge depth btcTipHeight view) found).bestHeight ∧
        (found.indeterminate = true →
          (after.foldl (n.judge depth btcTipHeight view) found).indeterminate = true) := by
    intro found
    refine List.foldlRecOn (motive := fun later : Pass => found.bestHeight ≤ later.bestHeight ∧
      (found.indeterminate = true → later.indeterminate = true)) after _ ⟨Int.le_refl _, id⟩
      fun later hlater a _ => ?_
    obtain ⟨hheight, hflag, -⟩ := judge_facts n depth btcTipHeight view later a
    exact ⟨hlater.1.trans hheight, fun h => hflag (hlater.2 h)⟩
  obtain ⟨-, -, hheight, hflag⟩ := judge_facts n depth btcTipHeight view
    (before.foldl (n.judge depth btcTipHeight view) {}) c
  unfold pass
  rw [hsplit, foldl_append, foldl_cons]
  exact ⟨fun hq => (hheight hq).trans (hafter _).1,
    fun hburied hverdict hnames => (hafter _).2 (hflag hburied hverdict hnames)⟩

/-- The floor is none, or the table holds the commitment that gave it. -/
def Held (n : FloorNode) : Prop :=
  n.finalizedHeight = -1 ∨ ∃ c ∈ n.checkpoints, n.holder = some c ∧
    (c.seqHeight : ℤ) = n.finalizedHeight ∧ c.seqHash = n.finalizedHash

theorem Held.update (hheld : n.Held) (depth btcTipHeight : ℤ) (view : PosCheckpoint → View) :
    (n.updatePosFinality depth btcTipHeight view).Held := by
  unfold updatePosFinality
  dsimp only
  split_ifs
  · exact hheld
  · exact hheld
  · rcases (pass_found (n := n) depth btcTipHeight view).best with
      hnone | ⟨c, hc, hby, hheight, hhash, -⟩
    · exact .inl hnone
    · exact .inr ⟨c, hc, hby, hheight.symm, hhash.symm⟩

theorem Held.next {e : FloorEvent} (hheld : n.Held) (hkeeps : KeepsHolder n e) :
    (n.next depth e).Held := by
  cases e with
  | observe c =>
    rcases hheld with hnone | ⟨h, -, hholder, hnames⟩
    · exact .inl hnone
    · exact .inr ⟨h, hkeeps h hholder, hholder, hnames⟩
  | update btcTipHeight view => exact hheld.update depth btcTipHeight view

theorem held_of_reachable (hreach : (floorMachine depth).Reachable KeepsHolder n) : n.Held :=
  hreach.invariant (fun _ hinit => hinit ▸ .inl rfl) fun _ _ _ hheld hkeeps hnext =>
    Option.some.inj hnext ▸ hheld.next hkeeps

/-- Every commitment of the floor's block that the table holds has failed when a pass lowers the
floor: it is not buried, definitively off the parent's best chain, or its block has left the
active chain. -/
theorem fails_of_lower
    (hlower : (n.updatePosFinality depth btcTipHeight view).finalizedHeight < n.finalizedHeight)
    (hc : c ∈ n.checkpoints) (hheight : (c.seqHeight : ℤ) = n.finalizedHeight)
    (hhash : c.seqHash = n.finalizedHash) :
    buried depth btcTipHeight c = false ∨
      (view c).verdict ∈ [AnchorCheckResult.stale, .notFound, .heightMismatch] ∨
      (view c).onActiveChain c = false := by
  by_contra hstands
  simp only [not_or, Bool.not_eq_false] at hstands
  obtain ⟨hburied, hverdict, hactive⟩ := hstands
  obtain ⟨hfinds, hnotes⟩ := pass_complete depth btcTipHeight view hc
  unfold updatePosFinality at hlower
  dsimp only at hlower
  split_ifs at hlower with hdepth hhold
  · exact Int.lt_irrefl _ hlower
  · exact Int.lt_irrefl _ hlower
  · -- The floor is lowered, so the commitment could be judged: it qualifies.
    have hlow : (n.pass depth btcTipHeight view).bestHeight < n.finalizedHeight := hlower
    cases hres : (view c).verdict with
    | ok =>
      have hle := hfinds ⟨hburied, hres, hactive⟩
      omega
    | noConnection =>
      have hnames : n.namesFloor c = true := by
        simp only [namesFloor, Bool.and_eq_true, decide_eq_true_eq, beq_iff_eq]
        exact ⟨⟨by omega, hheight⟩, hhash⟩
      have hflag := hnotes hburied hres hnames
      simp [hlow, hflag] at hhold
    | stale | notFound | heightMismatch => simp [hres] at hverdict

/-- In runs in which the commitment that holds the floor is never pushed out of the table, the
floor is lowered only by a pass that finds this commitment, and every other one the table holds of
the same block, no longer buried, definitively off the parent's best chain, or with its block off
the active chain. -/
theorem floor_retreats_only (hreach : (floorMachine depth).Reachable KeepsHolder n)
    (e : FloorEvent) (hlower : (n.next depth e).finalizedHeight < n.finalizedHeight) :
    ∃ btcTipHeight view holder, e = .update btcTipHeight view ∧ n.holder = some holder ∧
      holder ∈ n.checkpoints ∧ (holder.seqHeight : ℤ) = n.finalizedHeight ∧
      holder.seqHash = n.finalizedHash ∧
      ∀ c ∈ n.checkpoints, (c.seqHeight : ℤ) = n.finalizedHeight → c.seqHash = n.finalizedHash →
        buried depth btcTipHeight c = false ∨
          (view c).verdict ∈ [AnchorCheckResult.stale, .notFound, .heightMismatch] ∨
          (view c).onActiveChain c = false := by
  cases e with
  | observe c => exact absurd hlower (Int.lt_irrefl _)
  | update btcTipHeight view =>
    rcases held_of_reachable hreach with hnone | ⟨holder, hmem, hholder, hheight, hhash⟩
    · have hge : -1 ≤ ((n.next depth (.update btcTipHeight view)).finalizedHeight) := by
        rcases (held_of_reachable hreach).update depth btcTipHeight view with h | ⟨c, -, -, h, -⟩
        · exact h.ge
        · exact h ▸ by omega
      omega
    · exact ⟨btcTipHeight, view, holder, rfl, hholder, hmem, hheight, hhash,
        fun c hc => fails_of_lower hlower hc⟩

/-- A commitment to block 7 at height 5, in the parent block 100 at height 10. -/
def honest : PosCheckpoint := ⟨7, 5, 10, 100⟩

/-- Commitments to blocks nobody has, in the next parent block. -/
def bogus (i : ℕ) : PosCheckpoint := ⟨8, i, 11, 101⟩

/-- The parent answers with one verdict for all commitments, and of the blocks named block 7 is
on the active chain. -/
def answers (verdict : AnchorCheckResult) (c : PosCheckpoint) : View where
  verdict := verdict
  indexHeight := if c.seqHash = 7 then some 5 else none
  contained := true
  tipHeight := some 5

/-- The honest commitment is seen and holds the floor. -/
def honestFloor : FloorNode where
  checkpoints := [honest]
  finalizedHeight := 5
  finalizedHash := 7
  holder := some honest

theorem reachable_honestFloor : (floorMachine 1).Reachable KeepsHolder honestFloor :=
  .next (.update 20 (answers .ok)) (.next (.observe honest) (.init rfl) nofun rfl) trivial rfl

/-- The parent reorganises the honest commitment away. -/
theorem floor_retreats_only_stale :
    (honestFloor.next 1 (.update 20 (answers .stale))).finalizedHeight = -1 ∧
      ∃ btcTipHeight view holder,
        FloorEvent.update 20 (answers .stale) = .update btcTipHeight view ∧
        honestFloor.holder = some holder := by
  obtain ⟨btcTipHeight, view, holder, he, hholder, -⟩ :=
    floor_retreats_only reachable_honestFloor (.update 20 (answers .stale)) (by decide)
  exact ⟨by decide, btcTipHeight, view, holder, he, hholder⟩

theorem not_sameKey_bogus {table : List PosCheckpoint} {k j : ℕ} (hk : k ≤ j)
    (hperm : table.Perm (honest :: (List.range k).map bogus)) :
    ¬table.any (bogus j).sameKey = true := by
  simp only [any_eq_true, not_exists, not_and, hperm.mem_iff, mem_cons, mem_map,
    mem_range]
  rintro c (rfl | ⟨i, hi, rfl⟩) hsame
  · have hhash : (8 : Uint256) ≠ 7 := by decide
    simp [PosCheckpoint.sameKey, bogus, honest, hhash] at hsame
  · have heq : j = i := by simpa [PosCheckpoint.sameKey, bogus] using hsame
    omega

theorem exists_crowd {k : ℕ} (hk : k < posCheckpointsMax) :
    ∃ table : List PosCheckpoint, table.Perm (honest :: (List.range k).map bogus) ∧
      (floorMachine 1).Reachable (fun _ _ => True) { honestFloor with checkpoints := table } := by
  induction k with
  | zero => exact ⟨[honest], .refl _, reachable_honestFloor.mono fun _ _ _ => trivial⟩
  | succ k ih =>
    obtain ⟨table, hperm, hreach⟩ := ih (Nat.lt_of_succ_lt hk)
    have hroom : makeRoom table = table := by
      have hlength := hperm.length_eq
      rw [length_cons, length_map, length_range] at hlength
      rw [makeRoom, if_neg (by omega)]
    refine ⟨recordCheckpoint table (bogus k), ?_, .next (.observe (bogus k)) hreach trivial rfl⟩
    rw [recordCheckpoint, if_neg (not_sameKey_bogus (Nat.le_refl k) hperm), hroom]
    refine (perm_orderedInsert _ _ _).trans ((hperm.cons _).trans ?_)
    rw [range_succ, map_append, map_singleton]
    exact (perm_append_singleton (bogus k) (honest :: (List.range k).map bogus)).symm

theorem exists_crowded_out : ∃ table : List PosCheckpoint, (∀ c ∈ table, c.seqHash = 8) ∧
      (floorMachine 1).Reachable (fun _ _ => True) { honestFloor with checkpoints := table } := by
  obtain ⟨table, hperm, hreach⟩ := exists_crowd (Nat.sub_lt (by decide : 0 < posCheckpointsMax)
    Nat.one_pos)
  have hmem : ∀ c ∈ table, c = honest ∨ ∃ i < posCheckpointsMax - 1, bogus i = c := by
    intro c hc
    simpa [mem_map] using hperm.mem_iff.mp hc
  have hfresh := not_sameKey_bogus (Nat.sub_le posCheckpointsMax 1) hperm
  have hfull : posCheckpointsMax ≤ table.length := by
    rw [hperm.length_eq, length_cons, length_map, length_range]
    omega
  -- The honest commitment is the only one in the older parent block.
  have holdest : oldestCheckpoint table = some honest := by
    cases hmin : oldestCheckpoint table with
    | none =>
      rw [argmin_eq_none.mp hmin] at hfull
      exact absurd hfull (by decide)
    | some oldest =>
      have hle := le_of_mem_argmin (hperm.mem_iff.mpr mem_cons_self) hmin
      rcases hmem oldest (argmin_mem hmin) with rfl | ⟨i, -, rfl⟩
      · rfl
      · exact absurd hle (by simp [bogus, honest])
  have hnodup : table.Nodup := by
    rw [hperm.nodup_iff, nodup_cons]
    refine ⟨by simp [honest, bogus], nodup_range.map fun i j hij => ?_⟩
    simpa [bogus] using hij
  refine ⟨recordCheckpoint table (bogus posCheckpointsMax), ?_,
    .next (.observe (bogus posCheckpointsMax)) hreach trivial rfl⟩
  intro c hc
  rw [recordCheckpoint, if_neg hfresh, makeRoom, if_pos hfull, holdest,
    mem_orderedInsert] at hc
  rcases hc with rfl | hc
  · rfl
  · obtain ⟨hne, hc⟩ := hnodup.mem_erase_iff.mp hc
    obtain ⟨i, -, rfl⟩ := (hmem c hc).resolve_left hne
    rfl

/-- Commitments posted by others fill the table and push out the one that holds the floor. It is
buried and on the parent's best chain, its block is on the active chain, and the next pass lowers
the floor. -/
theorem crowding_lowers_floor :
    ∃ n, (floorMachine 1).Reachable (fun _ _ => True) n ∧ n.holder = some honest ∧
      Qualifies 1 20 (answers .ok) honest ∧
      (n.next 1 (.update 20 (answers .ok))).finalizedHeight < n.finalizedHeight := by
  obtain ⟨table, hbogus, hreach⟩ := exists_crowded_out
  refine ⟨_, hreach, rfl, ⟨by decide, rfl, by decide⟩, ?_⟩
  set n : FloorNode := { honestFloor with checkpoints := table } with hn
  have hfound := pass_found (n := n) 1 20 (answers .ok)
  have hnone : (n.pass 1 20 (answers .ok)).bestHeight = -1 := by
    refine hfound.best.resolve_right ?_
    rintro ⟨c, hc, -, -, -, -, -, hactive⟩
    have hhash : (8 : Uint256) ≠ 7 := by decide
    simp [View.onActiveChain, answers, hbogus c hc, hhash] at hactive
  have hjudged : (n.pass 1 20 (answers .ok)).indeterminate = false := by
    by_contra hasked
    obtain ⟨c, -, hverdict⟩ := hfound.asked (by simpa using hasked)
    cases hverdict
  have hfloor : n.finalizedHeight = 5 := rfl
  simp [FloorNode.next, updatePosFinality, hnone, hjudged, hfloor]

end FloorNode

end Sequentia.Anchor
