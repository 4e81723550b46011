import Sequentia.Anchor.Checkpoints

/-!
# Scanning the parent chain for checkpoints

When the parent's tip moves, the watcher walks from the new tip down to the position of its last
complete scan, at most `-poscheckpointscan` blocks, and records the commitments it finds. A pass
that is cut short leaves the position alone; a complete one moves it to the new tip. The table
and the position are saved to a file after every commitment recorded and after every complete
pass, and a restarted node reads them back.
-/

namespace Sequentia.Anchor

/-- What a scan has seen: the part of the node's memory that is saved. -/
structure ScanState where
  /-- `g_pos_checkpoints`. -/
  checkpoints : List PosCheckpoint := []
  /-- `g_last_checkpoint_scan_tip`, or none if null. -/
  lastScanTip : Option Uint256 := none
  /-- The parent blocks whose commitments have been recorded, for reasoning only. -/
  scanned : List Uint256 := []
  /-- The height of the lowest block of the first complete pass, for reasoning only. -/
  base : ℕ := 0

/-- The node's memory and the file, if there is one. -/
structure ScanNode where
  mem : ScanState := {}
  /-- `poscheckpoints.dat`. -/
  file : Option ScanState := none

/-- What happens in one turn of the walk. -/
structure Turn where
  /-- The node is told to shut down before the turn. -/
  shutdown : Bool
  served : Bool
  /-- How many commitments of the block are recorded before a reading that fails does so. -/
  partly : ℕ
  /-- Whether the file is written after each commitment. -/
  saves : ℕ → Bool

/-- `SavePosCheckpointState`, which may fail. -/
def ScanNode.savePosCheckpointState (n : ScanNode) (saves : Bool) : ScanNode :=
  if saves then { n with file := some n.mem } else n

/-- `RecordCheckpointIfPresent` for a commitment in a block, with the save that follows it. -/
def ScanNode.record (saves : ℕ → Bool) (n : ScanNode) (found : PosCheckpoint × ℕ) : ScanNode :=
  if n.mem.checkpoints.any found.1.sameKey then n
  else
    { n with mem := { n.mem with checkpoints := recordCheckpoint n.mem.checkpoints found.1 } }
      |>.savePosCheckpointState (saves found.2)

variable (chain : Forest Uint256) (commitments : Uint256 → List (Uint256 × ℕ))

/-- The commitments in a parent block at a height, numbered. -/
def checkpointsIn (block : Uint256) (height : ℤ) : List (PosCheckpoint × ℕ) :=
  ((commitments block).map fun c => (⟨c.1, c.2, height, block⟩ : PosCheckpoint)).zipIdx

/-- `ScanMainchainBlockForCheckpoints`: whether the block was read to its end, and the node. -/
def ScanNode.scanMainchainBlock (n : ScanNode) (turn : Turn) (block : Uint256) (height : ℤ) :
    Bool × ScanNode :=
  let found := checkpointsIn commitments block height
  if turn.served then
    let n := found.foldl (ScanNode.record turn.saves) n
    (true, { n with mem := { n.mem with scanned := block :: n.mem.scanned } })
  else (false, (found.take turn.partly).foldl (ScanNode.record turn.saves) n)

inductive WindowScan where
  | complete
  | interrupted
  deriving DecidableEq

/-- `ScanWindowSequential`, with the number of turns left and the number of the turn. -/
def ScanNode.scanWindowSequential (turns : ℕ → Turn) (lastScanned : Option Uint256)
    (tipHeight : ℤ) : ℕ → ℕ → Option Uint256 → ScanNode → WindowScan × ScanNode
  | 0, _, _, n => (.complete, n)
  | _ + 1, _, none, n => (.complete, n)
  | left + 1, i, some cursor, n =>
    if some cursor = lastScanned then (.complete, n)
    else if (turns i).shutdown then (.interrupted, n)
    else
      match n.scanMainchainBlock commitments (turns i) cursor (tipHeight - i) with
      | (false, n) => (.interrupted, n)
      | (true, n) =>
        n.scanWindowSequential turns lastScanned tipHeight left (i + 1) (chain.parent cursor)

/-- The memory after a complete pass: the position moves to the new tip, and the first complete
pass fixes from where on the chain is scanned. -/
def ScanState.moveTo (s : ScanState) (newTip : Uint256) (window : ℤ) : ScanState :=
  { s with
    lastScanTip := some newTip
    base := if s.lastScanTip = none then chain.height newTip + 1 - window.toNat else s.base }

/-- `ScanNewMainchainBlocks` for a tip whose height the daemon tells, up to the call of
`UpdatePosFinality`. -/
def ScanNode.scanNewMainchainBlocks (n : ScanNode) (window : ℤ) (newTip : Uint256)
    (turns : ℕ → Turn) (saves : Bool) : ScanNode :=
  match n.scanWindowSequential chain commitments turns n.mem.lastScanTip (chain.height newTip)
    window.toNat 0 (some newTip) with
  | (.interrupted, n) => n
  | (.complete, n) => { n with mem := n.mem.moveTo chain newTip window }.savePosCheckpointState saves

/-- What happens to the scan. -/
inductive ScanEvent where
  | scan (newTip : Uint256) (turns : ℕ → Turn) (saves : Bool)
  /-- The node restarts and reads the file back, if it can be read: `LoadPosCheckpointState`. -/
  | restart (readable : Bool)

/-- The state after an event. -/
def ScanNode.next (window : ℤ) (n : ScanNode) : ScanEvent → ScanNode
  | .scan newTip turns saves => n.scanNewMainchainBlocks chain commitments window newTip turns saves
  | .restart readable => { n with mem := if readable then n.file.getD {} else {} }

/-- The node from its first start on. -/
def scanMachine (window : ℤ) : Machine ScanNode ScanEvent where
  init n := n = {}
  next n e := some (n.next chain commitments window e)

/-- The condition on a pass: the blocks between the new tip and the position that lie a window or
more below the new tip have been scanned before. -/
def Covered (window : ℤ) (n : ScanNode) : ScanEvent → Prop
  | .scan newTip _ _ => ∀ last ∈ n.mem.lastScanTip, ∀ b ∈ chain.path newTip, b ∉ chain.path last →
      chain.height b + window.toNat ≤ chain.height newTip → b ∈ n.mem.scanned
  | .restart _ => True

variable {chain commitments} {n m k : ScanNode} {turns : ℕ → Turn} {b cursor newTip : Uint256}
  {window : ℤ}

/-- A walk scans more, leaves the position alone, and what it writes to the file is what it knows
so far. -/
structure Extends (n m : ScanNode) : Prop where
  lastScanTip : m.mem.lastScanTip = n.mem.lastScanTip
  base : m.mem.base = n.mem.base
  scanned : n.mem.scanned ⊆ m.mem.scanned
  /-- The file is the same or was written on the way. -/
  file : m.file = n.file ∨ ∃ s, m.file = some s ∧ s.lastScanTip = n.mem.lastScanTip ∧
    s.base = n.mem.base ∧ n.mem.scanned ⊆ s.scanned

theorem Extends.refl (n : ScanNode) : Extends n n := ⟨rfl, rfl, List.Subset.refl _, .inl rfl⟩

theorem Extends.trans (hnm : Extends n m) (hmk : Extends m k) : Extends n k where
  lastScanTip := hmk.lastScanTip.trans hnm.lastScanTip
  base := hmk.base.trans hnm.base
  scanned := List.Subset.trans hnm.scanned hmk.scanned
  file := by
    rcases hmk.file with hsame | ⟨s, hs, hlast, hbase, hscanned⟩
    · rw [hsame]
      exact hnm.file
    · exact .inr ⟨s, hs, hlast.trans hnm.lastScanTip, hbase.trans hnm.base,
        List.Subset.trans hnm.scanned hscanned⟩

theorem extends_record (saves : ℕ → Bool) (n : ScanNode) (found : PosCheckpoint × ℕ) :
    Extends n (n.record saves found) ∧ (n.record saves found).mem.scanned = n.mem.scanned := by
  unfold ScanNode.record ScanNode.savePosCheckpointState
  split_ifs
  · exact ⟨.refl n, rfl⟩
  · exact ⟨⟨rfl, rfl, List.Subset.refl _, .inr ⟨_, rfl, rfl, rfl, List.Subset.refl _⟩⟩, rfl⟩
  · exact ⟨⟨rfl, rfl, List.Subset.refl _, .inl rfl⟩, rfl⟩

theorem extends_foldl_record (saves : ℕ → Bool) (found : List (PosCheckpoint × ℕ))
    (n : ScanNode) :
    Extends n (found.foldl (ScanNode.record saves) n) ∧
      (found.foldl (ScanNode.record saves) n).mem.scanned = n.mem.scanned := by
  induction found generalizing n with
  | nil => exact ⟨.refl n, rfl⟩
  | cons c found ih =>
    obtain ⟨hext, hsame⟩ := extends_record saves n c
    exact ⟨hext.trans (ih _).1, (ih _).2.trans hsame⟩

theorem scanMainchainBlock_spec (commitments : Uint256 → List (Uint256 × ℕ)) (n : ScanNode)
    (turn : Turn) (block : Uint256) (height : ℤ) :
    Extends n (n.scanMainchainBlock commitments turn block height).2 ∧
      (n.scanMainchainBlock commitments turn block height).2.mem.scanned =
        if (n.scanMainchainBlock commitments turn block height).1 then block :: n.mem.scanned
        else n.mem.scanned := by
  unfold ScanNode.scanMainchainBlock
  dsimp only
  cases turn.served with
  | false => exact extends_foldl_record turn.saves _ n
  | true =>
    obtain ⟨hext, hsame⟩ := extends_foldl_record turn.saves
      (checkpointsIn commitments block height) n
    refine ⟨⟨hext.lastScanTip, hext.base, ?_, hext.file⟩, congrArg (block :: ·) hsame⟩
    exact List.Subset.trans hext.scanned (List.subset_cons_self _ _)

/-- What a walk has scanned in the end: only blocks within the window, and if it is complete, all
of them down to the position. -/
theorem scanWindowSequential_spec (chain : Forest Uint256)
    (commitments : Uint256 → List (Uint256 × ℕ)) (turns : ℕ → Turn) (lastScanned : Option Uint256)
    (tipHeight : ℤ) (left i : ℕ) (n : ScanNode) (cursor : Option Uint256) :
    let result := n.scanWindowSequential chain commitments turns lastScanned tipHeight left i cursor
    Extends n result.2 ∧
      (∀ b ∈ result.2.mem.scanned, b ∈ n.mem.scanned ∨
        ∃ x ∈ cursor, b ∈ chain.path x ∧ chain.height x < chain.height b + left) ∧
      (result.1 = .complete → ∀ x ∈ cursor, ∀ b ∈ chain.path x,
        chain.height x < chain.height b + left → (∀ last ∈ lastScanned, b ∉ chain.path last) →
        b ∈ result.2.mem.scanned) := by
  induction left generalizing i n cursor with
  | zero =>
    refine ⟨.refl n, fun b hb => .inl hb, fun _ x _ b hb hlt => ?_⟩
    exact absurd (Forest.height_le hb) (by omega)
  | succ left ih =>
    cases cursor with
    | none => exact ⟨.refl n, fun b hb => .inl hb, fun _ x hx => nomatch hx⟩
    | some x =>
      rw [ScanNode.scanWindowSequential]
      split_ifs with hlast hshutdown
      · refine ⟨.refl n, fun b hb => .inl hb, fun _ y hy b hb _ hoff => ?_⟩
        cases hy
        exact absurd hb (hoff x hlast.symm)
      · exact ⟨.refl n, fun b hb => .inl hb, nofun⟩
      · obtain ⟨hext, hscanned⟩ := scanMainchainBlock_spec commitments n (turns i) x
          (tipHeight - i)
        generalize n.scanMainchainBlock commitments (turns i) x (tipHeight - i) = read at *
        obtain ⟨done, m⟩ := read
        cases done with
        | false =>
          have hscanned' : m.mem.scanned = n.mem.scanned := hscanned
          exact ⟨hext, fun b hb => .inl (hscanned' ▸ hb), nofun⟩
        | true =>
          have hscanned' : m.mem.scanned = x :: n.mem.scanned := hscanned
          obtain ⟨hext', hwithin, hall⟩ := ih (i + 1) m (chain.parent x)
          refine ⟨hext.trans hext', fun b hb => ?_, fun hcomplete y hy b hb hlt hoff => ?_⟩
          · -- A block scanned later is below the cursor.
            rcases hwithin b hb with hb | ⟨q, hq, hb, hlt⟩
            · rw [hscanned'] at hb
              rcases List.mem_cons.mp hb with rfl | hb
              · exact .inr ⟨b, rfl, Forest.mem_path_self b, by omega⟩
              · exact .inl hb
            · refine .inr ⟨x, rfl, Forest.mem_path_iff.mpr (.inr ⟨q, hq, hb⟩), ?_⟩
              rw [Forest.height_child hq]
              omega
          · cases hy
            rcases Forest.mem_path_iff.mp hb with rfl | ⟨q, hq, hb⟩
            · exact hext'.scanned (hscanned' ▸ List.mem_cons_self)
            · rw [Forest.height_child hq] at hlt
              exact hall hcomplete q hq b hb (by omega) hoff

def Completes (chain : Forest Uint256) (commitments : Uint256 → List (Uint256 × ℕ)) (window : ℤ)
    (n : ScanNode) (newTip : Uint256) (turns : ℕ → Turn) : Prop :=
  (n.scanWindowSequential chain commitments turns n.mem.lastScanTip (chain.height newTip)
    window.toNat 0 (some newTip)).1 = .complete

/-- A pass that is not complete leaves the position alone; a complete one moves it. Either way
what it has scanned is what its walk has. -/
theorem scanNewMainchainBlocks_spec (chain : Forest Uint256)
    (commitments : Uint256 → List (Uint256 × ℕ)) (n : ScanNode) (window : ℤ) (newTip : Uint256)
    (turns : ℕ → Turn) (saves : Bool) :
    ∃ m, Extends n m ∧
      (∀ b ∈ m.mem.scanned, b ∈ n.mem.scanned ∨
        b ∈ chain.path newTip ∧ chain.height newTip < chain.height b + window.toNat) ∧
      (¬Completes chain commitments window n newTip turns →
        n.scanNewMainchainBlocks chain commitments window newTip turns saves = m) ∧
      (Completes chain commitments window n newTip turns →
        n.scanNewMainchainBlocks chain commitments window newTip turns saves =
          { m with mem := m.mem.moveTo chain newTip window }.savePosCheckpointState saves ∧
        ∀ b ∈ chain.path newTip, chain.height newTip < chain.height b + window.toNat →
          (∀ last ∈ n.mem.lastScanTip, b ∉ chain.path last) → b ∈ m.mem.scanned) := by
  obtain ⟨hext, hwithin, hall⟩ := scanWindowSequential_spec chain commitments turns
    n.mem.lastScanTip (chain.height newTip) window.toNat 0 n (some newTip)
  unfold Completes ScanNode.scanNewMainchainBlocks
  generalize n.scanWindowSequential chain commitments turns n.mem.lastScanTip
    (chain.height newTip) window.toNat 0 (some newTip) = result at *
  obtain ⟨outcome, m⟩ := result
  refine ⟨m, hext, fun b hb => ?_, ?_, ?_⟩
  · rcases hwithin b hb with hb | ⟨x, hx, hb⟩
    · exact .inl hb
    · cases hx
      exact .inr hb
  · cases outcome with
    | interrupted => exact fun _ => rfl
    | complete => exact fun h => absurd rfl h
  · cases outcome with
    | interrupted => exact nofun
    | complete => exact fun _ => ⟨rfl, fun b hb hlt hoff => hall rfl newTip rfl b hb hlt hoff⟩

@[simp] theorem savePosCheckpointState_mem (n : ScanNode) (saves : Bool) :
    (n.savePosCheckpointState saves).mem = n.mem := by
  unfold ScanNode.savePosCheckpointState
  split <;> rfl

/-- Every block from the base up to the position has been scanned. -/
def ScanState.Complete (chain : Forest Uint256) (s : ScanState) : Prop :=
  ∀ last ∈ s.lastScanTip, ∀ b ∈ chain.path last, s.base ≤ chain.height b → b ∈ s.scanned

/-- Both the memory and the file are complete. -/
def ScanNode.Complete (chain : Forest Uint256) (n : ScanNode) : Prop :=
  n.mem.Complete chain ∧ ∀ s ∈ n.file, s.Complete chain

theorem ScanState.Complete.mono {s t : ScanState} (hs : s.Complete chain)
    (hlast : t.lastScanTip = s.lastScanTip) (hbase : t.base = s.base)
    (hscanned : s.scanned ⊆ t.scanned) : t.Complete chain := by
  intro last hl b hb hle
  exact hscanned (hs last (hlast ▸ hl) b hb (hbase ▸ hle))

theorem Extends.complete (hext : Extends n m) (hn : n.Complete chain) : m.Complete chain := by
  refine ⟨hn.1.mono hext.lastScanTip hext.base hext.scanned, fun s hs => ?_⟩
  rcases hext.file with hsame | ⟨t, ht, hlast, hbase, hscanned⟩
  · exact hn.2 s (hsame ▸ hs)
  · cases Option.some.inj (ht.symm.trans hs)
    exact hn.1.mono hlast hbase hscanned

/-- A complete pass whose gap is covered keeps everything below the new position scanned. -/
theorem complete_moveTo (hn : n.Complete chain) (hext : Extends n m)
    (hcovered : ∀ last ∈ n.mem.lastScanTip, ∀ b ∈ chain.path newTip, b ∉ chain.path last →
      chain.height b + window.toNat ≤ chain.height newTip → b ∈ n.mem.scanned)
    (hall : ∀ b ∈ chain.path newTip, chain.height newTip < chain.height b + window.toNat →
      (∀ last ∈ n.mem.lastScanTip, b ∉ chain.path last) → b ∈ m.mem.scanned) :
    (m.mem.moveTo chain newTip window).Complete chain := by
  rintro _ ⟨rfl⟩ b hb hle
  have hbase : (m.mem.moveTo chain newTip window).base =
      if n.mem.lastScanTip = none then chain.height newTip + 1 - window.toNat
      else n.mem.base := by
    rw [ScanState.moveTo, hext.lastScanTip, hext.base]
  rw [hbase] at hle
  cases hlast : n.mem.lastScanTip with
  | none =>
    rw [if_pos hlast] at hle
    exact hall b hb (by omega) (by simp [hlast])
  | some last =>
    rw [if_neg (by simp [hlast])] at hle
    by_cases hold : b ∈ chain.path last
    · exact hext.scanned (hn.1 last hlast b hold hle)
    · rcases Nat.lt_or_ge (chain.height newTip) (chain.height b + window.toNat) with hlt | hge
      · exact hall b hb hlt fun last' hlast' => by
          rw [hlast] at hlast'
          cases hlast'
          exact hold
      · exact hext.scanned (hcovered last hlast b hb hold hge)

theorem ScanNode.Complete.next {e : ScanEvent} (hn : n.Complete chain)
    (hcovered : Covered chain window n e) :
    (n.next chain commitments window e).Complete chain := by
  cases e with
  | restart readable =>
    refine ⟨?_, hn.2⟩
    unfold ScanNode.next
    cases readable with
    | false => exact fun last hl => nomatch hl
    | true =>
      cases hfile : n.file with
      | none => exact fun last hl => nomatch hl
      | some s => exact hn.2 s hfile
  | scan newTip turns saves =>
    obtain ⟨m, hext, -, hinterrupted, hcomplete⟩ :=
      scanNewMainchainBlocks_spec chain commitments n window newTip turns saves
    rw [ScanNode.next]
    by_cases hc : Completes chain commitments window n newTip turns
    · obtain ⟨heq, hall⟩ := hcomplete hc
      have hmoved := complete_moveTo hn hext hcovered hall
      rw [heq]
      refine ⟨by rwa [savePosCheckpointState_mem], fun s hs => ?_⟩
      unfold ScanNode.savePosCheckpointState at hs
      split_ifs at hs
      · cases hs
        exact hmoved
      · exact (hext.complete hn).2 s hs
    · rw [hinterrupted hc]
      exact hext.complete hn

theorem complete_of_reachable
    (hreach : (scanMachine chain commitments window).Reachable (Covered chain window) n) :
    n.Complete chain := by
  refine hreach.invariant ?_ fun _ _ _ hn hcovered hnext => Option.some.inj hnext ▸ hn.next hcovered
  rintro _ rfl
  exact ⟨(fun _ hlast => nomatch hlast), fun _ hfile => nomatch hfile⟩

/-- The scan position. A pass that is cut short leaves it alone. A complete pass moves it to the
new tip: the first one has scanned its whole window, and a later one has scanned every block
between the new tip and the previous position exactly if its gap was covered. In runs in which the
gap of every pass is covered, every block from the base of the first scan up to the position has
been scanned. -/
theorem scan_position_complete (chain : Forest Uint256)
    (commitments : Uint256 → List (Uint256 × ℕ)) (window : ℤ) :
    (∀ (n : ScanNode) newTip turns saves, ¬Completes chain commitments window n newTip turns →
      (n.scanNewMainchainBlocks chain commitments window newTip turns saves).mem.lastScanTip =
        n.mem.lastScanTip) ∧
    (∀ (n : ScanNode) newTip turns saves, Completes chain commitments window n newTip turns →
      let after := n.scanNewMainchainBlocks chain commitments window newTip turns saves
      after.mem.lastScanTip = some newTip ∧
        (n.mem.lastScanTip = none → ∀ b ∈ chain.path newTip,
          chain.height newTip < chain.height b + window.toNat → b ∈ after.mem.scanned) ∧
        ∀ last, n.mem.lastScanTip = some last →
          ((∀ b ∈ chain.path newTip, b ∉ chain.path last → b ∈ after.mem.scanned) ↔
            Covered chain window n (.scan newTip turns saves))) ∧
    ∀ n, (scanMachine chain commitments window).Reachable (Covered chain window) n →
      ∀ last, n.mem.lastScanTip = some last →
        ∀ b ∈ chain.path last, n.mem.base ≤ chain.height b → b ∈ n.mem.scanned := by
  refine ⟨fun n newTip turns saves hnot => ?_, fun n newTip turns saves hcomplete => ?_,
    fun n hreach => (complete_of_reachable hreach).1⟩
  · obtain ⟨m, hext, -, hsame, -⟩ :=
      scanNewMainchainBlocks_spec chain commitments n window newTip turns saves
    rw [hsame hnot]
    exact hext.lastScanTip
  · obtain ⟨m, hext, hwithin, -, hdone⟩ :=
      scanNewMainchainBlocks_spec chain commitments n window newTip turns saves
    obtain ⟨heq, hall⟩ := hdone hcomplete
    simp only [heq, savePosCheckpointState_mem]
    refine ⟨rfl, fun hfirst b hb hlt => hall b hb hlt (by simp [hfirst]), fun last hlast => ?_⟩
    constructor
    · intro hscanned last' hlast' b hb hoff hdeep
      cases Option.some.inj (hlast.symm.trans hlast')
      exact (hwithin b (hscanned b hb hoff)).resolve_right fun hnear => by omega
    · intro hcovered b hb hoff
      rcases Nat.lt_or_ge (chain.height newTip) (chain.height b + window.toNat) with hlt | hge
      · exact hall b hb hlt fun last' hlast' => by
          cases Option.some.inj (hlast.symm.trans hlast')
          exact hoff
      · exact hext.scanned (hcovered last hlast b hb hoff hge)

/-- A chain without forks, a block for every number. -/
def lineChain : Forest Uint256 where
  parent x := if x.val.toNat = 0 then none else some ⟨BitVec.ofNat 256 (x.val.toNat - 1)⟩
  ancestors x := (List.range x.val.toNat).reverse.map fun k => ⟨BitVec.ofNat 256 k⟩
  ancestors_eq x := by
    have hlt := x.val.isLt
    generalize x.val.toNat = k at hlt
    cases k with
    | zero => rfl
    | succ k =>
      rw [if_neg (Nat.succ_ne_zero k), List.range_succ, List.reverse_append]
      simp only [Nat.add_sub_cancel, BitVec.toNat_ofNat, Nat.mod_eq_of_lt (Nat.lt_of_succ_lt hlt)]
      rfl

/-- A parent daemon that answers everything, and parent blocks without commitments. -/
def allServed (_ : ℕ) : Turn := ⟨false, true, 0, fun _ => true⟩

def defaultPosCheckpointScan : ℤ := 100

def scannedFirst : ScanNode :=
  ({} : ScanNode).next lineChain (fun _ => []) defaultPosCheckpointScan (.scan 0 allServed true)

theorem reachable_scannedFirst :
    (scanMachine lineChain (fun _ => []) defaultPosCheckpointScan).Reachable
      (Covered lineChain defaultPosCheckpointScan) scannedFirst :=
  .next (.scan 0 allServed true) (.init rfl) (fun _ hlast => nomatch hlast) rfl

/-- The first block is scanned. -/
theorem scan_position_complete_first : (0 : Uint256) ∈ scannedFirst.mem.scanned :=
  (scan_position_complete lineChain (fun _ => []) defaultPosCheckpointScan).2.2 scannedFirst
    reachable_scannedFirst 0 (by decide +kernel) 0 (Forest.mem_path_self 0) (by decide +kernel)

/-- The node is away while the parent grows by two hundred blocks. The pass at its return scans
one hundred, is complete and moves the position: block 50 is below the position, above the first
scanned block, and was not scanned. -/
theorem wide_gap_skips :
    ∃ n, (scanMachine lineChain (fun _ => []) defaultPosCheckpointScan).Reachable
        (fun _ _ => True) n ∧
      n.mem.lastScanTip = some 200 ∧ (50 : Uint256) ∈ lineChain.path 200 ∧
      n.mem.base ≤ lineChain.height 50 ∧ (50 : Uint256) ∉ n.mem.scanned :=
  ⟨_, .next (.scan 200 allServed true) (reachable_scannedFirst.mono fun _ _ _ => trivial) trivial
      rfl,
    by decide +kernel, by decide +kernel, by decide +kernel, by decide +kernel⟩

end Sequentia.Anchor
