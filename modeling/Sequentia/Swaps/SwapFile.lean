import Sequentia.Swaps.Secret
import Sequentia.Lib.Runs
import Mathlib.Logic.Function.Basic

/-!
# The file of swaps

Conversions and resume passes share one file, which each of them reads as a whole, changes in
memory and writes as a whole: the file is truncated first and written then. A conversion saves its
record before and after it sends the asset leg, and a save keeps only the 100 newest records. The
machine interleaves any number of passes and stops the node anywhere. A funded swap is on the file
whenever no pass is in the middle of a write or between the send and its save, provided no two
passes hold a copy of the file at the same time, the node does not stop at such a moment, the
records a save drops are finished and no two conversions share an offer and a second.
-/

namespace Sequentia

open List

/-- What tells the records of two conversions apart. -/
def XchainSwap.key (s : XchainSwap) : String × ℤ := (s.offerId, s.time)

/-- A pass at work on the file. -/
inductive SwapTask
  | converting (s : XchainSwap) (due : Bool)
  /-- A conversion in `SaveSwap`, with the list it is going to write. -/
  | saving (s : XchainSwap) (all : List XchainSwap)
  /-- A resume pass: the records it is done with, those it still has to visit, and `dirty`. -/
  | resuming (visited rest : List XchainSwap) (dirty : Bool)
  /-- `StoreSwaps` has truncated the file and not yet written it. -/
  | storing (conversion : Option XchainSwap) (all : List XchainSwap)

def SwapTask.record : SwapTask → Option XchainSwap
  | .converting s _ => some s
  | .saving s _ => some s
  | .resuming _ _ _ => none
  | .storing conversion _ => conversion

/-- The copy of the file that a pass holds. -/
def SwapTask.copy : SwapTask → Option (List XchainSwap)
  | .converting _ _ => none
  | .saving _ all => some all
  | .resuming visited rest _ => some (visited ++ rest)
  | .storing _ all => some all

/-- The pass has truncated the file. -/
def SwapTask.isStoring : SwapTask → Bool
  | .storing _ _ => true
  | _ => false

/-- The file, the passes at work, and what has happened on the chain. -/
structure SwapFileState where
  /-- What `LoadXchainSwaps` reads. -/
  file : List XchainSwap
  /-- The passes. -/
  tasks : ℕ → Option SwapTask
  funded : List XchainSwap
  /-- The legs of the swaps that have been claimed or refunded. -/
  finished : List (Option COutPoint)

/-- What can happen next. -/
inductive SwapFileEvent
  /-- A conversion has verified the maker's lock. -/
  | start (i : ℕ) (s : XchainSwap)
  /-- It reads the parent chain; after the wait a save is due, after the last look none. -/
  | look (i : ℕ) (height : ℤ) (due : Bool)
  /-- `SaveSwap` reads the file. -/
  | load (i : ℕ)
  /-- `ResumeXchainSwaps` reads the file. -/
  | resume (i : ℕ)
  /-- The resume pass comes to the next record. -/
  | visit (i : ℕ) (view : ResumeView)
  /-- `StoreSwaps` opens the file. -/
  | truncate (i : ℕ)
  /-- `StoreSwaps` has written it. -/
  | write (i : ℕ)
  /-- The conversion has sent its asset leg. -/
  | broadcast (i : ℕ) (redeem : CScript) (outpoint : COutPoint)
  /-- The pass ends: nothing to save, or it gave up or failed. -/
  | finish (i : ℕ)
  /-- The node stops; the file stays as it is. -/
  | crash

/-- The record of a conversion whose asset leg has been sent. -/
def XchainSwap.fund (s : XchainSwap) (redeem : CScript) (outpoint : COutPoint) : XchainSwap :=
  { s with
    seqRedeem := redeem
    seqFundTxid := some outpoint.hash
    seqFundVout := outpoint.n
    state := .seqFunded }

/-- The state with one pass changed. -/
def SwapFileState.set (st : SwapFileState) (i : ℕ) (task : Option SwapTask) : SwapFileState :=
  { st with tasks := Function.update st.tasks i task }

def SwapFileState.next (crypto : Crypto) (st : SwapFileState) :
    SwapFileEvent → Option SwapFileState
  | .start i s =>
    match st.tasks i with
    | none => if s.state = .btcLocked then some (st.set i (some (.converting s true))) else none
    | _ => none
  | .look i height due =>
    match st.tasks i with
    | some (.converting s _) =>
      if s.state = .btcLocked then
        some (st.set i (some (.converting { s with btcLegHeight := height } due)))
      else none
    | _ => none
  | .load i =>
    match st.tasks i with
    | some (.converting s true) => some (st.set i (some (.saving s (saveSwap st.file s))))
    | _ => none
  | .resume i =>
    match st.tasks i with
    | none => some (st.set i (some (.resuming [] st.file false)))
    | _ => none
  | .visit i view =>
    match st.tasks i with
    | some (.resuming visited (s :: rest) dirty) =>
      let r := resumeSwap crypto view s
      some { st.set i (some (.resuming (visited ++ [r.1]) rest (dirty || r.2))) with
        finished := if s.state = .seqFunded ∧ r.1.state ≠ .seqFunded then
          s.fundingOutpoint :: st.finished else st.finished }
    | _ => none
  | .truncate i =>
    match st.tasks i with
    | some (.saving s all) => some { st.set i (some (.storing (some s) all)) with file := [] }
    | some (.resuming visited [] true) =>
      some { st.set i (some (.storing none visited)) with file := [] }
    | _ => none
  | .write i =>
    match st.tasks i with
    | some (.storing s all) =>
      some { st.set i (s.map fun s => .converting s false) with file := all }
    | _ => none
  | .broadcast i redeem outpoint =>
    match st.tasks i with
    | some (.converting s _) =>
      if s.state = .btcLocked then
        some { st.set i (some (.converting (s.fund redeem outpoint) true)) with
          funded := s.fund redeem outpoint :: st.funded }
      else none
    | _ => none
  | .finish i =>
    match st.tasks i with
    | some (.converting s due) =>
      if s.state = .seqFunded ∧ due = true then none else some (st.set i none)
    | some (.resuming _ _ _) => some (st.set i none)
    | _ => none
  | .crash => some { st with tasks := fun _ => none }

/-- The node starts with any file and nothing at work. -/
def swapFileMachine (crypto : Crypto) : Machine SwapFileState SwapFileEvent where
  init st := (∀ i, st.tasks i = none) ∧ st.funded = [] ∧ st.finished = []
  next := SwapFileState.next crypto

/-- A record from which a restarted node can finish or unwind the swap. -/
def LiveRecord (r f : XchainSwap) : Prop :=
  r.state = .seqFunded ∧ r.key = f.key ∧ r.takerSeqRefundPriv = f.takerSeqRefundPriv ∧
    r.takerBtcClaimPriv = f.takerBtcClaimPriv ∧ r.seqRedeem = f.seqRedeem ∧
    r.fundingOutpoint = f.fundingOutpoint

instance (r f : XchainSwap) : Decidable (LiveRecord r f) := inferInstanceAs (Decidable (_ ∧ _))

def HasLive (all : List XchainSwap) (f : XchainSwap) : Prop := ∃ r ∈ all, LiveRecord r f

instance (all : List XchainSwap) (f : XchainSwap) : Decidable (HasLive all f) :=
  inferInstanceAs (Decidable (∃ r ∈ all, _))

/-- The file has a live record of every swap that was funded and neither claimed nor refunded. -/
def SwapFileState.Durable (st : SwapFileState) : Prop :=
  ∀ f ∈ st.funded, f.fundingOutpoint ∉ st.finished → HasLive st.file f

instance (st : SwapFileState) : Decidable st.Durable :=
  inferInstanceAs (Decidable (∀ f ∈ st.funded, _ → _))

/-- No pass has truncated the file, or has sent an asset leg and not yet saved that. -/
def SwapFileState.Quiet (st : SwapFileState) : Prop :=
  ∀ i, match st.tasks i with
    | some (.converting s due) => s.state = .seqFunded → due = false
    | some (.saving s _) => s.state ≠ .seqFunded
    | some (.storing _ _) => False
    | _ => True

/-- No pass holds a copy of the file. -/
def SwapFileState.Unheld (st : SwapFileState) : Prop :=
  ∀ i task, st.tasks i = some task → task.copy = none

/-- The conditions under which the file keeps its promise. -/
def SwapFileState.Orderly (st : SwapFileState) : SwapFileEvent → Prop
  | .start _ s => (∀ f ∈ st.funded, f.key ≠ s.key) ∧
      ∀ i task r, st.tasks i = some task → task.record = some r → r.key ≠ s.key
  | .load i => st.Unheld ∧ ∀ s, st.tasks i = some (.converting s true) →
      ∀ r ∈ (replaceSwap s st.file).take ((replaceSwap s st.file).length - 100), r.terminal = true
  | .resume _ => st.Unheld
  | .crash => st.Quiet
  | _ => True

theorem mem_replaceSwap_self (s : XchainSwap) (all : List XchainSwap) :
    s ∈ replaceSwap s all := by
  induction all with
  | nil => exact mem_singleton_self s
  | cons e all ih =>
    rw [replaceSwap]
    split
    · exact mem_cons_self
    · exact mem_cons_of_mem _ ih

variable {s r f : XchainSwap}

/-- A record of another conversion stays. -/
theorem mem_replaceSwap {all : List XchainSwap} (hr : r ∈ all) (hkey : r.key ≠ s.key) :
    r ∈ replaceSwap s all := by
  induction all with
  | nil => cases hr
  | cons e all ih =>
    rw [replaceSwap]
    rcases mem_cons.mp hr with rfl | hr
    · rw [if_neg fun h => hkey (Prod.ext h.1 h.2)]
      exact mem_cons_self
    · split
      · exact mem_cons_of_mem _ hr
      · exact mem_cons_of_mem _ (ih hr)

/-- A record that is not finished is not dropped. -/
theorem mem_saveSwap {all : List XchainSwap}
    (hdropped : ∀ r ∈ (replaceSwap s all).take ((replaceSwap s all).length - 100),
      r.terminal = true) (hr : r ∈ replaceSwap s all) (hlive : r.terminal = false) :
    r ∈ saveSwap all s := by
  rw [← take_append_drop ((replaceSwap s all).length - 100) (replaceSwap s all)] at hr
  rcases mem_append.mp hr with hr | hr
  · rw [hdropped r hr] at hlive
    cases hlive
  · exact hr

theorem liveRecord_self (hfunded : s.state = .seqFunded) : LiveRecord s s :=
  ⟨hfunded, rfl, rfl, rfl, rfl, rfl⟩

theorem LiveRecord.not_terminal (hlive : LiveRecord r f) : r.terminal = false := by
  simp [XchainSwap.terminal, hlive.1]

theorem liveRecord_resumeSwap {crypto : Crypto} {view : ResumeView} (hlive : LiveRecord r f)
    (hstate : (resumeSwap crypto view r).1.state = .seqFunded) :
    LiveRecord (resumeSwap crypto view r).1 f := by
  have hstep := resumeStep_resumeSwap crypto view r
  generalize (resumeSwap crypto view r).1 = r' at hstep hstate ⊢
  cases hstep with
  | kept h => exact absurd hlive.1 h
  | retired _ _ h => exact absurd hlive.1 h
  | claimed => cases hstate
  | refunded => cases hstate
  | waiting error _ =>
    rw [takeSecret_eq]
    exact hlive

end Sequentia
