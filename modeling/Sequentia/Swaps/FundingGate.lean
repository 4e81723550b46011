import Sequentia.Swaps.Secret
import Sequentia.Lib.Runs

/-!
# What is known when the asset leg is funded

A conversion waits for the maker's Bitcoin lock to confirm, then for the node's own anchor to reach
the height of that confirmation, looks at the lock a last time and funds the asset leg. The parent
chain and the node's chain move between any two of these steps. The last look does not ask for a
confirmation and the gate is not tried again, so the lock the node funds against is known to be
confirmed below its anchor only if neither chain took back what the node had waited for.
-/

namespace Sequentia

/-- What the parent chain has of the output the maker pointed at. -/
inductive ParentLock
  /-- No such transaction is known. -/
  | unknown
  /-- The transaction waits in the parent's mempool. -/
  | unconfirmed (spk : CScript) (value : ℤ)
  /-- It is in the block at `height`, with `depth` blocks on top. -/
  | confirmed (spk : CScript) (value : ℤ) (height depth : ℕ)
  deriving DecidableEq

/-- `ReadParentOutput`; a daemon that does not answer reads as nothing found. -/
def readParentOutput (available : Bool) : ParentLock → ParentOut
  | .unknown => ⟨false, [], 0, 0, 0⟩
  | .unconfirmed spk value => ⟨available, spk, value, 0, 0⟩
  | .confirmed spk value height depth => ⟨available, spk, value, height, depth + 1⟩

/-- Where a conversion stands in `RunXchainConversion`. -/
inductive FundingPhase
  | verifying | confirming | gating | rechecking | funding | funded | abandoned
  deriving DecidableEq

/-- A conversion and the two chains it looks at. -/
structure FundingState where
  /-- The step the conversion is at. -/
  phase : FundingPhase
  /-- The record, in memory. -/
  swap : XchainSwap
  lock : ParentLock
  /-- `TipAnchorHeight` of the node's tip. -/
  anchor : ℤ
  lastOut : Option ParentOut
  deriving DecidableEq

/-- What can happen next. -/
inductive FundingEvent
  /-- The parent chain grows, or is reorganised. -/
  | parent (lock : ParentLock)
  | tip (anchor : ℤ)
  /-- The conversion reads the maker's output. -/
  | look (available : Bool)
  | gate
  /-- The conversion gives up waiting. -/
  | giveUp
  /-- The asset leg is built and sent, if the wallet can. -/
  | fund (sent : Option COutPoint)

/-- The conversion is over. -/
def FundingState.over (st : FundingState) : Bool :=
  st.phase = .funded || st.phase = .abandoned

/-- A reading of the maker's output, at the step the conversion is at. -/
def FundingState.look (crypto : Crypto) (st : FundingState) (out : ParentOut) :
    Option FundingState :=
  match st.phase with
  | .verifying =>
    match verifyMakerBtcLeg crypto st.swap out with
    | some s => some { st with phase := .confirming, swap := { s with state := .btcLocked } }
    | none => some { st with phase := .abandoned }
  | .confirming =>
    if out.found ∧ 0 < out.confirmations ∧ 0 < out.height then
      some { st with phase := .gating, swap := { st.swap with btcLegHeight := out.height } }
    else some st
  | .rechecking =>
    match verifyMakerBtcLeg crypto st.swap out with
    | some s => some { st with phase := .funding, swap := s }
    | none => some { st with phase := .abandoned }
  | _ => none

def FundingState.next (crypto : Crypto) (st : FundingState) (event : FundingEvent) :
    Option FundingState :=
  if st.over then none
  else match event with
    | .parent lock => some { st with lock }
    | .tip anchor => some { st with anchor }
    | .look available =>
      let out := readParentOutput available st.lock
      st.look crypto out |>.map fun st => { st with lastOut := some out }
    | .gate =>
      if st.phase ≠ .gating then none
      else if st.swap.btcLegHeight ≤ st.anchor then some { st with phase := .rechecking }
      else some st
    | .giveUp =>
      if st.phase = .confirming ∨ st.phase = .gating then some { st with phase := .abandoned }
      else none
    | .fund sent =>
      if st.phase ≠ .funding then none
      else
        match buildHtlcRedeemScript ⟨st.swap.hashH, st.swap.makerSeqClaimPub,
          st.swap.takerSeqRefundPub, st.swap.seqLocktime⟩, sent with
        | some redeem, some outpoint =>
          some { st with
            phase := .funded
            swap := { st.swap with
              seqRedeem := redeem
              seqFundTxid := some outpoint.hash
              seqFundVout := outpoint.n
              state := .seqFunded } }
        | _, _ => some { st with phase := .abandoned }

/-- The runs of a conversion. -/
def fundingMachine (crypto : Crypto) : Machine FundingState FundingEvent where
  init st := st.phase = .verifying ∧ st.lastOut = none
  next := FundingState.next crypto

/-- The last reading before funding showed the lock confirmed, at a height the node's tip anchor
has reached. -/
def FundingState.SafelyFunded (st : FundingState) : Prop :=
  ∃ out, st.lastOut = some out ∧ out.found = true ∧ 0 < out.confirmations ∧
    out.height ≤ st.anchor

instance (st : FundingState) : Decidable st.SafelyFunded :=
  match h : st.lastOut with
  | none => .isFalse fun ⟨_, hout, _⟩ => by rw [h] at hout; cases hout
  | some out =>
    decidable_of_iff (out.found = true ∧ 0 < out.confirmations ∧ out.height ≤ st.anchor)
      ⟨fun hout => ⟨out, h, hout⟩, fun ⟨out', hout', hrest⟩ => by
        rw [h] at hout'; cases hout'; exact hrest⟩

def ParentLock.ConfirmedBy (height : ℤ) : ParentLock → Prop
  | .confirmed _ _ h _ => (h : ℤ) ≤ height
  | _ => False

instance (height : ℤ) (lock : ParentLock) : Decidable (lock.ConfirmedBy height) :=
  match lock with
  | .unknown => inferInstanceAs (Decidable False)
  | .unconfirmed _ _ => inferInstanceAs (Decidable False)
  | .confirmed _ _ h _ => inferInstanceAs (Decidable ((h : ℤ) ≤ height))

/-- Neither chain takes back what the conversion waited for: until the last look the lock stays
confirmed and does not move up, and from the gate on the anchor does not fall below the height
recorded. -/
def KeepsWaitedFor (st : FundingState) : FundingEvent → Prop
  | .parent lock =>
    st.phase = .gating ∨ st.phase = .rechecking → lock.ConfirmedBy st.swap.btcLegHeight
  | .tip anchor =>
    st.phase = .rechecking ∨ st.phase = .funding → st.swap.btcLegHeight ≤ anchor
  | _ => True

instance (st : FundingState) (event : FundingEvent) : Decidable (KeepsWaitedFor st event) :=
  match event with
  | .parent lock => inferInstanceAs (Decidable
      (st.phase = .gating ∨ st.phase = .rechecking → lock.ConfirmedBy st.swap.btcLegHeight))
  | .tip anchor => inferInstanceAs (Decidable
      (st.phase = .rechecking ∨ st.phase = .funding → st.swap.btcLegHeight ≤ anchor))
  | .look _ => inferInstanceAs (Decidable True)
  | .gate => inferInstanceAs (Decidable True)
  | .giveUp => inferInstanceAs (Decidable True)
  | .fund _ => inferInstanceAs (Decidable True)

/-- What the conversion knows of the two chains at each step. -/
def FundingState.Known (st : FundingState) : Prop :=
  match st.phase with
  | .gating => st.lock.ConfirmedBy st.swap.btcLegHeight
  | .rechecking => st.lock.ConfirmedBy st.swap.btcLegHeight ∧ st.swap.btcLegHeight ≤ st.anchor
  | .funding => ∃ out, st.lastOut = some out ∧ out.found = true ∧ 0 < out.confirmations ∧
      out.height = st.swap.btcLegHeight ∧ st.swap.btcLegHeight ≤ st.anchor
  | .funded => st.SafelyFunded
  | _ => True

theorem confirmedBy_of_read {available : Bool} {lock : ParentLock}
    (hconfirmed : 0 < (readParentOutput available lock).confirmations) :
    lock.ConfirmedBy (readParentOutput available lock).height := by
  cases lock with
  | unknown => exact absurd hconfirmed (lt_irrefl 0)
  | unconfirmed spk value => exact absurd hconfirmed (lt_irrefl 0)
  | confirmed spk value height depth => exact le_refl _

theorem read_of_confirmedBy {height : ℤ} {lock : ParentLock} (hlock : lock.ConfirmedBy height)
    (available : Bool) :
    0 < (readParentOutput available lock).confirmations ∧
      (readParentOutput available lock).height ≤ height := by
  cases lock with
  | unknown => exact hlock.elim
  | unconfirmed spk value => exact hlock.elim
  | confirmed spk value h depth => exact ⟨Int.natCast_succ_pos depth, hlock⟩

/-- A reading establishes what the next step relies on. -/
theorem known_look {crypto : Crypto} {st st' : FundingState} {available : Bool}
    (hknown : st.Known)
    (hlook : st.look crypto (readParentOutput available st.lock) = some st') :
    FundingState.Known { st' with lastOut := some (readParentOutput available st.lock) } := by
  revert hlook
  fun_cases FundingState.look crypto st (readParentOutput available st.lock) <;> rintro ⟨⟩
  case case3 hseen => exact confirmedBy_of_read hseen.2.1
  case case4 hphase _ =>
    simp only [FundingState.Known, hphase]
  case case5 hphase s hverify =>
    simp only [FundingState.Known, hphase] at hknown
    obtain ⟨hfound, rfl⟩ := found_of_verify hverify
    obtain ⟨hconfirmed, hheight⟩ := read_of_confirmedBy hknown.1 available
    exact ⟨_, rfl, hfound, hconfirmed, rfl, hheight.trans hknown.2⟩
  all_goals trivial

theorem known_next {crypto : Crypto} {st st' : FundingState} {event : FundingEvent}
    (hknown : st.Known) (hkeeps : KeepsWaitedFor st event)
    (hnext : st.next crypto event = some st') : st'.Known := by
  revert hnext
  fun_cases FundingState.next crypto st event <;> intro hnext <;> try cases hnext
  case case2 lock =>
    obtain ⟨phase, swap, lock₀, anchor, lastOut⟩ := st
    cases phase with
    | gating => exact hkeeps (Or.inl rfl)
    | rechecking => exact ⟨hkeeps (Or.inr rfl), hknown.2⟩
    | funding | funded => exact hknown
    | verifying | confirming | abandoned => trivial
  case case3 hover anchor =>
    obtain ⟨phase, swap, lock, anchor₀, lastOut⟩ := st
    cases phase with
    | gating => exact hknown
    | rechecking => exact ⟨hknown.1, hkeeps (Or.inl rfl)⟩
    | funding =>
      obtain ⟨out, hout, hfound, hconfirmed, hheight, -⟩ := hknown
      exact ⟨out, hout, hfound, hconfirmed, hheight, hkeeps (Or.inr rfl)⟩
    | funded => exact absurd rfl hover
    | verifying | confirming | abandoned => trivial
  case case4 =>
    obtain ⟨st₁, hlook, rfl⟩ := Option.map_eq_some_iff.mp hnext
    exact known_look hknown hlook
  case case6 hphase hreached =>
    simp only [FundingState.Known, not_not.mp hphase] at hknown
    exact ⟨hknown, hreached⟩
  case case7 => exact hknown
  case case11 hphase _ _ _ =>
    simp only [FundingState.Known, not_not.mp hphase] at hknown
    obtain ⟨out, hout, hfound, hconfirmed, hheight, hanchor⟩ := hknown
    exact ⟨out, hout, hfound, hconfirmed, hheight.trans_le hanchor⟩
  all_goals trivial

/-- However the two chains move, if neither takes back what the conversion waited for, the asset leg
is funded only against a lock that the last reading showed confirmed, at a height the node's anchor
has reached. -/
theorem funded_only_if_confirmed (crypto : Crypto) (st : FundingState)
    (hreach : (fundingMachine crypto).Reachable KeepsWaitedFor st) (hfunded : st.phase = .funded) :
    st.SafelyFunded := by
  have hknown : st.Known := by
    refine hreach.invariant (I := FundingState.Known) ?_ fun _ _ _ => known_next
    intro s hinit
    simp only [FundingState.Known, hinit.1]
  simp only [FundingState.Known, hfunded] at hknown
  exact hknown

def sampleLockScript : CScript := (buildHtlcRedeemScript (sampleHtlcTerms 800000)).getD []

/-- A conversion about to look at the maker's lock, which waits in the parent's mempool. -/
def sampleFunding : FundingState where
  phase := .verifying
  swap := { fundedSwap with
    state := .negotiating
    seqFundTxid := none
    takerBtcClaimPub := (sampleHtlcTerms 0).claimPub
    makerSeqClaimPub := (sampleHtlcTerms 0).claimPub
    takerSeqRefundPub := (sampleHtlcTerms 0).claimPub
    btcLocktime := 800000
    btcLegScript := sampleLockScript }
  lock := .unconfirmed (htlcP2wshSpk plainCrypto sampleLockScript) 100
  anchor := 90
  lastOut := none

/-- The lock confirms, the anchor follows, and the parent chain does `late` before the last
look. -/
def sampleFundingRun (late : ParentLock) : List FundingEvent :=
  [.look true, .parent (.confirmed (htlcP2wshSpk plainCrypto sampleLockScript) 100 95 0),
    .look true, .gate, .tip 96, .gate, .parent late, .look true, .fund (some ⟨⟨9⟩, 0⟩)]

/-- A block on top of the lock takes nothing back. -/
theorem funded_only_if_confirmed_deeper :
    ∃ st, (fundingMachine plainCrypto).Reachable KeepsWaitedFor st ∧ st.phase = .funded ∧
      st.SafelyFunded := by
  obtain ⟨st, hrun, hfunded⟩ := Machine.exists_run (M := fundingMachine plainCrypto)
    (P := fun st => st.phase = .funded) (s := sampleFunding)
    (show Option.any _ (Machine.run _ _ (sampleFundingRun
      (.confirmed (htlcP2wshSpk plainCrypto sampleLockScript) 100 95 1))) = true by decide +kernel)
  have hreach : (fundingMachine plainCrypto).Reachable KeepsWaitedFor st :=
    Machine.Reachable.run (.init ⟨rfl, rfl⟩) (by decide +kernel) hrun
  exact ⟨st, hreach, hfunded, funded_only_if_confirmed plainCrypto st hreach hfunded⟩

/-- A reorganisation that puts the lock back into the mempool after the wait goes unnoticed: the
asset leg is funded against an unconfirmed lock. -/
theorem funded_against_unconfirmed :
    ∃ st, (fundingMachine plainCrypto).run sampleFunding (sampleFundingRun
      (.unconfirmed (htlcP2wshSpk plainCrypto sampleLockScript) 100)) = some st ∧
      st.phase = .funded ∧ ¬ st.SafelyFunded :=
  Machine.exists_run (by decide +kernel)

end Sequentia
