import Mathlib.Logic.Function.Basic
import Sequentia.Chain.ForkChoice
import Sequentia.Lib.Forest

/-!
# Candidate sets along a history

A node measures the keys of a block when its body arrives, puts it among the candidates once its
ancestors are there, and settles whether it is certified when it connects it. Candidates that are
worse than the tip are dropped, and so are candidates that the finality gate refuses. This module
models what may happen to a node.
-/

namespace Sequentia

open OrderedSet

/-- The settings that the certification of blocks depends on. -/
structure CertParams where
  conPos : Bool
  validateAnchor : Bool
  posPublicCommittee : Bool
  posVrf : Bool
  posBls : Bool
  posCommitteeSize : ℤ
  conBitcoinAnchor : Bool

/-- What is the same about a block on every node. -/
structure ForkFacts where
  nChainWork : ℕ
  pprev : Option Uint256
  ancestors : List Uint256
  /-- `ParsePosBlockChallenge` succeeds. -/
  challengeParses : Bool
  /-- `PosEscapingStallAllowed`, from the anchors of the block and its parent. -/
  escapingStallAllowed : Bool
  /-- The quorum of the stake state that its parent leaves. -/
  quorum : ℕ
  /-- The leader's score, if its proof verifies. -/
  vrfScore : Option ℕ

def ForkFacts.hasParent (f : ForkFacts) : Bool := f.pprev.isSome

/-- The ancestors are those that following the parents gives. -/
def IsTree (facts : Uint256 → ForkFacts) : Prop :=
  ∀ h, (facts h).ancestors = match (facts h).pprev with
    | none => []
    | some q => q :: (facts q).ancestors

def path (facts : Uint256 → ForkFacts) (h : Uint256) : List Uint256 := h :: (facts h).ancestors

/-- `PosJudgeCertified`: the answer, if the quorum is not needed or known, and whether it was
needed. An unknown quorum is negative. -/
def posJudgeCertified (p : CertParams) (f : ForkFacts) (countersigs : ℕ) (parentQuorum : ℤ) :
    Option Bool × Bool :=
  if !f.hasParent || countersigs == 0 then (some false, false)
  else if !p.posPublicCommittee then (some (decide (parentQuorum ≤ countersigs)), false)
  else if p.posVrf && p.posBls && decide (1 < p.posCommitteeSize) &&
      !(p.conBitcoinAnchor && f.escapingStallAllowed) then (some true, false)
  else if parentQuorum < 0 then (none, true)
  else (some (decide (parentQuorum ≤ countersigs)), true)

/-- `PosQuorumAfter` of the parent: the quorum, if it is configured or the node has held the
stake state. -/
def posQuorumAfter (p : CertParams) (f : ForkFacts) (held : Bool) : ℤ :=
  if !p.posPublicCommittee || held then f.quorum else -1

/-- Whether the certificate carries the quorum. -/
def certifiedAnswer (p : CertParams) (f : ForkFacts) (countersigs : ℕ) : Bool :=
  (posJudgeCertified p f countersigs f.quorum).1.getD true

section Judge

variable {p : CertParams} {f : ForkFacts} {countersigs : ℕ} {held : Bool}

/-- An answer does not depend on what else the node knows. -/
theorem posJudgeCertified_eq {v : Bool}
    (hjudge : (posJudgeCertified p f countersigs (posQuorumAfter p f held)).1 = some v) :
    v = certifiedAnswer p f countersigs := by
  have hknown : posJudgeCertified p f countersigs (posQuorumAfter p f held) =
      posJudgeCertified p f countersigs f.quorum := by
    by_cases hheld : (!p.posPublicCommittee || held) = true
    · rw [posQuorumAfter, if_pos hheld]
    · rw [posQuorumAfter, if_neg hheld] at hjudge ⊢
      unfold posJudgeCertified at *
      split_ifs at * with hparent hpublic hheaders hquorum
      · rfl
      · simp [hpublic] at hheld
      · rfl
      · exact (hquorum (by decide)).elim
      · exact (hquorum (by decide)).elim
  rw [hknown] at hjudge
  rw [certifiedAnswer, hjudge]
  rfl

theorem posJudgeCertified_quorum :
    (posJudgeCertified p f countersigs f.quorum).1 = some (certifiedAnswer p f countersigs) := by
  have hsome : (posJudgeCertified p f countersigs f.quorum).1.isSome = true := by
    unfold posJudgeCertified
    split_ifs
    · rfl
    · rfl
    · rfl
    · omega
    · rfl
  obtain ⟨v, hv⟩ := Option.isSome_iff_exists.mp hsome
  rw [certifiedAnswer, hv]
  rfl

/-- Whether the quorum is needed does not depend on knowing it. -/
theorem posJudgeCertified_byParent (quorum quorum' : ℤ) :
    (posJudgeCertified p f countersigs quorum).2 = (posJudgeCertified p f countersigs quorum').2 := by
  unfold posJudgeCertified
  split_ifs <;> rfl

/-- An answer that does not need the quorum is there without it. -/
theorem isSome_of_not_byParent {quorum : ℤ}
    (hby : (posJudgeCertified p f countersigs quorum).2 = false) :
    (posJudgeCertified p f countersigs quorum).1.isSome = true := by
  unfold posJudgeCertified at *
  split_ifs at * <;> rfl

end Judge

/-- The block is on the active chain that ends at a tip. -/
def isOnChain (facts : Uint256 → ForkFacts) (tip : Option Uint256) (h : Uint256) : Bool :=
  match tip with
  | none => false
  | some t => decide (h ∈ path facts t)

/-- `PosFinalityGateRefuses`: the block is off the active chain and forks at or below the final
block, which is not failed; no release is for its branch. -/
def posFinalityGateRefuses (p : CertParams) (facts : Uint256 → ForkFacts) (tip : Option Uint256)
    (marked : Uint256 → Bool) (final release : Option Uint256) (h : Uint256) : Bool :=
  if !p.conPos || p.conBitcoinAnchor && !p.validateAnchor then false
  else match final with
    | none => false
    | some f =>
      if isOnChain facts tip h || marked f || decide (f ∈ (facts h).ancestors) then false
      else match release with
        | none => true
        | some r => decide (r ∉ path facts h)

/-- `m_pos_vrf_score` before it is measured. -/
def vrfScoreUnset : ℕ := 2 ^ 64 - 1

/-- What a node keeps about blocks and candidates. -/
structure ForkNode where
  index : Uint256 → BlockEntry
  bodies : List Uint256
  /-- The blocks whose ancestors' bodies are here as well, `HaveTxsDownloaded`. -/
  linked : List Uint256
  /-- The blocks that are marked as failed, `BLOCK_FAILED_MASK`. -/
  marked : Uint256 → Bool
  /-- `setBlockIndexCandidates`, in its order. -/
  candidates : List Uint256
  /-- The tip of the active chain. -/
  tip : Option Uint256
  /-- The blocks that have been connected and not been invalidated since. -/
  connected : List Uint256
  /-- `g_pos_immediate_final_hash`. -/
  final : Option Uint256
  /-- `g_pos_reconcile_release_hash`. -/
  release : Option Uint256

namespace ForkNode

variable (p : CertParams) (facts : Uint256 → ForkFacts)

/-- The order of the candidates. -/
def lt (n : ForkNode) : Uint256 → Uint256 → Bool := less p.conPos n.index

def setEntry (n : ForkNode) (h : Uint256) (e : BlockEntry) : ForkNode :=
  { n with index := Function.update n.index h e }

/-- `PosSetCertified`: a block whose answer changes leaves the set first. -/
def posSetCertified (n : ForkNode) (h : Uint256) (verdict : Option Bool) : ForkNode :=
  let certified := verdict.getD true
  let e := { n.index h with posCertified := certified, posCertKnown := verdict.isSome }
  if certified = (n.index h).posCertified then n.setEntry h e
  else
    let rest := OrderedSet.erase (n.lt p) h n.candidates
    let n' := n.setEntry h e
    if rest.length < n.candidates.length then
      { n' with candidates := OrderedSet.insert (n'.lt p) h rest }
    else { n' with candidates := rest }

def posRecordCertified (n : ForkNode) (h : Uint256) (parentQuorum : ℤ) : ForkNode :=
  let verdict := posJudgeCertified p (facts h) (n.index h).posCountersigs parentQuorum
  let n' := n.posSetCertified p h verdict.1
  match verdict with
  | (some v, true) => n'.setEntry h { n'.index h with posCertDecided := some v }
  | _ => n'

/-- `SetPosForkChoiceKeys`, with the members that the certificate at hand names. -/
def setPosForkChoiceKeys (n : ForkNode) (h : Uint256) (countersigs : ℕ) (held : Bool) : ForkNode :=
  if !p.conPos || !(facts h).hasParent || !(facts h).challengeParses then n
  else
    let n := n.setEntry h { n.index h with posCountersigs := countersigs }
    let n := n.posRecordCertified p facts h (posQuorumAfter p (facts h) held)
    match p.posVrf, (facts h).vrfScore with
    | true, some score => n.setEntry h { n.index h with posVrfScore := score }
    | _, _ => n

/-- Whether a block is not worse than the tip. -/
def notWorse (n : ForkNode) (h : Uint256) : Bool :=
  match n.tip with
  | none => true
  | some t => !n.lt p h t

/-- A block joins the candidates when its ancestors are there, in `ReceivedBlockTransactions`. -/
def link (n : ForkNode) (h : Uint256) (sequence : ℤ) : ForkNode :=
  let n := n.setEntry h { n.index h with nSequenceId := sequence }
  { n with
    linked := h :: n.linked
    candidates := if n.notWorse p h then OrderedSet.insert (n.lt p) h n.candidates
      else n.candidates }

/-- Erasing blocks from the candidates. -/
def eraseAll (n : ForkNode) (hs : List Uint256) : ForkNode :=
  { n with candidates := hs.foldl (fun l h => OrderedSet.erase (n.lt p) h l) n.candidates }

def insertAll (n : ForkNode) (test : Uint256 → Bool) : ForkNode :=
  { n with
    candidates := (n.linked.filter test).foldl
      (fun l h => OrderedSet.insert (n.lt p) h l) n.candidates }

/-- The block is on the active chain. -/
def onChain (n : ForkNode) (h : Uint256) : Bool := isOnChain facts n.tip h

/-- The finality gate refuses a block. -/
def refuses (n : ForkNode) (h : Uint256) : Bool :=
  posFinalityGateRefuses p facts n.tip n.marked n.final n.release h

/-- The blocks from a candidate down to the active chain. -/
def branch (n : ForkNode) (h : Uint256) : List Uint256 :=
  (path facts h).filter fun x => !n.onChain facts x

/-- `FindMostWorkChain`: candidates at the end of the set that the gate refuses, or that have a
failed block below them, are erased with the blocks between; the last block that is left is the
best candidate. Each turn erases a candidate, so their number bounds the turns. -/
def findMostWorkChain : ℕ → ForkNode → ForkNode
  | 0, n => n
  | turns + 1, n =>
    match n.candidates.getLast? with
    | none => n
    | some h =>
      if n.refuses p facts h then
        findMostWorkChain turns (n.eraseAll p (n.branch facts h))
      else
        let failed := (n.branch facts h).takeWhile fun x => !n.marked x
        match (n.branch facts h).dropWhile fun x => !n.marked x with
        | [] => n
        | test :: _ =>
          findMostWorkChain turns { n.eraseAll p (failed ++ [test]) with
            marked := fun x => n.marked x || decide (x ∈ failed) }

def best (n : ForkNode) : Option Uint256 :=
  (findMostWorkChain p facts n.candidates.length n).candidates.getLast?

/-- `DiscardBlockData`: the block becomes a header again, and its descendants wait for it. -/
def discardBlockData (n : ForkNode) (h : Uint256) (descendants : List Uint256) : ForkNode :=
  let n := n.eraseAll p [h]
  let n := n.setEntry h { n.index h with
    posCountersigs := 0, posVrfScore := vrfScoreUnset, posCertDecided := none
    nSequenceId := min (n.index h).nSequenceId 0 }
  let n := n.posSetCertified p h (some false)
  let n := n.eraseAll p descendants
  { n with
    index := fun x => if x ∈ descendants then
      { n.index x with nSequenceId := min (n.index x).nSequenceId 0 } else n.index x
    bodies := n.bodies.filter (· ≠ h)
    linked := n.linked.filter fun x => x ≠ h ∧ x ∉ descendants }

/-- The entry of a block after `PosRefreshCertifiedKeys` at startup, when everything is loaded
to a new place. -/
def refreshedEntry (f : ForkFacts) (e : BlockEntry) (held : Bool) (address : ℕ) : BlockEntry :=
  let e := { e with nSequenceId := 0, address := address }
  if !p.conPos then e
  else
    let judged := posJudgeCertified p f e.posCountersigs (posQuorumAfter p f held)
    let verdict := if judged.2 && e.posCertDecided.isSome then e.posCertDecided else judged.1
    { e with posCertified := verdict.getD true, posCertKnown := verdict.isSome }

/-- A restart: the candidates are all the valid blocks. -/
def restart (n : ForkNode) (held : Uint256 → Bool) (address : Uint256 → ℕ) : ForkNode :=
  { n with
    index := fun h => refreshedEntry p (facts h) (n.index h) (held h) (address h)
    candidates := [] }.insertAll p fun h => !n.marked h

def headerEntry (f : ForkFacts) (address : ℕ) : BlockEntry :=
  ⟨f.nChainWork, 0, vrfScoreUnset, false, false, none, 0, address⟩

/-- Marking blocks as failed: what was connected on top of them is not valid any more. -/
def markFailed (n : ForkNode) (hs : List Uint256) : ForkNode :=
  { n with
    marked := fun h => n.marked h || decide (h ∈ hs)
    connected := n.connected.filter fun h => ∀ x ∈ path facts h, x ∉ hs }

def Quiet (n : ForkNode) : Prop := ∀ h ∈ n.candidates, n.refuses p facts h = false

/-- What may happen to a node. If it is quiet, the gate refuses nothing. -/
inductive Step (quiet : Bool) : ForkNode → ForkNode → Prop
  | header {n : ForkNode} (h : Uint256) (hbody : h ∉ n.bodies) :
      Step quiet n (n.setEntry h (headerEntry (facts h) (n.index h).address))
  /-- A body arrives, with a certificate. -/
  | body {n : ForkNode} (h : Uint256) (countersigs : ℕ) (held : Bool) (hbody : h ∉ n.bodies) :
      Step quiet n
        { n.setPosForkChoiceKeys p facts h countersigs held with bodies := h :: n.bodies }
  | link {n : ForkNode} (h : Uint256) (sequence : ℤ) (hbody : h ∈ n.bodies) (hnew : h ∉ n.linked) :
      Step quiet n (n.link p h sequence)
  /-- A block is connected to the tip: `ConnectTip`. -/
  | connect {n : ForkNode} (h : Uint256) (hparent : (facts h).pprev = n.tip)
      (hlinked : h ∈ n.linked) (hvalid : n.marked h = false) :
      Step quiet n { (if p.conPos && (facts h).hasParent then
          n.posRecordCertified p facts h (facts h).quorum else n) with
        tip := some h
        connected := h :: n.connected }
  /-- The tip is disconnected: `DisconnectTip`. -/
  | disconnect {n : ForkNode} {t : Uint256} (htip : n.tip = some t) :
      Step quiet n { n with tip := (facts t).pprev }
  /-- `PruneBlockIndexCandidates`. -/
  | prune {n : ForkNode} {t : Uint256} (htip : n.tip = some t) :
      Step quiet n { n with candidates := n.candidates.dropWhile fun h => n.lt p h t }
  /-- The best candidate is looked for. -/
  | findMostWorkChain {n : ForkNode} (hquiet : quiet = true → n.Quiet p facts) :
      Step quiet n (ForkNode.findMostWorkChain p facts n.candidates.length n)
  /-- Blocks turn out to be invalid before they are connected; those found are erased. -/
  | fail {n : ForkNode} (hs gone : List Uint256) (hgone : ∀ h ∈ gone, h ∈ hs)
      (hnot : ∀ t ∈ n.connected, ∀ x ∈ path facts t, x ∉ hs) :
      Step quiet n ((n.eraseAll p gone).markFailed facts hs)
  /-- A body is dropped because of its certificate. -/
  | discard {n : ForkNode} (h : Uint256) (descendants : List Uint256)
      (hnot : ∀ x ∈ h :: descendants, x ∉ n.connected) :
      Step quiet n (n.discardBlockData p h descendants)
  /-- `InvalidateBlock`: blocks are disconnected and marked, and the candidates filled up. -/
  | invalidate {n : ForkNode} (hs gone : List Uint256) (t : Option Uint256)
      (hgone : ∀ h ∈ gone, h ∈ hs)
      (htip : ∀ h, t = some h → h ∈ n.connected ∧ ∀ x ∈ path facts h, x ∉ hs) :
      Step quiet n
        (let n' := { (n.eraseAll p gone).markFailed facts hs with tip := t }
        n'.insertAll p fun h => !n'.marked h && n'.notWorse p h)
  /-- `ResetBlockFailureFlags` of a block above which nothing is marked: the marks of the block
  and its descendants are cleared, and what is better than the tip becomes a candidate. -/
  | reconsider {n : ForkNode} (h : Uint256) {t : Uint256} (htip : n.tip = some t)
      (hancestors : ∀ x ∈ (facts h).ancestors, n.marked x = false) :
      Step quiet n
        (let n' := { n with marked := fun x => n.marked x && decide (h ∉ path facts x) }
        n'.insertAll p fun x => n.marked x && decide (h ∈ path facts x) && n'.lt p t x)
  /-- A release by the reconciliation, `ReaddBlockIndexCandidates`. -/
  | release {n : ForkNode} (r : Option Uint256) :
      Step quiet n
        ({ n with release := r }.insertAll p fun h => !n.marked h && match n.tip with
          | none => true
          | some t => n.lt p t h)
  | revoke {n : ForkNode} : Step quiet n { n with release := none }
  /-- The final point moves to a block of the active chain that carries a quorum, or is gone. -/
  | finalize {n : ForkNode} (f : Option Uint256)
      (hfinal : ∀ h, f = some h → f = n.final ∨ n.onChain facts h = true ∧
        (n.index h).posCertified = true ∧ (n.index h).posCertKnown = true) :
      Step quiet n { n with final := f }
  | restart {n : ForkNode} (held : Uint256 → Bool) (address : Uint256 → ℕ)
      (hdistinct : Function.Injective address) : Step quiet n (n.restart p facts held address)

/-- A node that knows nothing but where entries will be. -/
def initial (address : Uint256 → ℕ) : ForkNode where
  index h := headerEntry (facts h) (address h)
  bodies := []
  linked := []
  marked _ := false
  candidates := []
  tip := none
  connected := []
  final := none
  release := none

/-- The nodes that a history leads to; in a quiet one, the gate has refused nothing. -/
inductive Reachable (quiet : Bool) : ForkNode → Prop
  | initial (address : Uint256 → ℕ) (hdistinct : Function.Injective address) :
      Reachable quiet (initial facts address)
  | step {n n' : ForkNode} : Reachable quiet n → Step p facts quiet n n' → Reachable quiet n'

/-- The blocks whose bodies are here and that have no failed block below them. -/
def Valid (n : ForkNode) (h : Uint256) : Prop :=
  h ∈ n.linked ∧ ∀ x ∈ path facts h, n.marked x = false

end ForkNode

end Sequentia
