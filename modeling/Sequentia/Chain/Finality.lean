import Sequentia.Chain.BlockTree

/-!
# Immediate finality

The final point of a node is the highest block of its active chain that carries a quorum, has been
observed for its window and is not contested by a competing certificate; what is final stays so.
A pass looks for it from the tip downward, and remembers where it may stop next time: the floor.
-/

namespace Sequentia

/-- The settings of finality. -/
structure FinalityParams where
  posFinalityDelayMs : ℤ
  posFinalityHoldMs : ℤ

/-- Where a pass stopped looking, `g_pos_final_floor_*`. -/
structure FinalFloor where
  hash : Uint256
  /-- The answers stood at this epoch. -/
  epoch : ℕ
  /-- The final block that was found. -/
  final : Option Uint256

/-- What finality reads and keeps. -/
structure FinalityState where
  /-- The tip of the active chain. -/
  tip : Uint256
  posCarriesQuorum : Uint256 → Bool
  posCertEpoch : ℕ
  /-- `g_pos_immediate_final_hash`, if there is a final block. -/
  final : Option Uint256
  floor : Option FinalFloor
  /-- `g_pos_quorum_first_active`: when a block was first connected. -/
  quorumFirstActive : Uint256 → Option ℤ
  posLoadMs : ℤ
  /-- The steady clock. -/
  now : ℤ
  /-- `g_pos_competing_certs`: height, hash and when the certificate was seen. -/
  competingCerts : List (ℕ × Uint256 × ℤ)
  /-- The blocks that have been received in full or failed. -/
  judged : Uint256 → Bool

namespace FinalityState

variable (p : FinalityParams) (facts : Uint256 → ForkFacts)

def finalHeight (s : FinalityState) : ℤ :=
  match s.final with
  | none => -1
  | some f => nHeight facts f

/-- `PosHeldBy`: the competing certificates that hold the finality of a block. -/
def posHeldBy (s : FinalityState) (f : Uint256) : List Uint256 :=
  (s.competingCerts.filter fun (height, hash, seen) =>
    height == nHeight facts f && hash != f && decide (s.now - seen < p.posFinalityHoldMs) &&
      !s.judged hash).map fun (_, hash, _) => hash

/-- The lowest height above the final block that is contested, in 200 blocks from the tip. -/
def heldFloor (s : FinalityState) : Option ℕ :=
  if 0 < p.posFinalityDelayMs then
    let scanned := ((path facts s.tip).takeWhile fun f =>
      decide (0 < nHeight facts f ∧ s.finalHeight facts < nHeight facts f)).take 200
    (scanned.filter fun f => !(s.posHeldBy p facts f).isEmpty).getLast?.map (nHeight facts)
  else none

/-- Blocks loaded from disk are observed from load time. -/
def loadWindowOpen (s : FinalityState) : Bool :=
  decide (0 < s.posLoadMs ∧ s.now - s.posLoadMs < p.posFinalityDelayMs)

/-- The block is still observed. -/
def inWindow (s : FinalityState) (f : Uint256) : Bool :=
  match s.quorumFirstActive f with
  | none => s.loadWindowOpen p
  | some since => decide (s.now - since < p.posFinalityDelayMs)

/-- The block is at or above a contested height. -/
def contested (s : FinalityState) (f : Uint256) : Bool :=
  (s.heldFloor p facts).any fun height => decide (height ≤ nHeight facts f)

/-- The block is final already, or an ancestor of the final block. -/
def settled (s : FinalityState) (f : Uint256) : Bool :=
  s.final.any fun final => decide (f ∈ path facts final)

/-- The floor, unless an answer below it may have changed. -/
def usableFloor (s : FinalityState) : Option FinalFloor :=
  s.floor.filter fun floor => floor.epoch == s.posCertEpoch

/-- The walk of a pass down a chain: the final block, and the lowest quorum block that was passed
over. -/
def walk (s : FinalityState) (floor : Option FinalFloor) :
    List Uint256 → Bool → Option Uint256 → Option Uint256 × Option Uint256
  | [], _, pending => (none, pending)
  | f :: rest, isSettled, pending =>
    if nHeight facts f = 0 then (none, pending)
    else match floor.filter fun floor => floor.hash == f with
      | some floor => (floor.final, pending)
      | none =>
        let isSettled := isSettled || s.settled facts f
        if !s.posCarriesQuorum f && s.final != some f then walk s floor rest isSettled pending
        else if !isSettled && decide (0 < p.posFinalityDelayMs) &&
            (s.inWindow p f || s.contested p facts f) then
          -- With nothing restored, lower blocks are taken to be in their window too.
          if s.inWindow p f && (s.quorumFirstActive f).isNone && s.final.isNone then (none, some f)
          else walk s floor rest isSettled (some f)
        else (some f, pending)

def passResult (s : FinalityState) : Option Uint256 × Option Uint256 :=
  s.walk p facts s.usableFloor (path facts s.tip) false none

def recomputePosImmediateFinality (s : FinalityState) : FinalityState :=
  let result := s.passResult p facts
  let lowest := match result.2 with
    | none => some s.tip
    | some pending => (facts pending).pprev
  { s with
    final := result.1
    floor := match lowest with
      | none => s.usableFloor
      | some hash => some ⟨hash, s.posCertEpoch, result.1⟩
    quorumFirstActive := fun h =>
      match result.1 with
      | none => s.quorumFirstActive h
      | some final =>
        if nHeight facts h ≤ nHeight facts final then none else s.quorumFirstActive h }

/-- A block may be final: it carries a quorum and is observed and uncontested, or it is at or
below the final block. -/
def finalizes (s : FinalityState) (f : Uint256) : Bool :=
  decide (0 < nHeight facts f) && (s.posCarriesQuorum f || s.final == some f) &&
    (s.settled facts f || !(decide (0 < p.posFinalityDelayMs) &&
      (s.inWindow p f || s.contested p facts f)))

/-- The final point that a walk over the whole active chain computes. -/
def wholeWalk (s : FinalityState) : Option Uint256 :=
  (path facts s.tip).find? (s.finalizes p facts)

end FinalityState

end Sequentia
