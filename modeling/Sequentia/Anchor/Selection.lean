import Sequentia.Anchor.Caches
import Sequentia.Lib.Checks
import Sequentia.Params

/-!
# Anchors of neighbouring blocks

Every block names a block of the parent chain by height and hash. The validator compares the
anchor of a header with its predecessor's and asks the parent daemon about a new one; the producer
picks the anchor of a new block from several answers of the daemon, backs off from heights that a
competing branch contests and falls back to its predecessor's anchor. The module shows that what
the producer picks obeys the rules that an accepted chain obeys.
-/

namespace Sequentia.Anchor

structure BlockAnchor where
  /-- `m_anchor_height`. -/
  height : ℕ
  /-- `m_anchor_hash`. -/
  hash : Uint256
  deriving DecidableEq

/-- The switches of the anchor rules and of the producer's policy. -/
structure AnchorParams where
  conBitcoinAnchor : Bool
  validateAnchor : Bool
  anchorMinConf : ℤ
  anchorAvoidContested : Bool
  anchorContestWindow : ℤ

/-- Why a header is refused for its anchor. -/
inductive AnchorReject where
  /-- `bad-anchor-missing`. -/
  | missing
  /-- `bad-anchor-not-monotonic`. -/
  | notMonotonic
  /-- `bad-anchor-conflict`. -/
  | conflict
  /-- `bad-anchor-height-conflict`. -/
  | heightConflict
  /-- `anchor-unknown`. -/
  | unknown
  /-- `anchor-stale`. -/
  | stale
  /-- `bad-anchor-height-mismatch`. -/
  | heightMismatch
  /-- `anchor-unverifiable`. -/
  | unverifiable
  deriving DecidableEq

/-- What the verdict of the parent daemon means for a header. -/
def verdictReject : AnchorCheckResult → Option AnchorReject
  | .ok => none
  | .notFound => some .unknown
  | .stale => some .stale
  | .heightMismatch => some .heightMismatch
  | .noConnection => some .unverifiable

/-- The anchor rules of `ContextualCheckBlockHeader`, for a header at a height whose predecessor
has the anchor `prev`, with the answers of `CheckMainchainAnchor`. -/
def checkAnchor (a : AnchorParams) (params : Params) (verdict : BlockAnchor → AnchorCheckResult)
    (nHeight : ℕ) (prev block : BlockAnchor) : Except AnchorReject Unit :=
  if !a.conBitcoinAnchor then .ok ()
  else if block.hash.isNull then .error .missing
  else if block.height < prev.height then .error .notMonotonic
  else if block.height = prev.height ∧ prev.hash.isNull = false ∧ block.hash ≠ prev.hash then
    .error .conflict
  else if params.posHardeningActiveAt nHeight ∧ prev.hash.isNull = false ∧
      block.hash = prev.hash ∧ block.height ≠ prev.height then
    .error .heightConflict
  else
    let anchorUnchanged := block.hash = prev.hash ∧
      (params.posHardeningActiveAt nHeight = false ∨ block.height = prev.height)
    if a.validateAnchor ∧ ¬anchorUnchanged then
      match verdictReject (verdict block) with
      | some reject => .error reject
      | none => .ok ()
    else .ok ()

structure Neighbours (parent child : BlockAnchor) : Prop where
  height_le : parent.height ≤ child.height
  /-- Equal heights mean equal blocks of the parent chain. -/
  height_eq_iff : parent.height = child.height ↔ parent.hash = child.hash

/-- A chain of headers that are accepted one after the other above a predecessor, the first at a
height. -/
inductive AcceptedFrom (a : AnchorParams) (params : Params) :
    ℕ → BlockAnchor → List BlockAnchor → Prop
  | nil {nHeight : ℕ} {prev : BlockAnchor} : AcceptedFrom a params nHeight prev []
  | cons {nHeight : ℕ} {prev block : BlockAnchor} {rest : List BlockAnchor}
      (verdict : BlockAnchor → AnchorCheckResult) :
      checkAnchor a params verdict nHeight prev block = .ok () →
      AcceptedFrom a params (nHeight + 1) block rest →
      AcceptedFrom a params nHeight prev (block :: rest)

/-- A branch of the parent chain, as `getchaintips` reports it. -/
structure ChainTip where
  /-- The status is `active` or `invalid`. -/
  activeOrInvalid : Bool
  height : ℤ
  branchlen : ℤ

/-- The answers of the parent daemon to the calls for one new block, each given at its own moment;
none is no answer. -/
structure DaemonAnswers where
  /-- `getblockcount`. -/
  blockCount : Option ℤ
  /-- `getblockhash` for the height of the previous anchor. -/
  hashAtPrev : Option Uint256
  /-- `getchaintips`. -/
  chainTips : Option (List ChainTip)
  /-- `getblockhash` for the target, whatever it is. -/
  hashAtTarget : ℤ → Option Uint256

def anchorUncontestedHeight (activeTipHeight window : ℤ) (competingBranches : List (ℤ × ℤ))
    (committedHeight : ℤ) : ℤ :=
  competingBranches.foldl (fun uncontested branch =>
    if branch.2 ≤ 0 then uncontested
    else if branch.1 + max 0 window < activeTipHeight then uncontested
    else
      let forkPoint := branch.1 - branch.2
      if forkPoint < committedHeight then uncontested
      else if forkPoint < uncontested then forkPoint
      else uncontested) activeTipHeight

def getMainchainUncontestedHeight (a : AnchorParams) (answers : DaemonAnswers)
    (activeTipHeight committedHeight : ℤ) : Option ℤ :=
  answers.chainTips.map fun tips =>
    anchorUncontestedHeight activeTipHeight a.anchorContestWindow
      ((tips.filter fun tip => !tip.activeOrInvalid).map fun tip => (tip.height, tip.branchlen))
      committedHeight

/-- The height the producer aims at, from the block count. -/
def anchorTarget (a : AnchorParams) (answers : DaemonAnswers) (prev : BlockAnchor) (count : ℤ) :
    ℤ :=
  let target := count - (max 1 a.anchorMinConf - 1)
  if !a.anchorAvoidContested then target
  else
    let committed :=
      if prev.hash.isNull = false ∧ answers.hashAtPrev = some prev.hash then (prev.height : ℤ)
      else -1
    match getMainchainUncontestedHeight a answers count committed with
    | some uncontested => if 0 ≤ uncontested ∧ uncontested < target then uncontested else target
    | none => target

/-- The part of `GetAnchorForNewBlock` that asks for a new anchor. -/
def freshAnchor (a : AnchorParams) (answers : DaemonAnswers) (prev : BlockAnchor) :
    Option BlockAnchor := do
  let count ← answers.blockCount
  let target := anchorTarget a answers prev count
  if 0 ≤ target ∧ (prev.height : ℤ) ≤ target then
    let hash ← answers.hashAtTarget target
    return ⟨target.toNat, hash⟩
  else none

def getAnchorForNewBlock (a : AnchorParams) (answers : DaemonAnswers) (prev : BlockAnchor) :
    Option BlockAnchor :=
  match freshAnchor a answers prev with
  | some block => some block
  | none => if prev.hash.isNull then none else some prev

/-- The answers are given while the previous anchor is on the daemon's best chain: the hash it
gives for a target is that of a best chain with the previous anchor on it. -/
def GivenWhileAnchored (chain : Forest Uint256) (answers : DaemonAnswers) (prev : BlockAnchor) :
    Prop :=
  ∀ target hash, answers.hashAtTarget target = some hash →
    ∃ tip, chain.atHeight tip prev.height = some prev.hash ∧
      0 ≤ target ∧ chain.atHeight tip target.toNat = some hash

variable {a : AnchorParams} {params : Params} {nHeight : ℕ} {prev block : BlockAnchor}

/-- An accepted header names a block of the parent chain. -/
theorem hash_of_checkAnchor {verdict : BlockAnchor → AnchorCheckResult}
    (hanchor : a.conBitcoinAnchor = true)
    (hok : checkAnchor a params verdict nHeight prev block = .ok ()) :
    block.hash.isNull = false := by
  unfold checkAnchor at hok
  rw [if_neg (by simp [hanchor])] at hok
  simpa using (Checks.ite_error_eq_ok.mp hok).1

theorem neighbours_of_checkAnchor {verdict : BlockAnchor → AnchorCheckResult}
    (hanchor : a.conBitcoinAnchor = true) (hactive : params.posHardeningActiveAt nHeight = true)
    (hprev : prev.hash.isNull = false)
    (hok : checkAnchor a params verdict nHeight prev block = .ok ()) : Neighbours prev block := by
  rw [checkAnchor, if_neg (by simp [hanchor])] at hok
  simp only [Checks.ite_error_eq_ok] at hok
  obtain ⟨-, hmonotone, hconflict, hheight, -⟩ := hok
  refine ⟨Nat.not_lt.mp hmonotone, fun heq => ?_, fun heq => ?_⟩
  · by_contra hne
    exact hconflict ⟨heq.symm, hprev, fun h => hne h.symm⟩
  · by_contra hne
    exact hheight ⟨hactive, hprev, heq.symm, fun h => hne h.symm⟩

theorem posHardeningActiveAt_succ (hactive : params.posHardeningActiveAt nHeight = true) :
    params.posHardeningActiveAt (nHeight + 1) = true := by
  simp only [Params.posHardeningActiveAt, Bool.and_eq_true, decide_eq_true_eq] at hactive ⊢
  omega

theorem isChain_of_acceptedFrom {headers : List BlockAnchor} (hanchor : a.conBitcoinAnchor = true)
    (hactive : params.posHardeningActiveAt nHeight = true) (hprev : prev.hash.isNull = false)
    (haccepted : AcceptedFrom a params nHeight prev headers) :
    (prev :: headers).IsChain Neighbours := by
  induction haccepted with
  | nil => exact List.IsChain.singleton _
  | cons verdict hok _ ih =>
    exact List.isChain_cons_cons.mpr ⟨neighbours_of_checkAnchor hanchor hactive hprev hok,
      ih (posHardeningActiveAt_succ hactive) (hash_of_checkAnchor hanchor hok)⟩

/-- Neighbours pass the rules that compare a header with its predecessor. -/
theorem Neighbours.checkAnchor (hneighbours : Neighbours prev block)
    (hhash : block.hash.isNull = false) :
    checkAnchor a params (fun _ => .ok) nHeight prev block = .ok () := by
  obtain ⟨hle, hiff⟩ := hneighbours
  unfold Anchor.checkAnchor
  split_ifs with hoff hnull hless hconflict hheight
  · rfl
  · rw [hhash] at hnull
    cases hnull
  · omega
  · exact absurd (hiff.mp hconflict.1.symm).symm hconflict.2.2
  · exact absurd (hiff.mpr hheight.2.2.1.symm).symm hheight.2.2.2
  · dsimp only [verdictReject]
    split <;> rfl

/-- The anchor picked for a child is the parent block's own, or the block at a height that is not
lower on a best chain with the parent block's anchor on it. -/
theorem neighbours_getAnchorForNewBlock {chain : Forest Uint256} {answers : DaemonAnswers}
    (hgiven : GivenWhileAnchored chain answers prev)
    (hpick : getAnchorForNewBlock a answers prev = some block) : Neighbours prev block := by
  revert hpick
  fun_cases getAnchorForNewBlock a answers prev <;> rintro ⟨⟩
  · next fresh =>
    obtain ⟨count, -, hfresh⟩ := Option.bind_eq_some_iff.mp fresh
    dsimp only at hfresh
    split at hfresh
    · rename_i htarget
      obtain ⟨hash, hanswer, hblock⟩ := Option.bind_eq_some_iff.mp hfresh
      cases hblock
      obtain ⟨tip, hprev, -, htip⟩ := hgiven _ hash hanswer
      have hle : prev.height ≤ (anchorTarget a answers prev count).toNat := by omega
      refine ⟨hle, fun heq => ?_, fun heq => ?_⟩
      · exact Option.some.inj (hprev.symm.trans ((congrArg (chain.atHeight tip) heq).trans htip))
      · have hheight := (Forest.atHeight_eq_some_iff.mp hprev).2
        have hheight' := (Forest.atHeight_eq_some_iff.mp htip).2
        exact hheight.symm.trans ((congrArg chain.height heq).trans hheight')
    · cases hfresh
  · exact ⟨Nat.le_refl _, fun _ => rfl, fun _ => rfl⟩

/-- The anchors of a chain accepted from the hardening height on are neighbours: heights never
decrease, and they are equal exactly where the hashes are. The anchor the producer picks for a
child, from any answers the daemon gives while the parent block's anchor is on its best chain,
obeys the same rules, so the validator refuses it for nothing but its place on the parent chain. -/
theorem anchors_neighbours (a : AnchorParams) (params : Params)
    (hanchor : a.conBitcoinAnchor = true) :
    (∀ nHeight prev headers, params.posHardeningActiveAt nHeight = true →
      AcceptedFrom a params nHeight prev headers →
      headers.IsChain Neighbours ∧
        (prev.hash.isNull = false → (prev :: headers).IsChain Neighbours)) ∧
    ∀ (chain : Forest Uint256) answers prev block, GivenWhileAnchored chain answers prev →
      getAnchorForNewBlock a answers prev = some block →
      Neighbours prev block ∧ (block.hash.isNull = false → ∀ nHeight,
        checkAnchor a params (fun _ => .ok) nHeight prev block = .ok ()) := by
  constructor
  · intro nHeight prev headers hactive haccepted
    refine ⟨?_, fun hprev => isChain_of_acceptedFrom hanchor hactive hprev haccepted⟩
    -- The first header has an anchor, so the rest of the chain is above one that has.
    cases haccepted with
    | nil => exact .nil
    | cons verdict hok hrest =>
      exact isChain_of_acceptedFrom hanchor (posHardeningActiveAt_succ hactive)
        (hash_of_checkAnchor hanchor hok) hrest
  · intro chain answers prev block hgiven hpick
    have hneighbours := neighbours_getAnchorForNewBlock hgiven hpick
    exact ⟨hneighbours, fun hhash nHeight => hneighbours.checkAnchor hhash⟩

/-- A chain that is hardened from its first block on, and a node that validates anchors. -/
def anchoredChain : AnchorParams where
  conBitcoinAnchor := true
  validateAnchor := true
  anchorMinConf := 1
  anchorAvoidContested := true
  anchorContestWindow := 3

/-- Consensus parameters with the hardened rules from the first block on. -/
def hardenedParams : Params where
  maxMoney := 2100000000000000
  policyAsset := 1
  conPos := true
  posPublicCommittee := true
  posCommitteeSize := 100
  posMinStake := 1
  posSlotInterval := 30
  posUnbondingPeriod := 10
  posPayoutNotice := 10
  posSplitEpoch := 100
  posHardeningHeight := 1
  posRecordsV2Height := 1
  splitPayoutHeight := 0
  splitPayoutChainGenesis := 0
  hashGenesisBlock := 9
  supervisionHeight := 0
  peggedAsset := 1
  subsidyAsset := 1
  blockSubsidy _ := 0

/-- A daemon with block 2 at height 1 on its best chain, which a branch that forked off at height
0 competes with. -/
def contestedAnswers : DaemonAnswers where
  blockCount := some 1
  hashAtPrev := some 2
  chainTips := some [⟨true, 1, 0⟩, ⟨false, 1, 1⟩]
  hashAtTarget target := if target = 1 then some 2 else if target = 0 then some 1 else none

/-- A parent block anchored to block 2 ignores the branch it is past, and its child keeps the
anchor; two blocks with this anchor are accepted. -/
theorem anchors_neighbours_contested : [(⟨1, 2⟩ : BlockAnchor), ⟨1, 2⟩].IsChain Neighbours ∧
    getAnchorForNewBlock anchoredChain contestedAnswers ⟨1, 2⟩ = some ⟨1, 2⟩ ∧
      Neighbours ⟨1, 2⟩ ⟨1, 2⟩ := by
  have hpick : getAnchorForNewBlock anchoredChain contestedAnswers ⟨1, 2⟩ = some ⟨1, 2⟩ := by
    decide +kernel
  have hresults := anchors_neighbours anchoredChain hardenedParams rfl
  have haccepted : AcceptedFrom anchoredChain hardenedParams 1 ⟨0, 0⟩ [⟨1, 2⟩, ⟨1, 2⟩] :=
    .cons (fun _ => .ok) (by decide) (.cons (fun _ => .stale) (by decide) .nil)
  refine ⟨(hresults.1 1 ⟨0, 0⟩ _ (by decide) haccepted).1, hpick,
    (hresults.2 forkChain contestedAnswers ⟨1, 2⟩ ⟨1, 2⟩ ?_ hpick).1⟩
  intro target hash hanswer
  refine ⟨2, by decide, ?_⟩
  unfold contestedAnswers at hanswer
  dsimp only at hanswer
  split_ifs at hanswer with hone hzero
  · cases hanswer
    exact ⟨by omega, hone ▸ by decide⟩
  · cases hanswer
    exact ⟨by omega, hzero ▸ by decide⟩

end Sequentia.Anchor
