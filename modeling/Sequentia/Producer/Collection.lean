import Sequentia.Lib.KeyedMap
import Sequentia.PubKey
import Sequentia.Transaction
import Mathlib.Data.Finset.Card

/-!
# Collecting the proposals of a height

While a height is collecting, every member keeps one proposed block per leader and excludes a
leader whose second block arrives. The round leaders are elected among the blocks it kept, so
members agree on them only if what they keep does not depend on the order of arrival.
-/

namespace Sequentia.Producer

open Std ExtTreeMap Finset

def maxPosAggCommitteeSize : ℕ := 100

/-- What `PosGossipContentId` hashes: the block and the staging solution, which carries the
leader's signature and is not covered by the block's hash. -/
structure RoundProposal where
  hash : Uint256
  solution : Bytes
  deriving DecidableEq

/-- A valid proposal on the tip arrives at a node. -/
structure Delivery where
  proposal : RoundProposal
  /-- The rounds of the node's collection have run out, by its clock. -/
  exhausted : Bool := false
  /-- The verdict of `PosProposalTooFarAhead` by the node's clock. -/
  tooFarAhead : Bool := false

/-- The collection state of `PosProducer`. -/
structure CollectionNode where
  roundHeight : ℕ
  candidates : ExtTreeMap CPubKey Uint256
  excluded : List CPubKey
  seenProposals : List RoundProposal

namespace CollectionNode

def recordCandidate (n : CollectionNode) (hash : Uint256) (leader : CPubKey) (height : ℕ) :
    CollectionNode :=
  if height < n.roundHeight then n
  else
    let n := if n.roundHeight < height then
      { n with roundHeight := height, candidates := ∅, excluded := [] } else n
    if leader ∈ n.excluded then n
    else if leader ∈ n.candidates then n
    else if maxPosAggCommitteeSize ≤ n.candidates.size then n
    else { n with candidates := n.candidates.insert leader hash }

def restartCollection (n : CollectionNode) : CollectionNode :=
  { n with roundHeight := 0, candidates := ∅ }

/-- The blocks kept for the height. -/
def candidatesAt (n : CollectionNode) (height : ℕ) : ExtTreeMap CPubKey Uint256 :=
  if n.roundHeight = height then n.candidates else ∅

def excludedAt (n : CollectionNode) (height : ℕ) : List CPubKey :=
  if n.roundHeight = height then n.excluded else []

/-- The insertion into `m_seen_proposals`, which is emptied when it grows too large. -/
def see (n : CollectionNode) (p : RoundProposal) : CollectionNode :=
  let seen := p :: n.seenProposals
  { n with seenProposals := if 20000 < seen.length then [] else seen }

/-- `PosProducer::OnProposal` for a proposal that passes its objective checks. The header names
the leader, so it is a function of the block's hash. -/
def onProposal (leaderOf : Uint256 → CPubKey) (height : ℕ) (n : CollectionNode) (d : Delivery) :
    CollectionNode :=
  let hash := d.proposal.hash
  let leader := leaderOf hash
  if d.proposal ∈ n.seenProposals then n
  else
    let n := n.see d.proposal
    let n := if (leader ∈ n.excludedAt height ∨ leader ∈ n.candidatesAt height) ∧
      d.exhausted = true then n.restartCollection else n
    if leader ∈ n.excludedAt height then n
    else
      match (n.candidatesAt height)[leader]? with
      | some kept =>
        if kept = hash then n
        else { n with excluded := leader :: n.excluded, candidates := n.candidates.erase leader }
      | none => if d.tooFarAhead then n else n.recordCandidate hash leader height

/-- `PosProducer::BackedForRound`: the candidates in the order of the election, starting over
when the rounds outnumber them. -/
def backedForRound (before : CPubKey × Uint256 → CPubKey × Uint256 → Bool) (n : CollectionNode)
    (height : ℕ) (r : ℤ) : Option Uint256 :=
  let candidates := n.candidatesAt height
  if r < 0 ∨ candidates.isEmpty then none
  else ((candidates.toList.mergeSort before)[(r % candidates.size).toNat]?).map Prod.snd

theorem recordCandidate_eq {n : CollectionNode} {hash : Uint256} {leader : CPubKey} {height : ℕ}
    (hle : n.roundHeight ≤ height) (hin : leader ∉ n.excludedAt height)
    (hnone : (n.candidatesAt height)[leader]? = none)
    (hroom : (n.candidatesAt height).size < maxPosAggCommitteeSize) :
    n.recordCandidate hash leader height =
      { n with
        roundHeight := height
        candidates := (n.candidatesAt height).insert leader hash
        excluded := n.excludedAt height } := by
  obtain ⟨roundHeight, candidates, excluded, seenProposals⟩ := n
  obtain hlt | rfl := lt_or_eq_of_le hle
  · simp [recordCandidate, candidatesAt, excludedAt, hlt, hlt.not_gt, hlt.ne,
      maxPosAggCommitteeSize]
  · simp only [candidatesAt, excludedAt, if_true] at *
    have habsent : leader ∉ candidates := by
      rwa [mem_iff_isSome_getElem?, Option.not_isSome_iff_eq_none]
    simp [recordCandidate, hin, habsent, hroom.not_ge]

end CollectionNode

open CollectionNode

variable {leaderOf : Uint256 → CPubKey} {height : ℕ} {n m : CollectionNode} {d : Delivery}
  {blocks : Finset Uint256} {before : List RoundProposal}

/-- The distinct blocks of a leader among the delivered ones. -/
def blocksOf (leaderOf : Uint256 → CPubKey) (blocks : Finset Uint256) (leader : CPubKey) :
    Finset Uint256 :=
  blocks.filter (leaderOf · = leader)

theorem blocksOf_insert (hash : Uint256) (leader : CPubKey) :
    blocksOf leaderOf (insert hash blocks) leader =
      if leaderOf hash = leader then insert hash (blocksOf leaderOf blocks leader)
      else blocksOf leaderOf blocks leader :=
  filter_insert ..

/-- The node keeps what the delivered blocks determine: the block of each leader with one, and
the exclusion of each leader with more. -/
structure Collected (leaderOf : Uint256 → CPubKey) (height : ℕ) (before : List RoundProposal)
    (blocks : Finset Uint256) (n : CollectionNode) : Prop where
  height_le : n.roundHeight ≤ height
  seen : ∀ p ∈ n.seenProposals, p ∈ before ∨ p.hash ∈ blocks
  candidate : ∀ leader hash, (n.candidatesAt height)[leader]? = some hash ↔
    blocksOf leaderOf blocks leader = {hash}
  excluded : ∀ leader, leader ∈ n.excludedAt height ↔ 2 ≤ (blocksOf leaderOf blocks leader).card

namespace Collected

variable (hcol : Collected leaderOf height before blocks n)

include hcol

theorem size_lt {hash : Uint256}
    (hfresh : blocksOf leaderOf blocks (leaderOf hash) = ∅)
    (hfew : ((insert hash blocks).image leaderOf).card ≤ maxPosAggCommitteeSize) :
    (n.candidatesAt height).size < maxPosAggCommitteeSize := by
  let keys := (n.candidatesAt height).keys.toFinset
  have hsize : keys.card = (n.candidatesAt height).size := by
    rw [List.toFinset_card_of_nodup nodup_keys, length_keys]
  have hsent : ∀ leader ∈ keys, ∃ kept, blocksOf leaderOf blocks leader = {kept} := by
    intro leader hleader
    have hin := mem_keys.mp (List.mem_toFinset.mp hleader)
    obtain ⟨kept, hkept⟩ := Option.isSome_iff_exists.mp
      ((isSome_getElem?_iff_mem).mpr hin)
    exact ⟨kept, (hcol.candidate leader kept).mp hkept⟩
  have habsent : leaderOf hash ∉ keys := by
    intro hleader
    obtain ⟨kept, hone⟩ := hsent _ hleader
    exact singleton_ne_empty kept (hone.symm.trans hfresh)
  have hsub : insert (leaderOf hash) keys ⊆ (insert hash blocks).image leaderOf := by
    intro leader hleader
    obtain rfl | hleader := mem_insert.mp hleader
    · exact mem_image_of_mem _ (mem_insert_self _ _)
    · obtain ⟨kept, hone⟩ := hsent _ hleader
      have hmem : kept ∈ blocksOf leaderOf blocks leader := hone ▸ mem_singleton_self kept
      obtain ⟨hkept, rfl⟩ := mem_filter.mp hmem
      exact mem_image_of_mem _ (mem_insert_of_mem hkept)
  have hcard := (card_le_card hsub).trans hfew
  rw [card_insert_of_notMem habsent, hsize] at hcard
  exact hcard

theorem insert_block {hash : Uint256}
    (hle : m.roundHeight ≤ height)
    (hseen : ∀ p ∈ m.seenProposals, p ∈ before ∨ p.hash ∈ insert hash blocks)
    (hcandidates : ∀ leader ≠ leaderOf hash,
      (m.candidatesAt height)[leader]? = (n.candidatesAt height)[leader]?)
    (hexcluded : ∀ leader ≠ leaderOf hash,
      leader ∈ m.excludedAt height ↔ leader ∈ n.excludedAt height)
    (hkept : ∀ kept, (m.candidatesAt height)[leaderOf hash]? = some kept ↔
      insert hash (blocksOf leaderOf blocks (leaderOf hash)) = {kept})
    (hout : leaderOf hash ∈ m.excludedAt height ↔
      2 ≤ (insert hash (blocksOf leaderOf blocks (leaderOf hash))).card) :
    Collected leaderOf height before (insert hash blocks) m where
  height_le := hle
  seen := hseen
  candidate leader kept := by
    rw [blocksOf_insert]
    split
    case isTrue heq => exact heq ▸ hkept kept
    case isFalse hne => exact hcandidates leader (Ne.symm hne) ▸ hcol.candidate leader kept
  excluded leader := by
    rw [blocksOf_insert]
    split
    case isTrue heq => exact heq ▸ hout
    case isFalse hne => exact (hexcluded leader (Ne.symm hne)).trans (hcol.excluded leader)

/-- The state the fresh proposal is judged in. -/
theorem seen_see (p : RoundProposal) :
    ∀ q ∈ (n.see p).seenProposals, q ∈ before ∨ q.hash ∈ insert p.hash blocks := by
  intro q hq
  have hcons : q ∈ p :: n.seenProposals := by
    simp only [see] at hq
    split at hq
    · cases hq
    · exact hq
  obtain rfl | hq := List.mem_cons.mp hcons
  · exact .inr (mem_insert_self _ _)
  · exact (hcol.seen q hq).imp_right mem_insert_of_mem

theorem step
    (hwithin : d.exhausted = false) (htime : d.tooFarAhead = false) (hnew : d.proposal ∉ before)
    (hfew : ((insert d.proposal.hash blocks).image leaderOf).card ≤ maxPosAggCommitteeSize) :
    Collected leaderOf height before (insert d.proposal.hash blocks)
      (n.onProposal leaderOf height d) := by
  have hseen := hcol.seen_see d.proposal
  simp only [onProposal, hwithin, htime, Bool.false_eq_true, and_false, if_false]
  split
  case isTrue hdup =>
    rwa [insert_eq_of_mem ((hcol.seen _ hdup).resolve_left hnew)]
  case isFalse =>
  split
  case isTrue hout =>
    have htwo := (hcol.excluded _).mp hout
    have hmore := htwo.trans (card_le_card (subset_insert d.proposal.hash _))
    refine hcol.insert_block hcol.height_le hseen (fun _ _ => rfl) (fun _ _ => .rfl) ?_
      ⟨fun _ => hmore, fun _ => hout⟩
    refine fun kept => iff_of_false (fun hkept => ?_) fun hone => ?_
    · rw [(hcol.candidate _ _).mp hkept, card_singleton] at htwo
      omega
    · rw [hone, card_singleton] at hmore
      omega
  case isFalse hin =>
  split
  case h_1 kept hkept =>
    have hone := (hcol.candidate _ _).mp hkept
    split
    case isTrue hsame =>
      have hmem : kept ∈ blocksOf leaderOf blocks _ := hone ▸ mem_singleton_self kept
      have hknown := insert_eq_of_mem (hsame ▸ (mem_filter.mp hmem).1)
      rw [hknown] at hseen ⊢
      exact ⟨hcol.height_le, hseen, hcol.candidate, hcol.excluded⟩
    case isFalse hother =>
      have hheight : n.roundHeight = height := by
        by_contra hne
        simp [candidatesAt, see, hne] at hkept
      have htwo : (insert d.proposal.hash {kept} : Finset Uint256).card = 2 :=
        card_pair (Ne.symm hother)
      refine hcol.insert_block hcol.height_le hseen ?_ ?_ ?_ ?_
      · intro leader hne
        simp [candidatesAt, see, hheight, KeyedMap.getElem?_erase_eq, hne.symm]
      · intro leader hne
        simp [excludedAt, see, hheight, hne]
      · intro single
        refine iff_of_false ?_ fun hsingle => ?_
        · simp [candidatesAt, see, hheight]
        · rw [hone] at hsingle
          rw [hsingle, card_singleton] at htwo
          omega
      · rw [hone, htwo]
        simp [excludedAt, see, hheight]
  case h_2 hnone =>
    have hfresh : blocksOf leaderOf blocks (leaderOf d.proposal.hash) = ∅ := by
      have hfew := mt (hcol.excluded _).mpr hin
      by_contra hsome
      have hcard := card_pos.mpr (nonempty_iff_ne_empty.mpr hsome)
      obtain ⟨kept, hone⟩ := card_eq_one.mp (by omega :
        (blocksOf leaderOf blocks (leaderOf d.proposal.hash)).card = 1)
      cases hnone.symm.trans ((hcol.candidate _ _).mpr hone)
    rw [recordCandidate_eq (n := n.see d.proposal) hcol.height_le hin hnone (hcol.size_lt hfresh hfew)]
    refine hcol.insert_block le_rfl hseen (fun leader hne => ?_) (fun leader _ => ?_) ?_ ?_
    · rw [candidatesAt, if_pos rfl, KeyedMap.getElem?_insert_eq, if_neg hne.symm]
      rfl
    · rw [excludedAt, if_pos rfl]
      rfl
    · simp [candidatesAt, hfresh]
    · rw [hfresh, excludedAt, if_pos rfl]
      exact iff_of_false hin (by simp)

omit hcol

end Collected

def delivered (ds : List Delivery) : Finset Uint256 := (ds.map (·.proposal.hash)).toFinset

/-- The deliveries all fall into one collection of a node that starts on the height with them,
and its clock lets it back each block. -/
structure OneCollection (height : ℕ) (n : CollectionNode) (ds : List Delivery) : Prop where
  below : n.roundHeight < height
  fresh : ∀ d ∈ ds, d.proposal ∉ n.seenProposals
  within : ∀ d ∈ ds, d.exhausted = false
  timely : ∀ d ∈ ds, d.tooFarAhead = false

/-- Whatever the order and the duplicates, the node ends with what the set of delivered blocks
determines. -/
theorem OneCollection.collected {ds : List Delivery} (hone : OneCollection height n ds)
    (hfew : ((delivered ds).image leaderOf).card ≤ maxPosAggCommitteeSize) :
    Collected leaderOf height n.seenProposals (delivered ds)
      (ds.foldl (onProposal leaderOf height) n) := by
  -- the last delivery finds a state determined by the earlier ones
  induction ds using List.reverseRecOn with
  | nil =>
    exact { height_le := hone.below.le
            seen := fun _ hp => .inl hp
            candidate := by simp [candidatesAt, hone.below.ne, blocksOf, delivered, eq_comm (a := ∅)]
            excluded := by simp [excludedAt, hone.below.ne, blocksOf, delivered] }
  | append_singleton ds d ih =>
    have hsub : ds ⊆ ds ++ [d] := List.subset_append_left ds [d]
    have hlast : d ∈ ds ++ [d] := by simp
    have hinsert : delivered (ds ++ [d]) = insert d.proposal.hash (delivered ds) := by
      ext hash
      simp [delivered, eq_comm]
    rw [hinsert] at hfew ⊢
    rw [List.foldl_append]
    have hprev := ih ⟨hone.below, fun e he => hone.fresh e (hsub he),
      fun e he => hone.within e (hsub he), fun e he => hone.timely e (hsub he)⟩
      ((card_le_card (image_subset_image (subset_insert _ _))).trans hfew)
    exact hprev.step (hone.within d hlast) (hone.timely d hlast) (hone.fresh d hlast) hfew

/-- Two nodes that receive the same blocks of at most `maxPosAggCommitteeSize` leaders within one
collection, in any orders and with any duplicates, keep the one block of each leader that sent
one, exclude the leaders that sent more and back the same block in every round. -/
theorem collection_confluent (leaderOf : Uint256 → CPubKey) {height : ℕ} {a b : CollectionNode}
    {as bs : List Delivery} (ha : OneCollection height a as) (hb : OneCollection height b bs)
    (hsame : delivered as = delivered bs)
    (hfew : ((delivered as).image leaderOf).card ≤ maxPosAggCommitteeSize) :
    let a' := as.foldl (onProposal leaderOf height) a
    let b' := bs.foldl (onProposal leaderOf height) b
    (∀ leader hash, (a'.candidatesAt height)[leader]? = some hash ↔
      blocksOf leaderOf (delivered as) leader = {hash}) ∧
    (∀ leader, leader ∈ a'.excludedAt height ↔
      2 ≤ (blocksOf leaderOf (delivered as) leader).card) ∧
    a'.candidatesAt height = b'.candidatesAt height ∧
    (∀ leader, leader ∈ a'.excludedAt height ↔ leader ∈ b'.excludedAt height) ∧
    ∀ before r, a'.backedForRound before height r = b'.backedForRound before height r := by
  intro a' b'
  have hcola : Collected leaderOf height _ _ a' := ha.collected hfew
  have hcolb : Collected leaderOf height _ _ b' := hb.collected (hsame ▸ hfew)
  rw [← hsame] at hcolb
  have hcandidates : a'.candidatesAt height = b'.candidatesAt height := by
    refine ext_getElem? fun leader => Option.ext fun hash => ?_
    exact (hcola.candidate leader hash).trans (hcolb.candidate leader hash).symm
  refine ⟨hcola.candidate, hcola.excluded, hcandidates, ?_, ?_⟩
  · exact fun leader => (hcola.excluded leader).trans (hcolb.excluded leader).symm
  · intro before r
    simp only [backedForRound, hcandidates]

/-- A leader for each block number. -/
def sampleLeader (hash : Uint256) : CPubKey := ⟨[UInt8.ofBitVec (hash.val.setWidth 8)]⟩

def proposalsOf (numbers : List ℕ) : List Delivery :=
  numbers.map fun i => { proposal := ⟨⟨BitVec.ofNat 256 i⟩, []⟩ }

/-- A node that has not started on height 1. -/
def idleNode : CollectionNode := ⟨0, ∅, [], []⟩

/-- Block 258 is a second block of the leader of block 2. One node gets it last, the other first
and block 2 twice. -/
theorem collection_confluent_crossed :
    let run := fun numbers =>
      (proposalsOf numbers).foldl (onProposal sampleLeader 1) idleNode
    (run [1, 2, 258]).candidatesAt 1 = (run [258, 2, 1, 2]).candidatesAt 1 ∧
      sampleLeader 2 ∈ (run [258, 2, 1, 2]).excludedAt 1 :=
  have ha : OneCollection 1 idleNode (proposalsOf [1, 2, 258]) :=
    ⟨by decide, by decide, by decide, by decide⟩
  have hb : OneCollection 1 idleNode (proposalsOf [258, 2, 1, 2]) :=
    ⟨by decide, by decide, by decide, by decide⟩
  have hall := collection_confluent sampleLeader ha hb (by decide) (by decide)
  ⟨hall.2.2.1, (hall.2.2.2.1 _).mp ((hall.2.1 _).mpr (by decide))⟩

/-- With 101 leaders that sent one block each, the leader that is heard last is neither recorded
nor excluded, so two nodes that hear them in opposite orders keep different candidates. -/
theorem last_leader_not_recorded :
    let run := fun numbers =>
      (proposalsOf numbers).foldl (onProposal sampleLeader 1) idleNode
    ((run (List.range 101)).candidatesAt 1)[sampleLeader 100]? = none ∧
      ((run (List.range 101).reverse).candidatesAt 1)[sampleLeader 100]? = some 100 := by
  decide +kernel

end Sequentia.Producer
