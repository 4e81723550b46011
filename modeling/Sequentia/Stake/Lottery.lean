import Sequentia.Committee.Seats
import Sequentia.Lib.WeightedPick
import Sequentia.Stake.Participants
import Sequentia.Pots.Coverage

/-!
# Whom the coinbase must pay

The policy of the leader decides about the script of the coinbase. A lottery draws a ticket
below the total weight of the pool and walks along its participants. As long as their weights
add up to less than 2^64, each participant is drawn by exactly as many tickets as its weight.
Beyond that the total wraps around, and participants lose their tickets.
-/

namespace Sequentia

open Std KeyedMap WeightedPick

/-- `ParticipantsFor`: every controller whose weight counts for `signer`. -/
def StakeRegistry.participantsFor (r : StakeRegistry) (signer : CPubKey) : ExtTreeMap CPubKey ℕ :=
  r.merged.filter fun c weight => 0 < weight && r.signerFor c == signer

section Coinbase

variable (crypto : Crypto) (registry : StakeRegistry) (leader : CPubKey)

def posLeaderFeeScript (key : CPubKey) : CScript := witnessV0KeyHashScript (key.getID crypto)

/-- `PayoutDraw`: 64 bits of the hash of the seed and a tag. -/
def payoutDraw (seed : Uint256) (tag : Bytes) : ℕ :=
  leNat ((crypto.sha256 (seed.bytes ++ tag)).take 8)

def commissionDrawn (policy : PosPayoutPolicy) (seed : Uint256) : Bool :=
  decide (0 < policy.commissionBp) &&
    decide (payoutDraw crypto seed (charBytes ['s', 'e', 'q', 'p', 'a', 'y', ':', 'c', 'o', 'm',
      'm', 'i', 's', 's', 'i', 'o', 'n']) % posCommissionDenom < policy.commissionBp)

/-- The total weight of the participants, as the lottery adds it up. -/
def lotteryTotal : ℕ :=
  (registry.participantsFor leader).toList.foldl (fun total e => toUint64 (total + e.2)) 0

/-- The participant that a ticket draws; `none` is the payee behind the loop. -/
def lotteryPayee (ticket : ℕ) : Option CPubKey :=
  pick (registry.participantsFor leader).toList ticket

def lotteryTicket (seed : Uint256) : ℕ :=
  payoutDraw crypto seed (charBytes ['s', 'e', 'q', 'p', 'a', 'y', ':', 'w', 'i', 'n', 'n', 'e',
    'r']) % lotteryTotal registry leader

def posRequiredCoinbaseScript (height : ℕ) (seed : Uint256) : CScript :=
  match registry.payoutFor leader height with
  | none => posLeaderFeeScript crypto leader
  | some policy =>
    if policy.mode = .direct then policy.script
    else if policy.mode = .split then
      if commissionDrawn crypto policy seed then posLeaderFeeScript crypto leader
      else buildPotScript leader
    else if commissionDrawn crypto policy seed then posLeaderFeeScript crypto leader
    else if lotteryTotal registry leader = 0 then posLeaderFeeScript crypto leader
    else
      match lotteryPayee registry leader (lotteryTicket crypto registry leader seed) with
      | some c => posLeaderFeeScript crypto c
      | none => posLeaderFeeScript crypto leader

/-- The weights of the participants together, however large. -/
def participantsWeight : ℕ := total (registry.participantsFor leader).toList

structure FairLottery : Prop where
  exact : ∀ c, ((Finset.range (lotteryTotal registry leader)).filter fun ticket =>
      lotteryPayee registry leader ticket = some c).card =
    if registry.signerFor c = leader then registry.merged.getD c 0 else 0
  /-- While there is weight in the pool, the coinbase pays the participant that is drawn. -/
  drawn : 0 < participantsWeight registry leader → ∀ height seed policy,
    registry.payoutFor leader height = some policy → policy.mode = .lottery →
    commissionDrawn crypto policy seed = false →
    ∃ c, lotteryTicket crypto registry leader seed < lotteryTotal registry leader ∧
      lotteryPayee registry leader (lotteryTicket crypto registry leader seed) = some c ∧
      posRequiredCoinbaseScript crypto registry leader height seed = posLeaderFeeScript crypto c

end Coinbase

variable {crypto : Crypto} {registry : StakeRegistry} {leader : CPubKey}

theorem weight_participantsFor (c : CPubKey) :
    weight (registry.participantsFor leader).toList c =
      if registry.signerFor c = leader then registry.merged.getD c 0 else 0 := by
  rw [weight_toList, StakeRegistry.participantsFor, ExtTreeMap.getD_eq_getD_getElem?,
    ExtTreeMap.getElem?_filter', ExtTreeMap.getD_eq_getD_getElem?]
  cases registry.merged[c]? with
  | none => simp
  | some w =>
    rw [Option.filter_some]
    by_cases hsigner : registry.signerFor c = leader
    · by_cases hw : 0 < w
      · simp [hsigner, hw]
      · simp [hsigner, hw, Nat.eq_zero_of_not_pos hw]
    · simp [hsigner]

theorem lotteryTotal_eq :
    lotteryTotal registry leader = toUint64 (participantsWeight registry leader) :=
  foldl_toUint64_add Prod.snd _

/-- The lottery is fair exactly if the weights of the participants add up to less than 2^64. -/
theorem fairLottery_iff :
    FairLottery crypto registry leader ↔ participantsWeight registry leader < 2 ^ 64 := by
  constructor
  · intro hfair
    -- Each participant has a ticket for each unit of weight, and tickets are below 2^64.
    have hle : participantsWeight registry leader ≤ lotteryTotal registry leader := by
      refine total_le_of_card_tickets (nodup_fst_toList _) fun e he => ?_
      rw [← weight_of_mem (nodup_fst_toList _) he, weight_participantsFor]
      exact hfair.exact e.1
    have hlt : lotteryTotal registry leader < 2 ^ 64 := by
      rw [lotteryTotal_eq]
      exact Nat.mod_lt _ (by decide)
    omega
  · intro hlt
    have htotal : lotteryTotal registry leader = participantsWeight registry leader := by
      rw [lotteryTotal_eq, toUint64_of_lt hlt]
    refine ⟨fun c => ?_, ?_⟩
    · rw [htotal, ← weight_participantsFor]
      exact card_tickets _ c
    · intro hpos height seed policy hpolicy hmode hcommission
      have hpos' : 0 < lotteryTotal registry leader := htotal ▸ hpos
      have hticket : lotteryTicket crypto registry leader seed < lotteryTotal registry leader :=
        Nat.mod_lt _ hpos'
      obtain ⟨c, hc⟩ := Option.isSome_iff_exists.mp
        (isSome_pick.mpr (htotal ▸ hticket :
          lotteryTicket crypto registry leader seed < participantsWeight registry leader))
      refine ⟨c, hticket, hc, ?_⟩
      unfold posRequiredCoinbaseScript
      simp [hpolicy, hmode, hcommission, hpos'.ne', lotteryPayee, hc]

/-- A pool of two stakers whose weights wrap around to one. -/
def halvesRegistry : StakeRegistry :=
  poolOf [(sampleController, 2 ^ 63), (sampleSigner, 2 ^ 63 + 1)]

/-- There is one ticket, and the staker with the larger weight does not have it. -/
theorem wrapped_lottery_starves : lotteryTotal halvesRegistry sampleController = 1 ∧
      halvesRegistry.signerFor sampleSigner = sampleController ∧
      halvesRegistry.merged.getD sampleSigner 0 = 2 ^ 63 + 1 ∧
      ((Finset.range (lotteryTotal halvesRegistry sampleController)).filter fun ticket =>
        lotteryPayee halvesRegistry sampleController ticket = some sampleSigner).card = 0 := by
  decide +kernel

end Sequentia
