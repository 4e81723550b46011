import Sequentia.Crypto
import Sequentia.Params
import Sequentia.Lib.Tally
import Sequentia.Stake.Registry
import Mathlib.Data.List.Sort

/-!
# The public committee of a slot

Below the hardening height the committee is a prefix of the leader schedule, one seat for
each member. From it on, the seats are apportioned to the eligible stakers by stake, and
what the whole parts of the quotas leave is drawn from the seed. Weights are unsigned
64-bit numbers and seats signed 32-bit numbers, with the conversions of the node.
-/

namespace Sequentia

open Std KeyedMap

namespace StakeRegistry

variable (r : StakeRegistry)

/-- `MergedLocked`: configured and staked weight, by controller. -/
def merged : ExtTreeMap CPubKey ℕ :=
  r.stake.utxo.toList.foldl
    (fun merged e => merged.insert e.1 (toUint64 (merged.getD e.1 0 + e.2))) r.config

/-- `WeightsLocked`: the weight by signer, delegation applied. -/
def weights : ExtTreeMap CPubKey ℕ :=
  r.merged.toList.foldl (fun out e =>
    let signer := r.signerFor e.1
    out.insert signer (toUint64 (out.getD signer 0 + e.2))) ∅

end StakeRegistry

def posIsEligibleStake (params : Params) (weight : ℕ) : Bool :=
  decide (max params.posMinStake 1 ≤ weight)

section Schedule

variable (params : Params) (crypto : Crypto) (registry : StakeRegistry) (seed : Uint256)

/-- `WeightedTicket`: the lower the better. -/
def weightedTicket (pubkey : CPubKey) (weight : ℕ) : ℕ :=
  let value := leNat (crypto.sha256 (seed.bytes ++ pubkey.vch))
  if weight = 0 then value else value / weight

def ticketLe (a b : ℕ × CPubKey) : Bool :=
  if a.1 ≠ b.1 then decide (a.1 < b.1) else (compare a.2 b.2).isLE

def posSchedule : List CPubKey :=
  let ranked := (registry.weights.toList.filter fun e => posIsEligibleStake params e.2).map
    fun e => (weightedTicket crypto seed e.1 e.2, e.1)
  (ranked.insertionSort fun a b => ticketLe a b = true).map Prod.snd

/-- `PosPublicCommittee`: the cap is looked at after a member has been added. -/
def posPublicCommittee : List CPubKey :=
  ((posSchedule params crypto registry seed).filter registry.hasBls).take
    (max params.posCommitteeSize.toNat 1)

end Schedule

structure PosCommitteeSeats where
  /-- The members, in the order of the bitfield. -/
  members : List CPubKey
  seats : List ℤ
  total : ℤ

def PosCommitteeSeats.seatsOf (committee : PosCommitteeSeats) (pubkey : CPubKey) : ℤ :=
  postedTo (committee.members.zip committee.seats) pubkey

/-- A staker whose seats are being counted: its whole seats and its remainder. -/
structure Quota where
  pubkey : CPubKey
  whole : ℕ
  /-- The rest, in units of one part in the weight of all. -/
  rem : ℕ

/-- The draw of the seats left over: the loop over the pool, from the point `cum` on, when
`drawn` seats have been drawn. -/
def drawSeats (W u left : ℕ) : ℕ → ℕ → List Quota → List (CPubKey × ℤ)
  | _, _, [] => []
  | cum, drawn, q :: quotas =>
    let t := u + drawn * W
    if drawn < left ∧ cum ≤ t ∧ t < cum + q.rem then
      (q.pubkey, toInt32 q.whole + 1) :: drawSeats W u left (cum + q.rem) (drawn + 1) quotas
    else (q.pubkey, toInt32 q.whole) :: drawSeats W u left (cum + q.rem) drawn quotas

section Seats

variable (params : Params) (crypto : Crypto) (registry : StakeRegistry) (seed : Uint256)

/-- The stakers that can hold seats, with their weights. -/
def eligibleStakers : List (CPubKey × ℕ) :=
  registry.weights.toList.filter fun e => posIsEligibleStake params e.2 && registry.hasBls e.1

/-- The ticket that orders a staker in the draw. -/
def seatTicket (pubkey : CPubKey) : Uint256 :=
  crypto.hash (sized (charBytes ['S', 'E', 'Q', 'S', 'E', 'A', 'T']) ++ seed.bytes ++
    sized pubkey.vch)

/-- The order of the draw: by ticket, then by key. -/
def seatLe (a b : CPubKey × ℕ) : Bool :=
  if seatTicket crypto seed a.1 ≠ seatTicket crypto seed b.1 then
    (compare (seatTicket crypto seed a.1) (seatTicket crypto seed b.1)).isLT
  else (compare a.1 b.1).isLE

/-- Where the draw starts: 128 bits of a hash, modulo the weight. -/
def seatOffset (W : ℕ) : ℕ :=
  let offsetHash := crypto.hash (sized (charBytes
    ['S', 'E', 'Q', 'S', 'E', 'A', 'T', 'O', 'F', 'F', 'S', 'E', 'T']) ++ seed.bytes)
  beNat (offsetHash.bytes.take 16) % W

/-- The seats of every eligible staker, in the order of the draw. -/
def allotSeats (K : ℕ) : List (CPubKey × ℤ) :=
  let pool := eligibleStakers params registry
  let W := pool.foldl (fun W e => toUint64 (W + e.2)) 0
  if K = 0 ∨ pool = [] ∨ W = 0 then []
  else
    let seatsTotal := min K pool.length
    let quotas := (pool.insertionSort fun a b => seatLe crypto seed a b = true).map fun e =>
      Quota.mk e.1 (toUint64 (seatsTotal * e.2 / W)) (seatsTotal * e.2 % W)
    let assigned := quotas.foldl (fun assigned q => toUint64 (assigned + q.whole)) 0
    let left := toUint64 (seatsTotal + 2 ^ 64 - assigned)
    drawSeats W (seatOffset crypto seed W) left 0 0 quotas

def posPublicCommitteeSeats (height : ℕ) : PosCommitteeSeats :=
  if !params.posHardeningActiveAt height then
    let members := posPublicCommittee params crypto registry seed
    ⟨members, List.replicate members.length 1, members.length⟩
  else
    let holders := (allotSeats params crypto registry seed params.posCommitteeSize.toNat).filter
      fun e => 0 < e.2
    ⟨holders.map Prod.fst, holders.map Prod.snd, (holders.map Prod.snd).sum⟩

def posPublicCommitteeSize : ℕ :=
  min (eligibleStakers params registry).length params.posCommitteeSize.toNat

end Seats

def posPublicQuorum (k : ℤ) : ℤ := if k ≤ 0 then 0 else min k (k / 2 + 1 + k % 2)

def posQuorum (committeeSize : ℕ) : ℤ :=
  if committeeSize = 0 then 0 else (committeeSize / 2 : ℕ) + 1

/-- `PosPublicSeatTotal`: the height does not matter. -/
def posPublicSeatTotal (params : Params) (registry : StakeRegistry) (_height : ℕ) : ℕ :=
  posPublicCommitteeSize params registry

def posSlotQuorum (params : Params) (registry : StakeRegistry) : ℤ :=
  if params.posPublicCommittee then posPublicQuorum (posPublicCommitteeSize params registry)
  else posQuorum (max params.posCommitteeSize 1).toNat

def posSlotQuorumAt (params : Params) (registry : StakeRegistry) (height : ℕ) : ℤ :=
  if params.posPublicCommittee && params.posHardeningActiveAt height then
    posPublicQuorum (posPublicSeatTotal params registry height)
  else posSlotQuorum params registry

end Sequentia
