import Sequentia.Stake.Participants

/-!
# Rounds and what their buckets are owed

The pots of one epoch become a round. Its participants are spread over buckets by a
salted hash, and each claim pays one bucket: every participant in it is owed its share of
the distributable value, by weight, as the registry stands at the time of the claim.
-/

namespace Sequentia

open Std KeyedMap

def posSplitMinPayout : ℤ := 1000

def posSplitWithholdRatio : ℤ := 99

def posSplitReserveDenom : ℤ := 100

def posRoundBucketTarget : ℕ := 32

/-- The doubling loop of `PosRoundBucketCount`, from `buckets` on. -/
def doubleBuckets (want : ℕ) : ℕ → ℕ → ℕ
  | 0, buckets => buckets
  | fuel + 1, buckets =>
    if buckets < want ∧ buckets < posRoundMaxBuckets then doubleBuckets want fuel (2 * buckets)
    else buckets

/-- `PosRoundBucketCount`. The bound of 2048 buckets is reached after eleven doublings. -/
def posRoundBucketCount (participants : ℕ) : ℕ :=
  doubleBuckets ((participants + posRoundBucketTarget - 1) / posRoundBucketTarget) 11 1

def posRoundBucket (crypto : Crypto) (salt : Uint256) (controller : CPubKey) (buckets : ℕ) : ℕ :=
  let out := crypto.sha256
    (charBytes ['S', 'E', 'Q', 'B', 'K', 'T'] ++ salt.bytes ++ controller.vch)
  leNat (out.take 4) &&& (buckets - 1)

def COutPoint.bytes (outpoint : COutPoint) : Bytes := outpoint.hash.bytes ++ leBytes 4 outpoint.n

/-- `PosRoundSalt`: a hash of a tagged list of outpoints. -/
def posRoundSalt (crypto : Crypto) (sortedPots : List COutPoint) : Uint256 :=
  Uint256.ofBytes (crypto.sha256
    (10 :: charBytes ['S', 'E', 'Q', 'R', 'N', 'D', 'S', 'A', 'L', 'T'] ++
      sortedPots.flatMap COutPoint.bytes))

/-- The block at which an epoch starts, as a signed 32-bit number. -/
def Params.epochStart (params : Params) (epoch : ℕ) : ℕ :=
  min (epoch * params.posSplitEpoch) (2 ^ 31 - 1)

def distributablePart (value : ℤ) : ℤ := value - value / posSplitReserveDenom

def PosRound.cut (round : PosRound) (weight : ℕ) : ℤ :=
  toInt64 ((distributablePart round.distributable).toNat * weight / round.weight)

section Owed

variable (params : Params) (crypto : Crypto) (registry : StakeRegistry)

/-- The weight a participant counts with in a round: the pool's own is capped. -/
def PosRound.weightOf (round : PosRound) (signer controller : CPubKey) (current : ℕ) : ℕ :=
  if controller = signer then min current round.signerWeight else current

/-- `PosRoundBucketOwed`: what paying `bucket` owes each of its participants. -/
def posRoundBucketOwed (signer : CPubKey) (round : PosRound) (bucket : ℕ) :
    List (CPubKey × ℤ) :=
  (registry.participantsBefore signer (params.epochStart round.epoch)).toList.filterMap
    fun (controller, current) =>
      if posRoundBucket crypto round.salt controller round.buckets ≠ bucket then none
      else
        let cut := round.cut (round.weightOf signer controller current)
        if posSplitMinPayout ≤ cut then some (controller, cut) else none

/-- The sum that paying a bucket pays out. -/
def bucketTotal (signer : CPubKey) (round : PosRound) (bucket : ℕ) : ℤ :=
  ((posRoundBucketOwed params crypto registry signer round bucket).map Prod.snd).sum

end Owed

end Sequentia
