import Sequentia.Committee.Seats
import Sequentia.Lib.SystematicDraw
import Sequentia.Stake.Sync
import Mathlib.Algebra.BigOperators.Ring.Finset
import Mathlib.Algebra.Order.BigOperators.Group.List

/-!
# What the seat rule hands out

As long as the weights of the eligible stakers can be added up without wrapping around,
the loops of the seat rule are a systematic draw: no seat is lost and none is handed out
twice, and nobody is a seat away from its quota.
-/

namespace Sequentia

open Std KeyedMap List

def eligibleWeight (params : Params) (registry : StakeRegistry) : ℕ :=
  ((eligibleStakers params registry).map Prod.snd).sum

def wholeSeats (params : Params) (registry : StakeRegistry) (weight : ℕ) : ℕ :=
  posPublicCommitteeSize params registry * weight / eligibleWeight params registry

def wholeTotal (params : Params) (registry : StakeRegistry) : ℕ :=
  ((eligibleStakers params registry).map fun e => wholeSeats params registry e.2).sum

section Draw

variable (W u left : ℕ)

theorem drawSeats_forall₂ (cum drawn : ℕ) (quotas : List Quota) :
    List.Forall₂ (fun q (p : CPubKey × ℤ) => p.1 = q.pubkey ∧
      (p.2 = toInt32 q.whole ∨ p.2 = toInt32 q.whole + 1)) quotas
      (drawSeats W u left cum drawn quotas) := by
  induction quotas generalizing cum drawn with
  | nil => exact .nil
  | cons q quotas ih =>
    rw [drawSeats]
    split
    · exact forall₂_cons.mpr ⟨⟨rfl, .inr rfl⟩, ih _ _⟩
    · exact forall₂_cons.mpr ⟨⟨rfl, .inl rfl⟩, ih _ _⟩

theorem sum_drawSeats (cum drawn : ℕ) (quotas : List Quota) :
    ((drawSeats W u left cum drawn quotas).map Prod.snd).sum =
      (quotas.map fun q => toInt32 q.whole).sum +
        (SystematicDraw.draw W u left cum drawn (quotas.map Quota.rem)).sum := by
  induction quotas generalizing cum drawn with
  | nil => simp [drawSeats, SystematicDraw.draw]
  | cons q quotas ih =>
    rw [drawSeats, map_cons, map_cons, sum_cons, SystematicDraw.draw]
    generalize toInt32 q.whole = seats
    split
    · rw [map_cons, sum_cons, ih, sum_cons]
      push_cast
      ring
    · rw [map_cons, sum_cons, ih, sum_cons]
      push_cast
      ring

end Draw

section Allot

variable {params : Params} (crypto : Crypto) {registry : StakeRegistry} (seed : Uint256)

variable {e : CPubKey × ℕ}

theorem pos_of_mem_eligibleStakers (he : e ∈ eligibleStakers params registry) : 0 < e.2 := by
  rw [eligibleStakers, mem_filter, Bool.and_eq_true, posIsEligibleStake,
    decide_eq_true_eq] at he
  have hmin := he.2.1
  omega

theorem eligibleWeight_pos (hpool : eligibleStakers params registry ≠ []) :
    0 < eligibleWeight params registry := by
  obtain ⟨e, he⟩ := exists_mem_of_ne_nil _ hpool
  have hle : e.2 ≤ eligibleWeight params registry :=
    single_le_sum (by simp) _ (mem_map_of_mem he)
  exact Nat.lt_of_lt_of_le (pos_of_mem_eligibleStakers he) hle

theorem posPublicCommitteeSize_lt (params : Params) (registry : StakeRegistry) :
    posPublicCommitteeSize params registry < 2 ^ 31 := by
  have hlt := params.posCommitteeSize_lt
  unfold posPublicCommitteeSize
  omega

theorem wholeSeats_le (he : e ∈ eligibleStakers params registry) :
    wholeSeats params registry e.2 ≤ posPublicCommitteeSize params registry := by
  have hle : e.2 ≤ eligibleWeight params registry :=
    single_le_sum (by simp) _ (mem_map_of_mem he)
  have hpos := Nat.lt_of_lt_of_le (pos_of_mem_eligibleStakers he) hle
  exact Nat.div_le_of_le_mul (by rw [Nat.mul_comm]; exact Nat.mul_le_mul_right _ hle)

theorem sum_wholeSeats_le (params : Params) (registry : StakeRegistry) :
    wholeTotal params registry ≤
      posPublicCommitteeSize params registry := by
  by_cases hpool : eligibleStakers params registry = []
  · simp [wholeTotal, hpool]
  · have hle := SystematicDraw.sum_whole_le (posPublicCommitteeSize params registry)
      (eligibleWeight_pos hpool)
    rw [map_map] at hle
    exact hle

def exactQuota (params : Params) (registry : StakeRegistry) (e : CPubKey × ℕ) : Quota where
  pubkey := e.1
  whole := wholeSeats params registry e.2
  rem := posPublicCommitteeSize params registry * e.2 % eligibleWeight params registry

def seatOrder (params : Params) (crypto : Crypto) (registry : StakeRegistry) (seed : Uint256) :
    List (CPubKey × ℕ) :=
  (eligibleStakers params registry).insertionSort fun a b => seatLe crypto seed a b = true

theorem seatOrder_perm (params : Params) (registry : StakeRegistry) :
    (seatOrder params crypto registry seed).Perm (eligibleStakers params registry) :=
  perm_insertionSort _ _

/-- The seats that the whole parts of the quotas leave. -/
def leftSeats (params : Params) (registry : StakeRegistry) : ℕ :=
  posPublicCommitteeSize params registry -
    wholeTotal params registry

/-- The seats that the rule hands out. -/
def allotment (params : Params) (crypto : Crypto) (registry : StakeRegistry) (seed : Uint256) :
    List (CPubKey × ℤ) :=
  allotSeats params crypto registry seed params.posCommitteeSize.toNat

theorem toInt32_wholeSeats (he : e ∈ seatOrder params crypto registry seed) :
    toInt32 (wholeSeats params registry e.2) = wholeSeats params registry e.2 := by
  have hle := wholeSeats_le ((seatOrder_perm crypto seed params registry).mem_iff.mp he)
  exact toInt32_of_lt (Nat.lt_of_le_of_lt hle (posPublicCommitteeSize_lt params registry))

theorem allotment_of_nil (hpool : eligibleStakers params registry = []) :
    allotment params crypto registry seed = [] := by
  simp [allotment, allotSeats, hpool]

variable (hsize : 0 < params.posCommitteeSize)
  (hweight : eligibleWeight params registry < 2 ^ 64)

include hsize hweight

theorem allotSeats_eq (hpool : eligibleStakers params registry ≠ []) :
    allotment params crypto registry seed =
      drawSeats (eligibleWeight params registry)
        (seatOffset crypto seed (eligibleWeight params registry)) (leftSeats params registry) 0 0
        ((seatOrder params crypto registry seed).map (exactQuota params registry)) := by
  have hW : (eligibleStakers params registry).foldl (fun W e => toUint64 (W + e.2)) 0 =
      eligibleWeight params registry := by
    rw [foldl_toUint64_add]
    exact toUint64_of_lt hweight
  have hguard : ¬ (params.posCommitteeSize.toNat = 0 ∨ eligibleStakers params registry = [] ∨
      eligibleWeight params registry = 0) := by
    have hpos := eligibleWeight_pos hpool
    rintro (hzero | hnil | hzero)
    · omega
    · exact hpool hnil
    · omega
  have hmin : min params.posCommitteeSize.toNat (eligibleStakers params registry).length =
      posPublicCommitteeSize params registry := Nat.min_comm _ _
  have hcap := posPublicCommitteeSize_lt params registry
  have hquotas : ((seatOrder params crypto registry seed).map fun e => Quota.mk e.1
      (toUint64 (posPublicCommitteeSize params registry * e.2 / eligibleWeight params registry))
      (posPublicCommitteeSize params registry * e.2 % eligibleWeight params registry)) =
      (seatOrder params crypto registry seed).map (exactQuota params registry) := by
    refine map_congr_left fun e he => ?_
    have hle := wholeSeats_le ((seatOrder_perm crypto seed params registry).mem_iff.mp he)
    have hwhole : toUint64 (wholeSeats params registry e.2) = wholeSeats params registry e.2 :=
      toUint64_of_lt (by omega)
    exact congrArg (fun whole => Quota.mk e.1 whole _) hwhole
  have hassigned : ((seatOrder params crypto registry seed).map
      fun e => (exactQuota params registry e).whole).sum =
      wholeTotal params registry :=
    ((seatOrder_perm crypto seed params registry).map _).sum_eq
  have hle := sum_wholeSeats_le params registry
  have hsum : toUint64 (wholeTotal params registry) =
      wholeTotal params registry :=
    toUint64_of_lt (Nat.lt_trans (Nat.lt_of_le_of_lt hle hcap) (by decide))
  have hleft : toUint64 (posPublicCommitteeSize params registry + 2 ^ 64 -
      wholeTotal params registry) =
      leftSeats params registry := by
    unfold toUint64 leftSeats
    omega
  rw [allotment, allotSeats]
  simp only [hW, if_neg hguard, hmin]
  rw [← seatOrder, hquotas, foldl_toUint64_add, map_map]
  simp only [Function.comp_def]
  rw [hassigned, hsum, hleft]

theorem allotSeats_forall₂ : List.Forall₂ (fun e (p : CPubKey × ℤ) => p.1 = e.1 ∧
      (p.2 = wholeSeats params registry e.2 ∨ p.2 = wholeSeats params registry e.2 + 1))
      (seatOrder params crypto registry seed)
      (allotment params crypto registry seed) := by
  by_cases hpool : eligibleStakers params registry = []
  · simp [allotment_of_nil crypto seed hpool, seatOrder, hpool]
  rw [allotSeats_eq crypto seed hsize hweight hpool]
  have hdraw := drawSeats_forall₂ (eligibleWeight params registry)
    (seatOffset crypto seed (eligibleWeight params registry)) (leftSeats params registry) 0 0
    ((seatOrder params crypto registry seed).map (exactQuota params registry))
  rw [forall₂_map_left_iff] at hdraw
  refine List.Forall₂.imp ?_ ((forall₂_and_left _ _).mpr
    ⟨fun e he => toInt32_wholeSeats crypto seed he, hdraw⟩)
  rintro e p ⟨hexact, hkey, hseats⟩
  rw [exactQuota, hexact] at hseats
  exact ⟨hkey, hseats⟩

/-- No seat is lost and none is handed out twice. -/
theorem sum_allotSeats :
    ((allotment params crypto registry seed).map Prod.snd).sum =
      posPublicCommitteeSize params registry := by
  by_cases hpool : eligibleStakers params registry = []
  · simp [allotment_of_nil crypto seed hpool, posPublicCommitteeSize, hpool]
  have hW : ((seatOrder params crypto registry seed).map Prod.snd).sum =
      eligibleWeight params registry := ((seatOrder_perm crypto seed params registry).map _).sum_eq
  have hu : seatOffset crypto seed (eligibleWeight params registry) <
      ((seatOrder params crypto registry seed).map Prod.snd).sum := by
    rw [hW]
    exact Nat.mod_lt _ (eligibleWeight_pos hpool)
  have hwhole : ((seatOrder params crypto registry seed).map
      fun e => wholeSeats params registry e.2).sum =
      wholeTotal params registry :=
    ((seatOrder_perm crypto seed params registry).map _).sum_eq
  have hint : ((seatOrder params crypto registry seed).map
      fun e => toInt32 (wholeSeats params registry e.2)) =
      (seatOrder params crypto registry seed).map
        fun e => ((wholeSeats params registry e.2 : ℕ) : ℤ) :=
    map_congr_left fun e he => toInt32_wholeSeats crypto seed he
  have hdraw := SystematicDraw.sum_draw (posPublicCommitteeSize params registry) hu
  rw [map_map, map_map, hW] at hdraw
  have hdraw' : (SystematicDraw.draw (eligibleWeight params registry)
      (seatOffset crypto seed (eligibleWeight params registry)) (leftSeats params registry) 0 0
      ((seatOrder params crypto registry seed).map fun e =>
        (exactQuota params registry e).rem)).sum = leftSeats params registry := by
    rw [leftSeats, ← hwhole]
    exact hdraw
  have hle := sum_wholeSeats_le params registry
  rw [allotSeats_eq crypto seed hsize hweight hpool, sum_drawSeats, map_map, map_map]
  calc _ = ((seatOrder params crypto registry seed).map
          fun e => ((wholeSeats params registry e.2 : ℕ) : ℤ)).sum +
        (leftSeats params registry : ℤ) :=
        congrArg₂ (· + ·) (congrArg List.sum hint) (congrArg Nat.cast hdraw')
    _ = ((wholeTotal params registry : ℕ) : ℤ) + leftSeats params registry := by
      rw [← hwhole, Nat.cast_list_sum, map_map]
      rfl
    _ = posPublicCommitteeSize params registry := by
      rw [leftSeats]
      omega

/-- The stakers of an allotment are those in the draw. -/
theorem allotSeats_keys :
    (allotment params crypto registry seed).map Prod.fst =
      (seatOrder params crypto registry seed).map Prod.fst := by
  have hkeys : List.Forall₂ (fun (p : CPubKey × ℤ) (e : CPubKey × ℕ) => p.1 = e.1)
      (allotment params crypto registry seed)
      (seatOrder params crypto registry seed) :=
    ((allotSeats_forall₂ crypto seed hsize hweight).imp fun _ _ h => h.1).flip
  rwa [← forall₂_eq_eq_eq, forall₂_map_left_iff, forall₂_map_right_iff]

theorem nodup_allotSeats :
    ((allotment params crypto registry seed).map
      Prod.fst).Nodup := by
  rw [allotSeats_keys crypto seed hsize hweight]
  exact ((seatOrder_perm crypto seed params registry).map _).nodup_iff.mpr
    ((nodup_keys_toList registry.weights).sublist (filter_sublist.map _))

theorem allotSeats_nonneg :
    ∀ p ∈ allotment params crypto registry seed, 0 ≤ p.2 := by
  intro p hp
  have hall := allotSeats_forall₂ crypto seed hsize hweight
  obtain ⟨i, hi, rfl⟩ := mem_iff_getElem.mp hp
  have hseats := (hall.get (hall.length_eq ▸ hi) hi).2
  simp only [get_eq_getElem] at hseats
  omega

end Allot

section Committee

variable {params : Params} {crypto : Crypto} {registry : StakeRegistry} {seed : Uint256}
  {height : ℕ}

theorem sum_seats (params : Params) (crypto : Crypto) (registry : StakeRegistry)
    (seed : Uint256) (height : ℕ) :
    (posPublicCommitteeSeats params crypto registry seed height).seats.sum =
      (posPublicCommitteeSeats params crypto registry seed height).total := by
  rw [posPublicCommitteeSeats]
  split
  · simp
  · rfl

theorem length_members (params : Params) (crypto : Crypto) (registry : StakeRegistry)
    (seed : Uint256) (height : ℕ) :
    (posPublicCommitteeSeats params crypto registry seed height).members.length =
      (posPublicCommitteeSeats params crypto registry seed height).seats.length := by
  rw [posPublicCommitteeSeats]
  split
  · simp
  · simp

section Fit

variable (hactive : params.posHardeningActiveAt height = true)
  (hsize : 0 < params.posCommitteeSize) (hweight : eligibleWeight params registry < 2 ^ 64)

include hactive hsize hweight

theorem seatsOf_eq (pubkey : CPubKey) :
    (posPublicCommitteeSeats params crypto registry seed height).seatsOf pubkey =
      postedTo (allotment params crypto registry seed) pubkey := by
  rw [posPublicCommitteeSeats, if_neg (by simp [hactive]), PosCommitteeSeats.seatsOf]
  simp only [zip_map', Prod.mk.eta, map_id']
  exact postedTo_filter_pos (allotSeats_nonneg crypto seed hsize hweight) pubkey

theorem mem_members_iff (pubkey : CPubKey) :
    pubkey ∈ (posPublicCommitteeSeats params crypto registry seed height).members ↔
      1 ≤ (posPublicCommitteeSeats params crypto registry seed height).seatsOf pubkey := by
  have hnodup := nodup_allotSeats crypto seed hsize hweight
  rw [seatsOf_eq hactive hsize hweight, posPublicCommitteeSeats, if_neg (by simp [hactive])]
  simp only [mem_map, mem_filter, decide_eq_true_eq]
  constructor
  · rintro ⟨p, ⟨hp, hpos⟩, rfl⟩
    rw [postedTo_of_mem hnodup hp]
    omega
  · intro hseat
    by_cases hkey : pubkey ∈ (allotment params crypto registry seed).map Prod.fst
    · obtain ⟨p, hp, rfl⟩ := mem_map.mp hkey
      rw [postedTo_of_mem hnodup hp] at hseat
      exact ⟨p, ⟨hp, by omega⟩, rfl⟩
    · rw [postedTo_eq_zero hkey] at hseat
      omega

theorem exists_weight_of_seat {pubkey : CPubKey}
    (hseat : 1 ≤ (posPublicCommitteeSeats params crypto registry seed height).seatsOf pubkey) :
    ∃ weight, (pubkey, weight) ∈ eligibleStakers params registry := by
  rw [seatsOf_eq hactive hsize hweight] at hseat
  have hkey : pubkey ∈ (seatOrder params crypto registry seed).map Prod.fst := by
    by_contra habsent
    rw [← allotSeats_keys crypto seed hsize hweight] at habsent
    rw [postedTo_eq_zero habsent] at hseat
    omega
  obtain ⟨e, he, rfl⟩ := mem_map.mp hkey
  exact ⟨e.2, (seatOrder_perm crypto seed params registry).mem_iff.mp he⟩

theorem total_eq_size : (posPublicCommitteeSeats params crypto registry seed height).total =
      posPublicCommitteeSize params registry := by
  rw [posPublicCommitteeSeats, if_neg (by simp [hactive]), ← sum_allotSeats crypto seed hsize hweight]
  exact sum_filter_pos (allotSeats_nonneg crypto seed hsize hweight)

theorem sum_seatsOf : ((eligibleStakers params registry).map fun e =>
      (posPublicCommitteeSeats params crypto registry seed height).seatsOf e.1).sum =
      posPublicCommitteeSize params registry := by
  have hnodup := nodup_allotSeats crypto seed hsize hweight
  have hkeys : ((eligibleStakers params registry).map Prod.fst).Perm
      ((allotment params crypto registry seed).map Prod.fst) := by
    rw [allotSeats_keys crypto seed hsize hweight]
    exact ((seatOrder_perm crypto seed params registry).map _).symm
  calc _ = (((eligibleStakers params registry).map Prod.fst).map
          (postedTo (allotment params crypto registry seed))).sum := by
        rw [map_map]
        exact congrArg List.sum (map_congr_left fun e _ => seatsOf_eq hactive hsize hweight e.1)
    _ = ((allotment params crypto registry seed).map
          Prod.snd).sum := by
        rw [(hkeys.map _).sum_eq, map_map]
        exact congrArg List.sum (map_congr_left fun p hp => postedTo_of_mem hnodup hp)
    _ = _ := sum_allotSeats crypto seed hsize hweight

end Fit

/-- The seat rule, as long as the weights add up below `2 ^ 64`. The seats are as many as
the committee size that the quorum is computed from, every staker holds its quota rounded
down or one seat more, the seats beyond the whole parts are exactly those left over, and
the committee lists, once each, the stakers that hold a seat. -/
theorem seats_are_apportioned (params : Params) (crypto : Crypto) (registry : StakeRegistry)
    (seed : Uint256) (height : ℕ) (hactive : params.posHardeningActiveAt height = true)
    (hsize : 0 < params.posCommitteeSize) (hweight : eligibleWeight params registry < 2 ^ 64) :
    let committee := posPublicCommitteeSeats params crypto registry seed height
    let total := posPublicCommitteeSize params registry
    let pool := eligibleStakers params registry
    let floor := fun weight : ℕ => total * weight / eligibleWeight params registry
    (committee.total = total ∧ committee.seats.sum = total ∧
      total = min params.posCommitteeSize.toNat pool.length ∧
      (params.posPublicCommittee = true →
        posSlotQuorumAt params registry height = posPublicQuorum committee.total)) ∧
    (∀ e ∈ pool, committee.seatsOf e.1 = floor e.2 ∨ committee.seatsOf e.1 = floor e.2 + 1) ∧
    (pool.map fun e => committee.seatsOf e.1 - floor e.2).sum =
      total - (pool.map fun e => (floor e.2 : ℤ)).sum ∧
    committee.members.Nodup ∧ committee.members.length = committee.seats.length ∧
    ∀ pubkey, pubkey ∈ committee.members ↔
      (∃ weight, (pubkey, weight) ∈ pool) ∧ 1 ≤ committee.seatsOf pubkey := by
  intro committee total pool floor
  have htotal : committee.total = total := total_eq_size hactive hsize hweight
  refine ⟨⟨htotal, ?_, Nat.min_comm _ _, ?_⟩, ?_, ?_, ?_, ?_, ?_⟩
  · rw [← htotal]
    exact sum_seats params crypto registry seed height
  · intro hpublic
    rw [htotal]
    simp [posSlotQuorumAt, hpublic, hactive, posPublicSeatTotal, total]
  · intro e he
    have hall := allotSeats_forall₂ crypto seed hsize hweight
    obtain ⟨i, hi, rfl⟩ := mem_iff_getElem.mp
      ((seatOrder_perm crypto seed params registry).mem_iff.mpr he)
    have hi' : i < (allotment params crypto registry seed).length := hall.length_eq ▸ hi
    obtain ⟨hkey, hseats⟩ := hall.get hi hi'
    have hheld : committee.seatsOf ((allotment params crypto registry seed).get ⟨i, hi'⟩).1 = _ :=
      (seatsOf_eq hactive hsize hweight _).trans
        (postedTo_of_mem (nodup_allotSeats crypto seed hsize hweight) (getElem_mem hi'))
    rw [hkey] at hheld
    rwa [← hheld] at hseats
  · have hsplit := sum_map_add (l := pool) (f := fun e => committee.seatsOf e.1 - floor e.2)
      (g := fun e => (floor e.2 : ℤ))
    simp only [sub_add_cancel] at hsplit
    have hall : (pool.map fun e => committee.seatsOf e.1).sum = total :=
      sum_seatsOf hactive hsize hweight
    rw [← hall, hsplit]
    ring
  · simp only [committee, posPublicCommitteeSeats, hactive]
    exact (nodup_allotSeats crypto seed hsize hweight).sublist (filter_sublist.map _)
  · exact length_members params crypto registry seed height
  · intro pubkey
    have hmem : pubkey ∈ committee.members ↔ 1 ≤ committee.seatsOf pubkey :=
      mem_members_iff hactive hsize hweight pubkey
    rw [hmem]
    exact ⟨fun hseat => ⟨exists_weight_of_seat hactive hsize hweight hseat, hseat⟩, fun h => h.2⟩

end Committee

def committeeOf (stakers : List (CPubKey × ℕ × UInt8)) : StakeRegistry :=
  { StakeRegistry.empty with
    config := stakers.foldl (fun m e => m.insert e.1 e.2.1) ∅
    bls := stakers.foldl (fun m e => m.insert e.1 (List.replicate 48 e.2.2)) ∅ }

/-- Three seats for weights of one, one and four: the last staker holds two of them, and
one of the others the third. -/
theorem seats_are_apportioned_three :
    let registry := committeeOf
      [(sampleController, 1, 1), (sampleSigner, 1, 2), (sampleSigner', 4, 3)]
    let committee := posPublicCommitteeSeats sampleParams sampleCrypto registry 7 20
    committee.total = 3 ∧ committee.seatsOf sampleSigner' = 2 ∧ committee.members.Nodup := by
  intro registry committee
  have hactive : sampleParams.posHardeningActiveAt 20 = true := by decide
  have hsize : 0 < sampleParams.posCommitteeSize := by decide
  have hweight : eligibleWeight sampleParams registry < 2 ^ 64 := by decide +kernel
  have hseats := seats_are_apportioned sampleParams sampleCrypto registry 7 20 hactive hsize hweight
  refine ⟨?_, by decide +kernel, hseats.2.2.2.1⟩
  rw [hseats.1.1]
  decide +kernel

end Sequentia
