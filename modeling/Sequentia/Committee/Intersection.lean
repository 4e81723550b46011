import Sequentia.Committee.Apportionment
import Sequentia.Committee.Certificate
import Sequentia.Lib.Quorums

/-!
# Two certificates of one slot share signers

The quorum is a majority of the committee size. It is a majority of the seats as well when
the committee has no more seats than its size, and then two certificates at quorum share
seats. Weights that wrap around hand out more seats than that.
-/

namespace Sequentia

open Std KeyedMap Quorums Checks List

section Signers

variable {registry : StakeRegistry} {bitfield : Bytes}

/-- The loop over the committee adds up the seats of the members the bitfield names, and
finds a signer only if it names one. -/
theorem collectSigners_ok {l : List (CPubKey × ℤ)} {i : ℕ} {blsPubkeys : List Bytes}
    {signedSeats : ℤ}
    (hcollect : collectSigners registry bitfield i l = .ok (blsPubkeys, signedSeats)) :
    signedSeats = weightOf (fun e => e.1.2) (fun e => posBitfieldTest bitfield e.2)
        (l.zipIdx i) ∧
      (blsPubkeys ≠ [] → ∃ e ∈ l.zipIdx i, posBitfieldTest bitfield e.2 = true) := by
  induction l generalizing i blsPubkeys signedSeats with
  | nil =>
    obtain ⟨rfl, rfl⟩ := Prod.mk.inj (Except.ok.inj hcollect)
    exact ⟨rfl, fun hne => absurd rfl hne⟩
  | cons e l ih =>
    rw [collectSigners] at hcollect
    rw [zipIdx_cons, weightOf_cons]
    split at hcollect
    · next hnamed =>
      dsimp only at hcollect
      split at hcollect
      · cases hcollect
      · obtain ⟨⟨keys, seats⟩, hrest, hok⟩ := bind_eq_ok.mp hcollect
        obtain ⟨-, rfl⟩ := Prod.mk.inj (Except.ok.inj hok)
        rw [if_pos hnamed, (ih hrest).1]
        exact ⟨rfl, fun _ => ⟨(e, i), mem_cons_self, hnamed⟩⟩
    · next hnamed =>
      obtain ⟨hseats, hsome⟩ := ih hcollect
      rw [if_neg hnamed, Int.zero_add]
      refine ⟨hseats, fun hne => ?_⟩
      obtain ⟨e', he', hnamed'⟩ := hsome hne
      exact ⟨e', mem_cons_of_mem _ he', hnamed'⟩

end Signers

section Verified

variable {params : Params} {crypto : Crypto} {registry : StakeRegistry}
  {header : CBlockHeader} {pindexPrev : CBlockIndex} {cert : PosBlsBitfieldCert}

/-- What verification returns are the seats of the members named, and one is named. -/
theorem posVerifyBitfieldCertificate_ok {signers : ℤ}
    (hparse : parsePosBlsBitfieldSolution header.solution = some cert)
    (hverify : posVerifyBitfieldCertificate params crypto registry header pindexPrev =
      .ok signers) :
    let committee := childCommittee params crypto registry pindexPrev
    signers = weightOf (fun e => e.1.2) (fun e => posBitfieldTest cert.bitfield e.2)
        (committee.members.zip committee.seats).zipIdx ∧
      ∃ e ∈ (committee.members.zip committee.seats).zipIdx,
        posBitfieldTest cert.bitfield e.2 = true := by
  intro committee
  simp only [posVerifyBitfieldCertificate, hparse, bind_eq_ok, ite_error_eq_ok] at hverify
  obtain ⟨-, ⟨blsPubkeys, signedSeats⟩, hcollect, -, hsome, -, -, hreturn⟩ := hverify
  obtain rfl := Except.ok.inj hreturn
  obtain ⟨hseats, hnamed⟩ := collectSigners_ok hcollect
  exact ⟨hseats, hnamed hsome⟩

end Verified

section Seats

variable (params : Params) (crypto : Crypto) (registry : StakeRegistry) (seed : Uint256)
  (height : ℕ)

theorem seats_pos : ∀ seats ∈ (posPublicCommitteeSeats params crypto registry seed height).seats,
    0 < seats := by
  intro seats hseats
  rw [posPublicCommitteeSeats] at hseats
  split at hseats
  · rw [eq_of_mem_replicate hseats]
    decide
  · obtain ⟨e, he, rfl⟩ := mem_map.mp hseats
    simpa using (mem_filter.mp he).2

theorem length_filter_posSchedule :
    ((posSchedule params crypto registry seed).filter registry.hasBls).length =
      (eligibleStakers params registry).length := by
  have hperm : (posSchedule params crypto registry seed).Perm
      ((registry.weights.toList.filter fun e => posIsEligibleStake params e.2).map Prod.fst) := by
    have hsort := (perm_insertionSort (fun a b => ticketLe a b = true)
      ((registry.weights.toList.filter fun e => posIsEligibleStake params e.2).map
        fun e => (weightedTicket crypto seed e.1 e.2, e.1))).map Prod.snd
    rwa [map_map] at hsort
  rw [(hperm.filter _).length_eq, filter_map, length_map, filter_filter,
    eligibleStakers]
  congr 2
  funext e
  exact Bool.and_comm _ _

/-- A committee has as many seats as its size, one where the size is zero, unless weights
wrap around. -/
theorem total_le (hsafe : params.posHardeningActiveAt height = false ∨
      eligibleWeight params registry < 2 ^ 64) :
    (posPublicCommitteeSeats params crypto registry seed height).total ≤
      max (posPublicCommitteeSize params registry : ℤ) 1 := by
  by_cases hactive : params.posHardeningActiveAt height = true
  · have hweight := hsafe.resolve_left (by simp [hactive])
    by_cases hsize : 0 < params.posCommitteeSize
    · rw [total_eq_size hactive hsize hweight]
      exact le_max_left _ _
    · have hzero : params.posCommitteeSize.toNat = 0 := by omega
      simp [posPublicCommitteeSeats, hactive, hzero, allotSeats]
  · have hlength := length_filter_posSchedule params crypto registry seed
    rw [posPublicCommitteeSeats, if_pos (by simpa using hactive)]
    simp only [posPublicCommittee, length_take, hlength, posPublicCommitteeSize]
    omega

/-- Two quorums exceed the seats by two, or by one where there is a single seat. -/
theorem posPublicQuorum_overlap {size total signers signers' : ℤ} (htotal : total ≤ max size 1)
    (hquorum : posPublicQuorum size ≤ signers) (hquorum' : posPublicQuorum size ≤ signers')
    (hone : 1 ≤ signers) (hone' : 1 ≤ signers') :
    (if total = 1 then 1 else 2) ≤ signers + signers' - total := by
  unfold posPublicQuorum at hquorum hquorum'
  split at hquorum
  · split <;> omega
  · split <;> omega

end Seats

section Intersection

variable {params : Params} {crypto : Crypto} {registry : StakeRegistry}
  {header header' : CBlockHeader} {pindexPrev : CBlockIndex} {cert cert' : PosBlsBitfieldCert}

theorem sum_zip_seats (params : Params) (crypto : Crypto) (registry : StakeRegistry)
    (seed : Uint256) (height : ℕ) :
    let committee := posPublicCommitteeSeats params crypto registry seed height
    (((committee.members.zip committee.seats).zipIdx).map fun e => e.1.2).sum =
      committee.total := by
  intro committee
  have hlength := length_members params crypto registry seed height
  calc _ = (((committee.members.zip committee.seats).zipIdx.map Prod.fst).map Prod.snd).sum := by
        rw [map_map]
        rfl
    _ = committee.total := by
        rw [zipIdx_map_fst, map_snd_zip hlength.ge]
        exact sum_seats params crypto registry seed height

/-- Two certificates at quorum for children of one block share members, which hold two
seats, or the one seat of a committee that has no more. The certificates may have
bitfields of any length and claim any seats. Only the seat rule is in danger, when the
weights of the eligible stakers wrap around. -/
theorem certificates_share_seats (hpublic : params.posPublicCommittee = true)
    (hsafe : params.posHardeningActiveAt (pindexPrev.nHeight + 1) = false ∨
      eligibleWeight params registry < 2 ^ 64)
    (hcert : CertifiesAtQuorum params crypto registry header pindexPrev cert)
    (hcert' : CertifiesAtQuorum params crypto registry header' pindexPrev cert') :
    let committee := childCommittee params crypto registry pindexPrev
    let common := namedMembers committee fun i =>
      posBitfieldTest cert.bitfield i && posBitfieldTest cert'.bitfield i
    (if committee.total = 1 then 1 else 2) ≤ (common.map Prod.snd).sum ∧
      ∃ member, member ∈ namedMembers committee (posBitfieldTest cert.bitfield) ∧
        member ∈ namedMembers committee (posBitfieldTest cert'.bitfield) := by
  intro committee common
  obtain ⟨hparse, signers, hverify, hquorum⟩ := hcert
  obtain ⟨hparse', signers', hverify', hquorum'⟩ := hcert'
  obtain ⟨hsigners, hsome⟩ := posVerifyBitfieldCertificate_ok hparse hverify
  obtain ⟨hsigners', hsome'⟩ := posVerifyBitfieldCertificate_ok hparse' hverify'
  have hpos : ∀ e ∈ (committee.members.zip committee.seats).zipIdx, 0 < e.1.2 := by
    rintro ⟨⟨member, seats⟩, i⟩ he
    have hmem : (member, seats) ∈ committee.members.zip committee.seats :=
      (mem_zipIdx' he).2 ▸ getElem_mem _
    exact seats_pos _ _ _ _ _ seats (of_mem_zip hmem).2
  have hone : 1 ≤ signers := hsigners ▸ one_le_weightOf hpos hsome
  have hone' : 1 ≤ signers' := hsigners' ▸ one_le_weightOf hpos hsome'
  have hslot : posSlotQuorumAt params registry (pindexPrev.nHeight + 1) =
      posPublicQuorum (posPublicCommitteeSize params registry) := by
    simp [posSlotQuorumAt, posSlotQuorum, posPublicSeatTotal, hpublic]
  rw [hslot] at hquorum hquorum'
  have hoverlap : (if committee.total = 1 then 1 else 2) ≤ signers + signers' - committee.total :=
    posPublicQuorum_overlap (total_le params crypto registry _ _ hsafe) hquorum hquorum' hone hone'
  have htotal : ((committee.members.zip committee.seats).zipIdx.map fun e => e.1.2).sum =
      committee.total := sum_zip_seats params crypto registry _ _
  have hcommon : (common.map Prod.snd).sum = weightOf (fun e => e.1.2)
      (fun e : (CPubKey × ℤ) × ℕ => posBitfieldTest cert.bitfield e.2 &&
        posBitfieldTest cert'.bitfield e.2) (committee.members.zip committee.seats).zipIdx := by
    simp only [common, namedMembers, weightOf, map_map]
    rfl
  have hle := weightOf_add_le (f := fun e : (CPubKey × ℤ) × ℕ => e.1.2)
    (p := fun e => posBitfieldTest cert.bitfield e.2)
    (q := fun e => posBitfieldTest cert'.bitfield e.2) fun e he => (hpos e he).le
  rw [← hsigners, ← hsigners', htotal, ← hcommon] at hle
  have hshare : (if committee.total = 1 then 1 else 2) ≤ (common.map Prod.snd).sum := by
    refine Int.le_trans hoverlap ?_
    omega
  refine ⟨hshare, ?_⟩
  have hweigh : 0 < (common.map Prod.snd).sum := by
    refine Int.lt_of_lt_of_le ?_ hshare
    split <;> decide
  rw [hcommon] at hweigh
  obtain ⟨e, he, hboth⟩ := exists_of_pos_weightOf hweigh
  rw [Bool.and_eq_true] at hboth
  exact ⟨e.1, mem_map_of_mem (mem_filter.mpr ⟨he, hboth.1⟩),
    mem_map_of_mem (mem_filter.mpr ⟨he, hboth.2⟩)⟩

end Intersection

def slotParent : CBlockIndex := ⟨19, 9⟩

/-- What the slot after it hashes: the seed, the tickets of three stakers and the offset. -/
def slotHashes : List (Bytes × Bytes) :=
  let seed := beBytes 32 0xa27d7f679ee820f426a00bb68cef09b34596dc15744512a5fc146bbdab85df2a
  let ticket := fun key : CPubKey =>
    7 :: charBytes ['S', 'E', 'Q', 'S', 'E', 'A', 'T'] ++ seed ++ 33 :: key.vch
  let offset := 13 ::
    charBytes ['S', 'E', 'Q', 'S', 'E', 'A', 'T', 'O', 'F', 'F', 'S', 'E', 'T'] ++ seed
  let first := beBytes 32 0xa21debf43d77598244ff6712c068a3c857c0e1b3a560089f956d0c73b1872bfc
  let second := beBytes 32 0x9dd43398b44f8e5018b7b2fc5d0323282308d952241ae1c444a1c87cee8049d3
  let third := beBytes 32 0xccf2c673fec1d18627aeab19e470d33bd4995dfa932b9e03245c3cc350caefe6
  let inner := beBytes 32 0x5f23906e0526e527c72f3079b94ec9068d66c7cbd400d7b12243c04a68f1bf57
  [(beBytes 32 9 ++ [20, 0, 0, 0], seed),
    (ticket sampleController, first),
    (first, beBytes 32 0x3b818c6325e4c80d74ca038323537a25dc400382c889dd5b0287d4294ae28484),
    (ticket sampleSigner, second),
    (second, beBytes 32 0x38b105fc595dc84c5e1d50b76e2f487c8f7951a5426c667586f755c51e333cf0),
    (ticket sampleSigner', third),
    (third, beBytes 32 0xf73104ba77ba52c4f0cc98912eb3773f8709f0302dd78cf56847ea37ffe69779),
    (offset, inner),
    (inner, beBytes 32 0x8fd4ea6a98e1fc5c6df2752d21b70b36d7e02c6917058b6dc23cc87e594e0b1f)]

/-- The signatures given in the slot: two stakers each sign a block of their own, and the
three together sign either. -/
def slotSignatures : List (List UInt8 × Uint256 × UInt8) :=
  [([2], 50, 7), ([1], 51, 8), ([2, 1, 3], 50, 9), ([2, 1, 3], 51, 10)]

/-- The hashes and signatures of the slot. -/
def slotCrypto : Crypto :=
  { sampleCrypto with
    sha256 := fun bytes => (slotHashes.lookup bytes).getD []
    blsFastAggregateVerify := fun keys message sig => slotSignatures.any fun e =>
      decide (keys = e.1.map (List.replicate 48) ∧ message = e.2.1.bytes ∧
        sig = List.replicate 96 e.2.2) }

/-- A certificate with the signature of the committee member at one place. -/
def slotCert (sig bits : UInt8) (seats : ℕ) : PosBlsBitfieldCert :=
  ⟨[1], List.replicate 96 sig, [bits], seats⟩

def slotHeader (hash : Uint256) (sig bits : UInt8) (seats : ℕ) : CBlockHeader :=
  ⟨hash, pushBytes [1] ++ pushBytes (List.replicate 96 sig) ++ pushBytes [bits] ++
    [UInt8.ofNat (0x50 + seats)]⟩

/-- Three stakers with the greatest weight that the configuration takes: the sum wraps
around, everyone is given three seats of three, and two of them certify different
children of one block alone. -/
theorem wrapped_weights_certify_twice :
    let registry := committeeOf [(sampleController, 2 ^ 63 - 1, 1), (sampleSigner, 2 ^ 63 - 1, 2),
      (sampleSigner', 2 ^ 63 - 1, 3)]
    let committee := childCommittee sampleParams slotCrypto registry slotParent
    CertifiesAtQuorum sampleParams slotCrypto registry (slotHeader 50 7 1 3) slotParent
        (slotCert 7 1 3) ∧
      CertifiesAtQuorum sampleParams slotCrypto registry (slotHeader 51 8 2 3) slotParent
        (slotCert 8 2 3) ∧
      namedMembers committee (posBitfieldTest (slotCert 7 1 3).bitfield) = [(sampleSigner, 3)] ∧
      namedMembers committee (posBitfieldTest (slotCert 8 2 3).bitfield) =
        [(sampleController, 3)] := by
  refine ⟨⟨by decide +kernel, 3, by decide +kernel, by decide +kernel⟩,
    ⟨by decide +kernel, 3, by decide +kernel, by decide +kernel⟩,
    by decide +kernel, by decide +kernel⟩

/-- With weights of one, the three of them have to sign a block. -/
theorem certificates_share_seats_three :
    let registry := committeeOf [(sampleController, 1, 1), (sampleSigner, 1, 2),
      (sampleSigner', 1, 3)]
    let committee := childCommittee sampleParams slotCrypto registry slotParent
    committee.total = 3 ∧
      2 ≤ ((namedMembers committee fun i => posBitfieldTest (slotCert 9 7 3).bitfield i &&
        posBitfieldTest (slotCert 10 7 3).bitfield i).map Prod.snd).sum := by
  intro registry committee
  have htotal : committee.total = 3 := by decide +kernel
  have hcert : CertifiesAtQuorum sampleParams slotCrypto registry (slotHeader 50 9 7 3) slotParent
      (slotCert 9 7 3) := ⟨by decide +kernel, 3, by decide +kernel, by decide +kernel⟩
  have hcert' : CertifiesAtQuorum sampleParams slotCrypto registry (slotHeader 51 10 7 3)
      slotParent (slotCert 10 7 3) := ⟨by decide +kernel, 3, by decide +kernel, by decide +kernel⟩
  have hshare := (certificates_share_seats (by decide) (.inr (by decide +kernel)) hcert hcert').1
  rw [if_neg (by rw [htotal]; decide)] at hshare
  exact ⟨htotal, hshare⟩

end Sequentia
