import Sequentia.Committee.Intersection
import Sequentia.Producer.ShareLock

/-!
# Rival blocks

Committee members run producers. Where two children of one block are accepted although faulty
members hold at most one seat of the committee, a sound member has signed both. It did not sign the
second one before it had asked for the certificate of the first and had waited a round.
-/

namespace Sequentia.Producer

open List Quorums

/-- The producer signed a block, asked for its certificate, and a round later signed another block
of the height. The latest message is the first one. -/
def Switched (p : RoundParams) (sent : List Sent) (height : ℕ) (first second : Uint256) : Prop :=
  ∃ later between earlier t t' c c' asked,
    sent = later ++ .share height second t' c' :: (between ++ .share height first t c :: earlier) ∧
      Sent.query first asked ∈ between ∧ asked + p.roundMs ≤ t'

/-- The seats of the faulty members of a committee. -/
def faultySeats (faulty : CPubKey → Bool) (committee : PosCommitteeSeats) : ℤ :=
  weightOf (fun e => e.1.2) (fun e => faulty e.1.1) (committee.members.zip committee.seats).zipIdx

/-- The sound members that the certificate of a block names have released shares for the block. -/
def SignedBySound (faulty : CPubKey → Bool) (node : CPubKey → LockNode)
    (committee : PosCommitteeSeats) (height : ℕ) (header : CBlockHeader) : Prop :=
  ∀ cert, parsePosBlsBitfieldSolution header.solution = some cert →
    ∀ member ∈ namedMembers committee (posBitfieldTest cert.bitfield), faulty member.1 = false →
      ∃ t c, Sent.share height header.hash t c ∈ (node member.1).sent

variable {p : RoundParams} {n : LockNode}

/-- The invariant holds along every run. -/
theorem logInv_of_reachable (hreach : (lockMachine p).Reachable (Locked p) n) : LogInv p n := by
  refine hreach.invariant ?_ fun _ _ _ hinv hlocked hnext => hinv.next hlocked hnext
  rintro _ ⟨hash, height, rfl⟩
  exact logInv_init

/-- Who signed two blocks of a height has switched from one to the other. -/
theorem LogInv.switched (hinv : LogInv p n) {height : ℕ} {x y : Uint256} {t t' : ℤ} {c c' : Bool}
    (hne : x ≠ y) (hx : Sent.share height x t c ∈ n.sent)
    (hy : Sent.share height y t' c' ∈ n.sent) :
    Switched p n.sent height x y ∨ Switched p n.sent height y x := by
  obtain ⟨later, earlier, hsplit⟩ := append_of_mem hx
  rw [hsplit, mem_append, mem_cons] at hy
  rcases hy with hlater | heq | hearlier
  · obtain ⟨later', between, rfl⟩ := append_of_mem hlater
    rw [append_assoc, cons_append] at hsplit
    obtain ⟨asked, hasked, hle⟩ :=
      (hinv.history _ _ _ _ _ _ hsplit).2 between earlier x t c rfl hne
    exact .inl ⟨_, _, _, _, _, _, _, asked, hsplit, hasked, hle⟩
  · cases heq
    exact absurd rfl hne
  · obtain ⟨between, earlier', rfl⟩ := append_of_mem hearlier
    obtain ⟨asked, hasked, hle⟩ :=
      (hinv.history _ _ _ _ _ _ hsplit).2 between earlier' y t' c' rfl hne.symm
    exact .inr ⟨_, _, _, _, _, _, _, asked, hsplit, hasked, hle⟩

section Certificates

variable {params : Params} {crypto : Crypto} {registry : StakeRegistry}
  {header header' : CBlockHeader} {pindexPrev : CBlockIndex} {cert cert' : PosBlsBitfieldCert}
  {faulty : CPubKey → Bool}

variable (hpublic : params.posPublicCommittee = true)
  (hsafe : params.posHardeningActiveAt (pindexPrev.nHeight + 1) = false ∨
    eligibleWeight params registry < 2 ^ 64)
  (hfaulty : faultySeats faulty (childCommittee params crypto registry pindexPrev) <
    if (childCommittee params crypto registry pindexPrev).total = 1 then 1 else 2)

include hpublic hsafe hfaulty

/-- Two certificates at quorum name a sound member in common. -/
theorem exists_sound_signer
    (hcert : CertifiesAtQuorum params crypto registry header pindexPrev cert)
    (hcert' : CertifiesAtQuorum params crypto registry header' pindexPrev cert') :
    let committee := childCommittee params crypto registry pindexPrev
    ∃ member, member ∈ namedMembers committee (posBitfieldTest cert.bitfield) ∧
      member ∈ namedMembers committee (posBitfieldTest cert'.bitfield) ∧
      faulty member.1 = false := by
  intro committee
  change faultySeats faulty committee < if committee.total = 1 then 1 else 2 at hfaulty
  obtain ⟨hparse, signers, hverify, hquorum⟩ := hcert
  obtain ⟨hparse', signers', hverify', hquorum'⟩ := hcert'
  obtain ⟨hsigners, hsome⟩ := posVerifyBitfieldCertificate_ok hparse hverify
  obtain ⟨hsigners', hsome'⟩ := posVerifyBitfieldCertificate_ok hparse' hverify'
  have hpos : ∀ e ∈ (committee.members.zip committee.seats).zipIdx, 0 < e.1.2 := fun e he =>
    seats_pos _ _ _ _ _ _ (of_mem_zip ((mem_zipIdx' he).2 ▸ getElem_mem _)).2
  have hnonneg := fun e he => (hpos e he).le
  have hslot : posSlotQuorumAt params registry (pindexPrev.nHeight + 1) =
      posPublicQuorum (posPublicCommitteeSize params registry) := by
    simp [posSlotQuorumAt, posSlotQuorum, posPublicSeatTotal, hpublic]
  rw [hslot] at hquorum hquorum'
  have hoverlap : (if committee.total = 1 then 1 else 2) ≤ signers + signers' - committee.total :=
    posPublicQuorum_overlap (total_le params crypto registry _ _ hsafe) hquorum hquorum'
      (hsigners ▸ one_le_weightOf hpos hsome) (hsigners' ▸ one_le_weightOf hpos hsome')
  -- The sound signers of the second certificate overlap with those of the first.
  have hsound := weightOf_le_add (p := fun e => faulty e.1.1)
    (q := fun e => posBitfieldTest cert'.bitfield e.2) hnonneg
  have hboth := weightOf_add_le (p := fun e => posBitfieldTest cert.bitfield e.2)
    (q := fun e => posBitfieldTest cert'.bitfield e.2 && !faulty e.1.1) hnonneg
  have htotal : ((committee.members.zip committee.seats).zipIdx.map fun e => e.1.2).sum =
      committee.total := sum_zip_seats params crypto registry _ _
  rw [← hsigners', ← faultySeats] at hsound
  rw [← hsigners, htotal] at hboth
  obtain ⟨e, he, hnamed⟩ := exists_of_pos_weightOf (f := fun e : (CPubKey × ℤ) × ℕ => e.1.2)
    (p := fun e => posBitfieldTest cert.bitfield e.2 &&
      (posBitfieldTest cert'.bitfield e.2 && !faulty e.1.1))
    (l := (committee.members.zip committee.seats).zipIdx) (by omega)
  simp only [Bool.and_eq_true, Bool.not_eq_true'] at hnamed
  exact ⟨e.1, mem_map_of_mem (mem_filter.mpr ⟨he, hnamed.1⟩),
    mem_map_of_mem (mem_filter.mpr ⟨he, hnamed.2.1⟩), hnamed.2.2⟩

end Certificates

/-- A producer that signs block 50 of height 20, and block 51 a round later. -/
theorem exists_reachable_switched :
    ∃ n, (lockMachine shortRound).Reachable (Locked shortRound) n ∧
      n.sent = [.share 20 51 11 false, .query 50 1, .share 20 50 0 false] := by
  have hsigned : (lockMachine shortRound).Reachable (Locked shortRound) _ :=
    .next (.release true true) (.next (.driveRound 0 (backs 50 0)) (.next (.recordCandidate 50 20)
      (.next (.step false) (.init ⟨1, 19, rfl⟩) trivial rfl) trivial rfl) (locked_drive _ _ _) rfl)
      (by rintro _ - ⟨_, _, _, hnone⟩; cases hnone) rfl
  have hwaited : (lockMachine shortRound).Reachable (Locked shortRound) _ :=
    .next (.driveRound 11 (backs 51 1)) (.next (.driveRound 1 (backs 51 1))
      (.next (.recordCandidate 51 20) hsigned trivial rfl) (locked_drive _ _ _) rfl)
      (locked_drive _ _ _) rfl
  refine ⟨_, .next (.release true true) hwaited ?_ rfl, by decide +kernel⟩
  rintro _ ⟨⟩ _
  exact ⟨⟨50, 20, some 1, true⟩, rfl, rfl⟩

end Sequentia.Producer
