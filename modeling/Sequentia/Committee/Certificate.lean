import Sequentia.Committee.Seats
import Sequentia.Lib.Checks
import Sequentia.ScriptReader

/-!
# Bitfield certificates

A block of the public committee carries the signature of its leader, an aggregate
signature, a bitfield that names the signers by their place in the committee, and, from
the hardening height on, the number of seats they hold. The hash of the block commits to
none of it.
-/

namespace Sequentia

/-- `CBlockIndex`, as far as the election of the next block reads it. -/
structure CBlockIndex where
  nHeight : ℕ
  anchorHash : Uint256

/-- `CBlockHeader`, as far as its certificate is concerned. -/
structure CBlockHeader where
  /-- `GetHash()`, which leaves the proof out. -/
  hash : Uint256
  /-- `proof.solution`. -/
  solution : CScript

def computePosSeed (crypto : Crypto) (parentAnchorHash : Uint256) (height : ℕ) : Uint256 :=
  crypto.sha256Single (parentAnchorHash.bytes ++ leBytes 4 height)

def posSeedForChild (crypto : Crypto) (pindexPrev : CBlockIndex) : Uint256 :=
  computePosSeed crypto pindexPrev.anchorHash (pindexPrev.nHeight + 1)

/-- `PosBitfieldTest`. A bit beyond the bitfield is not set. -/
def posBitfieldTest (bitfield : Bytes) (i : ℕ) : Bool :=
  match bitfield[i / 8]? with
  | none => false
  | some byte => byte.toNat / 2 ^ (i % 8) % 2 == 1

/-- The set bits of a number of `n` bits. -/
def popcount : ℕ → ℕ → ℕ
  | 0, _ => 0
  | n + 1, b => b % 2 + popcount n (b / 2)

def posBitfieldPopcount (bitfield : Bytes) : ℕ :=
  (bitfield.map fun byte => popcount 8 byte.toNat).sum

def blsPkSize : ℕ := 48

def blsSigSize : ℕ := 96

def maxPosPublicCommitteeSize : ℕ := 1000

structure PosBlsBitfieldCert where
  leaderSig : Bytes
  aggSig : Bytes
  bitfield : Bytes
  /-- The seats of the signers, `-1` in a certificate without the number. -/
  seats : ℤ
  deriving DecidableEq

/-- A token that must push bytes of a kind. -/
def getData (accept : Bytes → Bool) : ScriptReader Bytes :=
  ScriptReader.token fun _ data => if accept data then some data else none

/-- The optional number at the end of a certificate. -/
def readSeats : ScriptReader ℤ := do
  if (← get).isEmpty then return -1
  ScriptReader.token fun opcode data => do
    let seats ← readScriptNumToken opcode data 4
    if seats < 0 ∨ (maxPosPublicCommitteeSize : ℤ) < seats then none else some seats

def readBitfieldCert : ScriptReader PosBlsBitfieldCert := do
  let leaderSig ← getData fun data => !data.isEmpty
  let aggSig ← getData fun data => decide (data.length = blsSigSize)
  let bitfield ← getData fun data =>
    !data.isEmpty && decide (data.length ≤ (maxPosPublicCommitteeSize + 7) / 8)
  return ⟨leaderSig, aggSig, bitfield, ← readSeats⟩

def parsePosBlsBitfieldSolution (solution : CScript) : Option PosBlsBitfieldCert :=
  ScriptReader.parse readBitfieldCert solution

/-- The loop over the committee from place `i` on: the keys of the signers, and the seats
they hold. -/
def collectSigners (registry : StakeRegistry) (bitfield : Bytes) :
    ℕ → List (CPubKey × ℤ) → Except String (List Bytes × ℤ)
  | _, [] => .ok ([], 0)
  | i, (member, seats) :: rest =>
    if posBitfieldTest bitfield i then
      let bls := registry.getBls member
      if bls.length ≠ blsPkSize then .error "bad-posbls-member-unregistered"
      else do
        let (blsPubkeys, signedSeats) ← collectSigners registry bitfield (i + 1) rest
        return (bls :: blsPubkeys, seats + signedSeats)
    else collectSigners registry bitfield (i + 1) rest

section Verify

variable (params : Params) (crypto : Crypto) (registry : StakeRegistry)

def childCommittee (pindexPrev : CBlockIndex) : PosCommitteeSeats :=
  posPublicCommitteeSeats params crypto registry (posSeedForChild crypto pindexPrev)
    (pindexPrev.nHeight + 1)

/-- `PosVerifyBitfieldCertificate`: the seats that signed, or the reason of the failure. -/
def posVerifyBitfieldCertificate (header : CBlockHeader) (pindexPrev : CBlockIndex) :
    Except String ℤ :=
  match parsePosBlsBitfieldSolution header.solution with
  | none => .error "bad-posbls-bitfield-malformed"
  | some cert =>
    let committee := childCommittee params crypto registry pindexPrev
    let seatsActive := params.posHardeningActiveAt (pindexPrev.nHeight + 1)
    if seatsActive ≠ decide (0 ≤ cert.seats) then .error "bad-posbls-seats-form"
    else do
      let (blsPubkeys, signedSeats) ←
        collectSigners registry cert.bitfield 0 (committee.members.zip committee.seats)
      if posBitfieldPopcount cert.bitfield ≠ blsPubkeys.length then
        .error "bad-posbls-bitfield-range"
      else if blsPubkeys = [] then .error "bad-posbls-bitfield-empty"
      else if !crypto.blsFastAggregateVerify blsPubkeys header.hash.bytes cert.aggSig then
        .error "bad-posbls-agg-invalid"
      else if seatsActive ∧ cert.seats ≠ signedSeats then .error "bad-posbls-seats-mismatch"
      else .ok signedSeats

inductive EscapeStallTimeVerdict
  /-- Enough time has passed on the parent chain. -/
  | allowed
  /-- It has not. -/
  | tooSoon
  /-- The parent chain cannot be asked. -/
  | unknown

/-- The certificate rules of `CheckPosStakeRules` for the public committee. Whether the
anchor may escape a stall, and what the clock of the parent chain says then, is given. -/
def checkBitfieldRules (fJustCheck escapingStall : Bool) (verdict : EscapeStallTimeVerdict)
    (block : CBlockHeader) (pindexPrev : CBlockIndex) : Except String Unit :=
  if fJustCheck ∨ block.solution = [] then .ok ()
  else do
    let signers ← posVerifyBitfieldCertificate params crypto registry block pindexPrev
    let quorum := posSlotQuorumAt params registry (pindexPrev.nHeight + 1)
    if signers < 0 then .error ""
    else if signers < (if escapingStall then 1 else quorum) then .error "bad-posbls-agg-quorum"
    else if escapingStall ∧ signers < quorum then
      match verdict with
      | .allowed => .ok ()
      | .tooSoon => .error "bad-pos-escape-stall-too-soon"
      | .unknown => .error "pos-escape-stall-unverifiable"
    else .ok ()

/-- A certificate that verifies and reaches the quorum of the slot. -/
def CertifiesAtQuorum (header : CBlockHeader) (pindexPrev : CBlockIndex)
    (cert : PosBlsBitfieldCert) : Prop :=
  parsePosBlsBitfieldSolution header.solution = some cert ∧
    ∃ signers, posVerifyBitfieldCertificate params crypto registry header pindexPrev = .ok signers ∧
      posSlotQuorumAt params registry (pindexPrev.nHeight + 1) ≤ signers

def namedMembers (committee : PosCommitteeSeats) (named : ℕ → Bool) : List (CPubKey × ℤ) :=
  ((committee.members.zip committee.seats).zipIdx.filter fun e => named e.2).map Prod.fst

end Verify

open Checks in
/-- Unless the chain escapes a stall, a block with a certificate is only accepted at
quorum. -/
theorem certifiesAtQuorum_of_accepted {params : Params} {crypto : Crypto}
    {registry : StakeRegistry} {verdict : EscapeStallTimeVerdict} {block : CBlockHeader}
    {pindexPrev : CBlockIndex} (hsolution : block.solution ≠ [])
    (haccept : checkBitfieldRules params crypto registry false false verdict block pindexPrev =
      .ok ()) :
    ∃ cert, CertifiesAtQuorum params crypto registry block pindexPrev cert := by
  unfold checkBitfieldRules at haccept
  rw [if_neg (by simp [hsolution])] at haccept
  obtain ⟨signers, hverify, haccept⟩ := bind_eq_ok.mp haccept
  simp only [ite_error_eq_ok, Bool.false_eq_true, if_false, Int.not_lt] at haccept
  have hcert : ∃ cert, parsePosBlsBitfieldSolution block.solution = some cert := by
    rw [← Option.ne_none_iff_exists']
    intro hnone
    rw [posVerifyBitfieldCertificate, hnone] at hverify
    cases hverify
  obtain ⟨cert, hparse⟩ := hcert
  exact ⟨cert, hparse, signers, hverify, haccept.2.1⟩

end Sequentia
