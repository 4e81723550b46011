import Mathlib.Algebra.Field.ZMod
import Mathlib.Tactic.Module
import Sequentia.Crypto
import Sequentia.ScriptWriter

/-!
# The verifiable random function

A leader proves its lottery output with a point, a challenge and a response. The group is any
group of prime order whose points have a format of 33 bytes, as the curve library has one for
secp256k1; the hash function is any as well.
-/

namespace Sequentia

open List Option

variable {q : ℕ} {G : Type} [AddCommGroup G] [Module (ZMod q) G]

/-- The group of the curve library. A parsed point is never the point at infinity. -/
structure Curve (q : ℕ) (G : Type) [AddCommGroup G] [Module (ZMod q) G] where
  generator : G
  /-- `secp256k1_ec_pubkey_serialize`, compressed. -/
  serialize : G → Bytes
  /-- `secp256k1_ec_pubkey_parse`. -/
  parse : Bytes → Option G
  generator_ne : generator ≠ 0
  order_le : q ≤ 256 ^ 32
  length_serialize : ∀ point, (serialize point).length = 33
  parse_serialize : ∀ point ≠ 0, parse (serialize point) = some point
  parse_ne : ∀ bytes point, parse bytes = some point → point ≠ 0

/-- `secp256k1_scalar_set_b32_seckey`: neither zero nor an overflow. -/
def setB32Seckey (q : ℕ) (bytes : Bytes) : Option (ZMod q) :=
  if 0 < beNat bytes ∧ beNat bytes < q then some (beNat bytes) else none

/-- `secp256k1_ec_pubkey_combine` of two points, which fails if the sum is infinity. -/
def combine [DecidableEq G] (a b : G) : Option G := if a + b = 0 then none else some (a + b)

variable (curve : Curve q G) (crypto : Crypto)

/-- `HashToCurve`: try and increment. -/
def hashToCurve (pubkeySer alpha : Bytes) : Option G :=
  (List.range 256).findSome? fun ctr =>
    curve.parse (2 :: (crypto.sha256Single
      ([0xFF, 0x01] ++ pubkeySer ++ alpha ++ [UInt8.ofNat ctr, 0x00])).bytes)

/-- `HashToScalar`, with the counters that are left. -/
def hashToScalar (q : ℕ) (crypto : Crypto) : List ℕ → Uint256 → Option (ZMod q)
  | [], _ => none
  | ctr :: rest, h =>
    match setB32Seckey q h.bytes with
    | some k => some k
    | none => hashToScalar q crypto rest (crypto.sha256Single (h.bytes ++ [UInt8.ofNat ctr]))

/-- `ChallengeScalar`: the 16 bytes that the hash is truncated to. -/
def challengeScalar (pubkeySer : Bytes) (hPoint gamma u v : G) : Bytes :=
  (crypto.sha256Single ([0xFF, 0x02] ++ pubkeySer ++ curve.serialize hPoint ++
    curve.serialize gamma ++ curve.serialize u ++ curve.serialize v ++ [0x00])).bytes.take 16

/-- The output that belongs to a point. -/
def vrfOutput (gamma : G) : Uint256 :=
  crypto.sha256Single ([0xFF, 0x03] ++ curve.serialize gamma ++ [0x00])

def vrfProofToHash (proof : Bytes) : Option Uint256 :=
  if proof.length ≠ 81 then none else (curve.parse (proof.take 33)).map (vrfOutput curve crypto)

def vrfPubKey (x : ZMod q) : CPubKey := ⟨curve.serialize (x • curve.generator)⟩

/-- `VrfProve`. The multiplication that makes the response fails if the challenge is no valid
scalar, and the addition if the response is zero. -/
def vrfProve [DecidableEq G] (sk : Bytes) (compressed : Bool) (alpha : Bytes) : Option Bytes := do
  let x ← setB32Seckey q sk
  guard (compressed = true)
  let pubkeySer := (vrfPubKey curve x).vch
  let hPoint ← hashToCurve curve crypto pubkeySer alpha
  let gamma := x • hPoint
  let k ← hashToScalar q crypto (List.range 256)
    (crypto.sha256Single ([0xFF, 0x81] ++ sk ++ curve.serialize hPoint))
  let c := challengeScalar curve crypto pubkeySer hPoint gamma (k • curve.generator) (k • hPoint)
  let challenge ← setB32Seckey q c
  let s := challenge * x + k
  guard (s.val ≠ 0)
  return curve.serialize gamma ++ c ++ beBytes 32 s.val

def vrfVerify [DecidableEq G] (pubkey : CPubKey) (alpha proof : Bytes) : Option Uint256 := do
  guard (pubkey.isCompressed = true ∧ proof.length = 81)
  let y ← curve.parse pubkey.vch
  let gamma ← curve.parse (proof.take 33)
  let c ← setB32Seckey q ((proof.drop 33).take 16)
  let s ← setB32Seckey q (proof.drop 49)
  let hPoint ← hashToCurve curve crypto pubkey.vch alpha
  let u ← combine (s • curve.generator) (-(c • y))
  let v ← combine (s • hPoint) (-(c • gamma))
  guard (challengeScalar curve crypto pubkey.vch hPoint gamma u v = (proof.drop 33).take 16)
  vrfProofToHash curve crypto proof

/-- A response to a challenge opens the two commitments. -/
def Responds (generator y hPoint gamma u v : G) (c s : ZMod q) : Prop :=
  s • generator - c • y = u ∧ s • hPoint - c • gamma = v

variable {curve crypto}

theorem setB32Seckey_eq_some {bytes : Bytes} {k : ZMod q} (hk : setB32Seckey q bytes = some k) :
    k ≠ 0 ∧ k = (beNat bytes : ZMod q) := by
  obtain ⟨⟨hpos, hlt⟩, hk⟩ := ite_none_right_eq_some.mp hk
  obtain rfl := Option.some.inj hk
  refine ⟨fun hzero => ?_, rfl⟩
  have hdvd := Nat.le_of_dvd hpos ((ZMod.natCast_eq_zero_iff _ _).mp hzero)
  omega

theorem hashToScalar_ne_zero {ctrs : List ℕ} {h : Uint256} {k : ZMod q}
    (hk : hashToScalar q crypto ctrs h = some k) : k ≠ 0 := by
  induction ctrs generalizing h with
  | nil => cases hk
  | cons ctr rest ih =>
    rw [hashToScalar] at hk
    split at hk
    · next k' hread => exact Option.some.inj hk ▸ (setB32Seckey_eq_some hread).1
    · exact ih hk

theorem hashToCurve_ne_zero {pubkeySer alpha : Bytes} {hPoint : G}
    (hcurve : hashToCurve curve crypto pubkeySer alpha = some hPoint) : hPoint ≠ 0 := by
  obtain ⟨ctr, -, hparse⟩ := exists_of_findSome?_eq_some hcurve
  exact curve.parse_ne _ _ hparse

/-- A nonzero scalar is read back from its bytes. -/
theorem setB32Seckey_beBytes [NeZero q] (curve : Curve q G) {s : ZMod q} (hs : s.val ≠ 0) :
    setB32Seckey q (beBytes 32 s.val) = some s := by
  have hlt := s.val_lt
  rw [setB32Seckey, beNat_beBytes, Nat.mod_eq_of_lt (hlt.trans_le curve.order_le),
    if_pos ⟨Nat.pos_of_ne_zero hs, hlt⟩, ZMod.natCast_zmod_val]

/-- The parts of a proof are found at their places. -/
theorem proof_slices {gamma c s : Bytes} (hgamma : gamma.length = 33) (hc : c.length = 16)
    (hs : s.length = 32) : (gamma ++ c ++ s).length = 81 ∧ (gamma ++ c ++ s).take 33 = gamma ∧
      ((gamma ++ c ++ s).drop 33).take 16 = c ∧ (gamma ++ c ++ s).drop 49 = s := by
  refine ⟨by simp [hgamma, hc, hs], ?_, ?_, drop_left' (by simp [hgamma, hc])⟩
  · rw [append_assoc, take_left' hgamma]
  · rw [append_assoc, drop_left' hgamma, take_left' hc]

section Prime

variable [Fact q.Prime]

/-- Two responses to different challenges give the discrete logarithms away, which are then
equal. -/
theorem Responds.challenge_eq {generator hPoint gamma u v : G} {x c c' s s' : ZMod q}
    (hgenerator : generator ≠ 0) (hgamma : gamma ≠ x • hPoint)
    (hresponds : Responds generator (x • generator) hPoint gamma u v c s)
    (hresponds' : Responds generator (x • generator) hPoint gamma u v c' s') : c = c' := by
  obtain ⟨hu, hv⟩ := hresponds
  obtain ⟨hu', hv'⟩ := hresponds'
  have hlog : (s - s' - (c - c') * x) • generator = 0 := by
    have hsplit : (s - s' - (c - c') * x) • generator =
        s • generator - c • x • generator - (s' • generator - c' • x • generator) := by module
    rw [hsplit, hu, hu', sub_self]
  have hs : s - s' = (c - c') * x :=
    sub_eq_zero.mp ((smul_eq_zero.mp hlog).resolve_right hgenerator)
  have hpoint : (c - c') • (gamma - x • hPoint) = 0 := by
    have hsplit : (c - c') • (gamma - x • hPoint) =
        s' • hPoint - c' • gamma - (s • hPoint - c • gamma) +
          (s - s' - (c - c') * x) • hPoint := by module
    rw [hsplit, hv, hv', sub_self, hs, sub_self, zero_smul, add_zero]
  exact sub_eq_zero.mp ((smul_eq_zero.mp hpoint).resolve_right (sub_ne_zero.mpr hgamma))

variable [DecidableEq G]

theorem vrfVerify_eq_some {pubkey : CPubKey} {alpha proof : Bytes} {beta : Uint256} :
    vrfVerify curve crypto pubkey alpha proof = some beta ↔
      (pubkey.isCompressed = true ∧ proof.length = 81) ∧
      ∃ y, curve.parse pubkey.vch = some y ∧
      ∃ gamma, curve.parse (proof.take 33) = some gamma ∧
      ∃ c, setB32Seckey q ((proof.drop 33).take 16) = some c ∧
      ∃ s, setB32Seckey q (proof.drop 49) = some s ∧
      ∃ hPoint, hashToCurve curve crypto pubkey.vch alpha = some hPoint ∧
      ∃ u, combine (s • curve.generator) (-(c • y)) = some u ∧
      ∃ v, combine (s • hPoint) (-(c • gamma)) = some v ∧
      challengeScalar curve crypto pubkey.vch hPoint gamma u v = (proof.drop 33).take 16 ∧
      vrfProofToHash curve crypto proof = some beta := by
  simp only [vrfVerify, bind_eq_bind, bind_eq_some_iff, guard_eq_some',
    exists_and_left, exists_const]

/-- An honest proof is accepted with its own output. -/
theorem vrfVerify_vrfProve {sk alpha proof : Bytes} {compressed : Bool} {x : ZMod q}
    (hkey : setB32Seckey q sk = some x)
    (hprove : vrfProve curve crypto sk compressed alpha = some proof) :
    ∃ beta, vrfVerify curve crypto (vrfPubKey curve x) alpha proof = some beta ∧
      vrfProofToHash curve crypto proof = some beta := by
  have hx := (setB32Seckey_eq_some hkey).1
  simp only [vrfProve, hkey, bind_eq_bind, bind_some, bind_eq_some_iff,
    Option.guard_eq_some', Option.pure_def, Option.some.injEq] at hprove
  obtain ⟨-, -, hPoint, hcurve, k, hscalar, c, hchallenge, -, hs, rfl⟩ := hprove
  set challenge := challengeScalar curve crypto (vrfPubKey curve x).vch hPoint (x • hPoint)
    (k • curve.generator) (k • hPoint)
  have hgamma : x • hPoint ≠ 0 := smul_ne_zero hx (hashToCurve_ne_zero hcurve)
  have hk : k ≠ 0 := hashToScalar_ne_zero hscalar
  have hlength : challenge.length = 16 := by
    simp [challenge, challengeScalar, Uint256.bytes, beBytes, length_leBytes]
  have hlength' : (beBytes 32 (c * x + k).val).length = 32 := by simp [beBytes, length_leBytes]
  obtain ⟨hproof, hpoint, hmiddle, hresponse⟩ :=
    proof_slices (curve.length_serialize (x • hPoint)) hlength hlength'
  generalize curve.serialize (x • hPoint) ++ challenge ++ beBytes 32 (c * x + k).val = proof at *
  have hparse : curve.parse (proof.take 33) = some (x • hPoint) := by
    rw [hpoint, curve.parse_serialize _ hgamma]
  have hhash : vrfProofToHash curve crypto proof = some (vrfOutput curve crypto (x • hPoint)) := by
    rw [vrfProofToHash, if_neg (not_not.mpr hproof), hparse]
    rfl
  have hu : (c * x + k) • curve.generator + -(c • x • curve.generator) = k • curve.generator := by
    module
  have hv : (c * x + k) • hPoint + -(c • x • hPoint) = k • hPoint := by module
  refine ⟨_, vrfVerify_eq_some.mpr ⟨⟨?_, hproof⟩, _,
    curve.parse_serialize _ (smul_ne_zero hx curve.generator_ne), _, hparse, c, ?_, c * x + k, ?_,
    hPoint, hcurve, k • curve.generator, ?_, k • hPoint, ?_, hmiddle.symm, hhash⟩, hhash⟩
  · simp [CPubKey.isCompressed, vrfPubKey, curve.length_serialize]
  · rw [hmiddle, hchallenge]
  · rw [hresponse]
    exact setB32Seckey_beBytes curve hs
  · rw [combine, hu, if_neg (smul_ne_zero hk curve.generator_ne)]
  · rw [combine, hv, if_neg (smul_ne_zero hk (hashToCurve_ne_zero hcurve))]

end Prime

/-- The numbers modulo five as a curve: a point is its last byte. -/
def fivePoints : Curve 5 (ZMod 5) where
  generator := 1
  serialize point := beBytes 33 point.val
  parse bytes := setB32Seckey 5 (bytes.drop 32)
  generator_ne := by decide
  order_le := by decide
  length_serialize point := by simp [beBytes, length_leBytes]
  parse_serialize := by decide
  parse_ne _ _ hparse := (setB32Seckey_eq_some hparse).1

/-- A hash function that tells challenges from other uses by their domain byte. -/
def domainCrypto : Crypto where
  sha256 bytes := if bytes.getD 1 0 = 2 then beBytes 16 3 ++ beBytes 16 0 else beBytes 32 2
  hash160 bytes := bytes
  blsVerifyPossession _ _ := false
  blsFastAggregateVerify _ _ _ := false
  verifySchnorr _ _ _ := false
  fastMerkleRoot _ := 0

instance primeFive : Fact (Nat.Prime 5) := ⟨by decide⟩

end Sequentia
