import Sequentia.PubKey
import Sequentia.Transaction

/-!
# The primitives the rules call

Hash functions and signature schemes are parameters of the model: no rule depends on
more than their values. What is built from them (key identifiers, the script of a witness
key hash) is embedded as the node builds it.
-/

namespace Sequentia

/-- The hash functions and signature checks of the node. -/
structure Crypto where
  /-- `CSHA256`. -/
  sha256 : Bytes → Bytes
  hash160 : Bytes → Bytes
  /-- `BlsVerifyPossession`: the second argument proves possession of the first. -/
  blsVerifyPossession : Bytes → Bytes → Bool
  /-- `BlsFastAggregateVerify`: all of the keys signed the message. -/
  blsFastAggregateVerify : List Bytes → Bytes → Bytes → Bool
  /-- `XOnlyPubKey::VerifySchnorr`: the key signed the message. -/
  verifySchnorr : Uint256 → Uint256 → Bytes → Bool
  /-- `ComputeFastMerkleRoot`. -/
  fastMerkleRoot : List Uint256 → Uint256

/-- The bytes of a hash, in memory order. -/
def Uint256.bytes (h : Uint256) : Bytes := beBytes 32 h.val.toNat

/-- A hash from its bytes in memory order. -/
def Uint256.ofBytes (bs : Bytes) : Uint256 := ⟨BitVec.ofNat 256 (beNat bs)⟩

/-- A number as `width` hexadecimal digits. -/
def hexDigits (width n : ℕ) : String :=
  let digits := Nat.toDigits 16 n
  String.ofList (List.replicate (width - digits.length) '0' ++ digits)

/-- `uint256::GetHex`: the bytes backwards. -/
def Uint256.getHex (h : Uint256) : String :=
  String.join (h.bytes.reverse.map fun b => hexDigits 2 b.toNat)

/-- The length byte that precedes a short vector in a serialization. -/
def sized (bs : Bytes) : Bytes := UInt8.ofNat bs.length :: bs

/-- `CHashWriter::GetHash` of the bytes written. -/
def Crypto.hash (crypto : Crypto) (bs : Bytes) : Uint256 :=
  Uint256.ofBytes (crypto.sha256 (crypto.sha256 bs))

/-- `CHashWriter::GetSHA256` of the bytes written. -/
def Crypto.sha256Single (crypto : Crypto) (bs : Bytes) : Uint256 :=
  Uint256.ofBytes (crypto.sha256 bs)

def CPubKey.getID (crypto : Crypto) (key : CPubKey) : Bytes := crypto.hash160 key.vch

/-- `GetScriptForDestination` of a `WitnessV0KeyHash`. -/
def witnessV0KeyHashScript (keyID : Bytes) : CScript := op0 :: 20 :: keyID

/-- An addition of unsigned 64-bit numbers wraps around. -/
def toUint64 (n : ℕ) : ℕ := n % 2 ^ 64

/-- The conversion of a wide unsigned number to a signed 64-bit number keeps its low bits. -/
def toInt64 (n : ℕ) : ℤ := Int.bmod n (2 ^ 64)

/-- The conversion to a signed 32-bit number keeps the low bits. -/
@[irreducible]
def toInt32 (n : ℕ) : ℤ := Int.bmod n (2 ^ 32)

theorem toUint64_of_lt {n : ℕ} (hlt : n < 2 ^ 64) : toUint64 n = n := by
  rw [toUint64, Nat.mod_eq_of_lt hlt]

/-- Adding up in a loop wraps around once at the end. -/
theorem foldl_toUint64_add {α : Type*} (f : α → ℕ) (l : List α) :
    l.foldl (fun total a => toUint64 (total + f a)) 0 = toUint64 (l.map f).sum := by
  have hgen : ∀ total, l.foldl (fun total a => toUint64 (total + f a)) (toUint64 total) =
      toUint64 (total + (l.map f).sum) := by
    induction l with
    | nil => simp
    | cons a l ih =>
      intro total
      have hadd : toUint64 (toUint64 total + f a) = toUint64 (total + f a) := by
        simp only [toUint64, Nat.mod_add_mod]
      rw [List.foldl_cons, hadd, ih, List.map_cons, List.sum_cons, Nat.add_assoc]
  simpa [toUint64] using hgen 0

theorem toInt64_of_lt {n : ℕ} (hlt : n < 2 ^ 63) : toInt64 n = n := by
  unfold toInt64
  apply Int.bmod_eq_of_le
  · omega
  · omega

theorem toInt32_of_lt {n : ℕ} (hlt : n < 2 ^ 31) : toInt32 n = n := by
  unfold toInt32
  apply Int.bmod_eq_of_le
  · omega
  · omega

end Sequentia
