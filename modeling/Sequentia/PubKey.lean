import Sequentia.Script

/-!
# Public keys

`CPubKey` keeps the serialized key and knows its length from the first byte. Full
validity asks the curve library to parse the point; the arithmetic it needs (a square
test modulo the field prime) is small enough to embed as it stands.
-/

namespace Sequentia

/-- Big-endian value of a byte vector, as `secp256k1_fe_set_b32` reads it. -/
def beNat (bs : Bytes) : ℕ := bs.foldl (fun n b => 256 * n + b.toNat) 0

/-- The `n` low bytes of a number, big-endian. -/
def beBytes (n v : ℕ) : Bytes := (leBytes n v).reverse

/-- The prime of the field the curve is defined over. -/
def secpPrime : ℕ := 2 ^ 256 - 2 ^ 32 - 977

/-- Modular exponentiation by squaring; `bits` bounds the length of the exponent. -/
def powMod (m : ℕ) : ℕ → ℕ → ℕ → ℕ
  | 0, _, _ => 1 % m
  | bits + 1, b, e =>
    if e = 0 then 1 % m
    else
      let r := powMod m bits (b * b % m) (e / 2)
      if e % 2 = 1 then b * r % m else r

/-- `secp256k1_fe_sqrt` succeeds: the candidate root of `a` squares back to `a`. -/
def feIsSquare (a : ℕ) : Bool :=
  let r := powMod secpPrime 256 a ((secpPrime + 1) / 4)
  r * r % secpPrime == a % secpPrime

/-- `secp256k1_ge_set_xo_var` succeeds: `x` is the abscissa of a curve point. -/
def geSetXo (x : ℕ) : Bool := feIsSquare ((x * x * x + 7) % secpPrime)

/-- `secp256k1_eckey_pubkey_parse`: the bytes are a compressed, uncompressed or hybrid
encoding of a curve point. -/
def eckeyPubkeyParse (pub : Bytes) : Bool :=
  match pub with
  | [] => false
  | tag :: rest =>
    if pub.length = 33 ∧ (tag = 2 ∨ tag = 3) then
      let x := beNat rest
      decide (x < secpPrime) && geSetXo x
    else if pub.length = 65 ∧ (tag = 4 ∨ tag = 6 ∨ tag = 7) then
      let x := beNat (rest.take 32)
      let y := beNat (rest.drop 32)
      decide (x < secpPrime) && decide (y < secpPrime) &&
        (tag == 4 || (decide (y % 2 = 1) == (tag == 7))) &&
        y * y % secpPrime == (x * x * x + 7) % secpPrime
    else false

/-- A public key. `vch` holds its serialization, and is empty for an invalid key. -/
structure CPubKey where
  /-- The serialized key. -/
  vch : Bytes
  deriving DecidableEq

/-- `CPubKey::GetLen`: the length of a key with the given first byte. -/
def CPubKey.getLen (chHeader : UInt8) : ℕ :=
  if chHeader = 2 ∨ chHeader = 3 then 33
  else if chHeader = 4 ∨ chHeader = 6 ∨ chHeader = 7 then 65
  else 0

def CPubKey.validSize (vch : Bytes) : Bool :=
  match vch with
  | [] => false
  | chHeader :: _ => CPubKey.getLen chHeader == vch.length

/-- `CPubKey::Set`: a key from serialized bytes, invalid when the first byte does not
announce their number. -/
def CPubKey.ofBytes (vch : Bytes) : CPubKey :=
  if CPubKey.validSize vch then ⟨vch⟩ else ⟨[]⟩

def CPubKey.isFullyValid (key : CPubKey) : Bool :=
  !key.vch.isEmpty && eckeyPubkeyParse key.vch

def CPubKey.isCompressed (key : CPubKey) : Bool := key.vch.length == 33

/-- The order of `std::map<CPubKey, ...>`, that of the serialized bytes. -/
instance : LawfulBEq (CPubKey × ℕ) := inferInstance

instance : Ord CPubKey := ⟨compareOn CPubKey.vch⟩

instance : Std.TransOrd CPubKey := inferInstanceAs (Std.TransCmp (compareOn CPubKey.vch))

instance : Std.LawfulEqOrd CPubKey where
  eq_of_compare {a b} h := by
    cases a
    cases b
    exact congrArg CPubKey.mk (Std.LawfulEqOrd.eq_of_compare (α := Bytes) h)

theorem CPubKey.validSize_of_isFullyValid {key : CPubKey} (hvalid : key.isFullyValid = true) :
    validSize key.vch = true := by
  obtain ⟨_ | ⟨tag, rest⟩⟩ := key
  · cases hvalid
  · simp only [isFullyValid, eckeyPubkeyParse, Bool.and_eq_true] at hvalid
    have hparse := hvalid.2
    simp only [validSize, getLen, beq_iff_eq]
    split at hparse
    · next htag => rw [if_pos htag.2, htag.1]
    · split at hparse
      · next htag =>
        have hother : ¬ (tag = 2 ∨ tag = 3) := by
          rcases htag.2 with rfl | rfl | rfl <;> decide
        rw [if_neg hother, if_pos htag.2, htag.1]
      · cases hparse

theorem CPubKey.length_of_isFullyValid {key : CPubKey} (hvalid : key.isFullyValid = true) :
    key.vch.length = 33 ∨ key.vch.length = 65 := by
  have hsize := validSize_of_isFullyValid hvalid
  obtain ⟨_ | ⟨tag, rest⟩⟩ := key
  · cases hvalid
  · simp only [validSize, getLen, beq_iff_eq] at hsize
    split_ifs at hsize <;> simp_all

theorem CPubKey.vch_ofBytes (vch : Bytes) :
    (CPubKey.ofBytes vch).vch = vch ∨ (CPubKey.ofBytes vch).vch = [] := by
  unfold ofBytes
  split
  · exact Or.inl rfl
  · exact Or.inr rfl

theorem CPubKey.length_le_of_ofBytes_isFullyValid {vch : Bytes}
    (hvalid : (CPubKey.ofBytes vch).isFullyValid = true) : vch.length ≤ 65 := by
  have hlength := length_of_isFullyValid hvalid
  rcases vch_ofBytes vch with hvch | hvch
  · rw [hvch] at hlength
    omega
  · rw [hvch] at hlength
    simp at hlength

end Sequentia
