import Sequentia.Amounts.Binding
import Sequentia.ScriptWriter
import Sequentia.Supervision.Connect

/-!
# Transparent primitives

An instance of the primitives in which nothing is hidden: a hash is a remainder, a
signature is the key and the message, and a commitment shows what it commits to. It is
enough to run the rules on examples.
-/

namespace Sequentia

open List

/-- The remainder that stands for a hash. -/
def transparentHash (bs : Bytes) : ℕ := beNat (1 :: bs) % (2 ^ 256 - 189)

/-- Hashes and signatures that hide nothing. -/
def transparentCrypto : Crypto where
  sha256 bs := beBytes 32 (transparentHash bs)
  hash160 bs := beBytes 20 (transparentHash bs)
  blsVerifyPossession _ _ := false
  blsFastAggregateVerify _ _ _ := false
  verifySchnorr key message sig := sig == key.bytes ++ message.bytes
  fastMerkleRoot hashes := ⟨BitVec.ofNat 256 (transparentHash (hashes.flatMap Uint256.bytes))⟩

def transparentAmount (asset : CAsset) (commits : List (CAsset × ℕ)) : ℕ :=
  ((commits.filter fun c => c.1 = asset).map Prod.snd).sum

/-- Commitments that show what they commit to; `opening` reads the ones in bytes. -/
def transparentAmounts (opening : Bytes → Option (CAsset × ℕ)) : AmountCrypto where
  Generator := CAsset
  Commitment := CAsset × ℕ
  generatorGenerate asset := asset
  generatorGenerateBlinded asset _ := some asset
  generatorSerialize asset := 0x0a :: asset.bytes
  generatorParse bytes := if bytes.length = 33 then some (Uint256.ofBytes bytes.tail) else none
  pedersenCommit amount asset := (asset, amount.toNat)
  commitmentParse := opening
  verifyTally ins outs := (ins ++ outs).all fun c =>
    transparentAmount c.1 ins == transparentAmount c.1 outs
  rangeproofVerify _ commit asset _ :=
    if commit.1 = asset ∧ commit.2 < 2 ^ 64 then some (min commit.2 1) else none
  surjectionproofVerify _ targets asset := decide (asset ∈ targets)

theorem sum_transparentAmount (commits : List (CAsset × ℕ)) (a : CAsset) :
    (commits.map fun c => if a = c.1 then (c.2 : ℤ) else 0).sum = transparentAmount a commits := by
  induction commits with
  | nil => rfl
  | cons c commits ih =>
    rw [map_cons, sum_cons, ih, transparentAmount, transparentAmount]
    by_cases heq : c.1 = a
    · simp [heq]
    · simp [heq, Ne.symm heq]

theorem transparent_serialize (a : CAsset) : (if (0x0a :: a.bytes).length = 33 then
    some (Uint256.ofBytes (0x0a :: a.bytes).tail) else none) = some a := by
  have hlength : (0x0a :: a.bytes).length = 33 := by
    rw [length_cons, Uint256.bytes, beBytes, length_reverse, length_leBytes]
  rw [if_pos hlength, tail_cons, Uint256.ofBytes_bytes]

theorem transparent_range {c : CAsset × ℕ} {a : CAsset} {n : ℕ}
    (hverify : (if c.1 = a ∧ c.2 < 2 ^ 64 then some (min c.2 1) else none) = some n) :
    ∃ v : ℤ, n ≤ v ∧ v < 2 ^ 64 ∧ ∀ b, (if b = c.1 then (c.2 : ℤ) else 0) =
      if b = a then v else 0 := by
  split at hverify
  · next hrange =>
    obtain ⟨rfl, hlt⟩ := hrange
    have hn := Option.some.inj hverify
    exact ⟨c.2, by omega, by omega, fun b => rfl⟩
  · cases hverify

theorem transparent_tally {ins outs : List (CAsset × ℕ)}
    (hverify : ((ins ++ outs).all fun c =>
      transparentAmount c.1 ins == transparentAmount c.1 outs) = true) (a : CAsset) :
    (ins.map fun c => if a = c.1 then (c.2 : ℤ) else 0).sum =
      (outs.map fun c => if a = c.1 then (c.2 : ℤ) else 0).sum := by
  rw [sum_transparentAmount, sum_transparentAmount]
  by_cases hmem : ∃ c ∈ ins ++ outs, c.1 = a
  · obtain ⟨c, hc, rfl⟩ := hmem
    have heq := all_eq_true.mp hverify c hc
    rw [beq_iff_eq] at heq
    rw [heq]
  · have hnone : ∀ l : List (CAsset × ℕ), (∀ c ∈ l, c ∈ ins ++ outs) →
        transparentAmount a l = 0 := by
      intro l hl
      have hfilter : (l.filter fun c => c.1 = a) = [] :=
        filter_eq_nil_iff.mpr fun c hc => by
          simpa using fun heq => hmem ⟨c, hl c hc, heq⟩
      rw [transparentAmount, hfilter]
      rfl
    rw [hnone ins fun c hc => mem_append_left _ hc,
      hnone outs fun c hc => mem_append_right _ hc]

/-- The transparent primitives are binding, and their proofs are sound. -/
def transparentBinding (opening : Bytes → Option (CAsset × ℕ)) :
    (transparentAmounts opening).Binding where
  assetOf (asset : CAsset) := some asset
  amountOf (c : CAsset × ℕ) a := if a = c.1 then (c.2 : ℤ) else 0
  generate _ := rfl
  blinded _ _ _ hgen := hgen.symm
  serialize := transparent_serialize
  commit (g : CAsset) a v hg hpos _ b := by
    obtain rfl : g = a := Option.some.inj hg
    show (if b = g then ((v.toNat : ℕ) : ℤ) else 0) = if b = g then v else 0
    rw [Int.toNat_of_nonneg (Int.le_of_lt hpos)]
  range _ (c : CAsset × ℕ) (g : CAsset) _ a n hverify hg := by
    obtain rfl : g = a := Option.some.inj hg
    exact transparent_range hverify
  surjection _ (targets : List CAsset) (g : CAsset) hverify _ :=
    ⟨g, of_decide_eq_true (p := g ∈ targets) hverify, rfl⟩
  tally _ _ hverify _ := transparent_tally hverify

end Sequentia
