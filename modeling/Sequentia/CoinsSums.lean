import Sequentia.Supervision.Accepted

/-!
# Sums over coins

A measure of outputs adds up over the UTXO set. A block changes the sum by what its transactions
create and spend.
-/

namespace Sequentia

open List

variable {view view' : CCoinsView} {nHeight : ℕ} {block : CBlock} {undo : CBlockUndo}

/-- What coins add up to. -/
def sumOf (f : CTxOut → ℤ) (coins : List (COutPoint × Coin)) : ℤ :=
  (coins.map fun e => f e.2.out).sum

theorem sumOf_append (f : CTxOut → ℤ) (coins coins' : List (COutPoint × Coin)) :
    sumOf f (coins ++ coins') = sumOf f coins + sumOf f coins' := by
  simp [sumOf]

theorem sumOf_flatMap {α : Type*} (f : CTxOut → ℤ) (l : List α)
    (g : α → List (COutPoint × Coin)) :
    sumOf f (l.flatMap g) = (l.map fun x => sumOf f (g x)).sum := by
  induction l with
  | nil => rfl
  | cons x l ih => rw [flatMap_cons, sumOf_append, ih, map_cons, sum_cons]

theorem sumOf_createdEntries (f : CTxOut → ℤ) (nHeight : ℕ) (tx : CTransaction) :
    sumOf f (createdEntries nHeight tx) =
      ((tx.vout.filter fun out => !isUnspendable out.scriptPubKey).map f).sum := by
  conv_rhs => rw [← zipIdx_map_fst 0 tx.vout, filter_map, map_map]
  rw [sumOf, createdEntries, outputCoins, filter_map, map_map]
  rfl

theorem Connected.map_fst_zip (hconnected : Connected view view' nHeight block undo) :
    (block.vtx.tail.zip undo).map Prod.fst = block.vtx.tail := by
  refine List.map_fst_zip ?_
  have := hconnected.undo_length
  rw [length_tail]
  omega

/-- The sum after a block. -/
theorem Connected.sumOf_eq (hconnected : Connected view view' nHeight block undo)
    (f : CTxOut → ℤ) :
    ∃ coinbase, block.vtx.head? = some coinbase ∧
      sumOf f view'.toList +
          ((block.vtx.tail.zip undo).map fun p => sumOf f (spentEntries p.1 p.2)).sum =
        sumOf f view.toList + (sumOf f (createdEntries nHeight coinbase) +
          ((block.vtx.tail.zip undo).map fun p => sumOf f (createdEntries nHeight p.1)).sum) := by
  obtain ⟨coinbase, hvtx, hspends⟩ := hconnected.spends_eq
  have hcreated : sumOf f (block.createdEntries nHeight) =
      sumOf f (createdEntries nHeight coinbase) +
        ((block.vtx.tail.zip undo).map fun p => sumOf f (createdEntries nHeight p.1)).sum := by
    conv_lhs => rw [CBlock.createdEntries, sumOf_flatMap, hvtx, map_cons, sum_cons,
      ← hconnected.map_fst_zip, map_map]
    rfl
  have hspent : sumOf f (block.spentEntries undo) =
      ((block.vtx.tail.zip undo).map fun p => sumOf f (spentEntries p.1 p.2)).sum := by
    rw [CBlock.spentEntries, sumOf_flatMap, hspends]
    simp [spentEntries, sumOf]
  have hdelta : sumOf f _ = sumOf f _ := (hconnected.delta.map _).sum_eq
  rw [sumOf_append, sumOf_append, hspent, hcreated] at hdelta
  exact ⟨coinbase, by rw [hvtx]; rfl, hdelta⟩

end Sequentia
