import Sequentia.Mining.ModifiedSet
import Sequentia.Mining.TemplateFees
import Mathlib.Algebra.BigOperators.Ring.Finset

/-!
# The limits of a block

While the assembler chooses transactions it compares running totals with the limits. The totals
start from a reserve for the coinbase, which is built afterwards and has an output for every fee
asset. The sigops of privately submitted records are not added to the totals at all.

The totals that a package is judged by may be too high but never too low, so that the running
totals stay within the limits. The block does if what the coinbase and the submissions need beyond
the reserve fits into the room that is left.
-/

namespace Sequentia.Mining

open Remainders List

def opCheckSigVerify : UInt8 := 0xad

def opCheckMultiSig : UInt8 := 0xae

def opCheckMultiSigVerify : UInt8 := 0xaf

def opCheckSigFromStack : UInt8 := 0xc1

def opCheckSigFromStackVerify : UInt8 := 0xc2

def maxPubkeysPerMultisig : ℕ := 20

/-- The sigops an opcode counts for. -/
def opcodeSigOps (opcode : UInt8) : ℕ :=
  if opcode = opCheckSig ∨ opcode = opCheckSigVerify ∨ opcode = opCheckSigFromStack ∨
      opcode = opCheckSigFromStackVerify then 1
  else if opcode = opCheckMultiSig ∨ opcode = opCheckMultiSigVerify then maxPubkeysPerMultisig
  else 0

/-- The loop of `CScript::GetSigOpCount`, which ends with the script or at an opcode that cannot be
read; each opcode takes a byte at least. -/
def countSigOps : ℕ → CScript → ℕ
  | 0, _ => 0
  | steps + 1, pc =>
    match getScriptOp pc with
    | none => 0
    | some (opcode, _, rest) => opcodeSigOps opcode + countSigOps steps rest

/-- `CScript::GetSigOpCount` without exact counting. -/
def getSigOpCount (script : CScript) : ℕ := countSigOps script.length script

/-- What the size of the block depends on besides its transactions. -/
structure BlockShape where
  /-- `nMaxBlockWeight`, or `MAX_BLOCK_WEIGHT` where the chain sets none. -/
  maxBlockWeight : ℕ
  headerWeight : ℕ
  /-- The size of the coinbase's `scriptSig`. -/
  scriptSigSize : ℕ
  /-- The coinbase carries the reserved witness value. -/
  hasWitness : Bool

/-- `GetSizeOfCompactSize`. -/
def compactSizeLength (size : ℕ) : ℕ :=
  if size < 253 then 1 else if size ≤ 0xffff then 3 else if size ≤ 0xffffffff then 5 else 9

/-- The size of an explicit amount in an explicit asset, without a nonce. -/
def amountSize (elementsMode : Bool) : ℕ := if elementsMode then 33 + 9 + 1 else 8

section Block

variable (b : BlockShape) (p : CoinbaseParams) (pool : CTxMemPool)

def outputSize (out : CTxOut) : ℕ :=
  amountSize p.conElementsMode + compactSizeLength out.scriptPubKey.length +
    out.scriptPubKey.length

/-- The weight of the coinbase: version, input, outputs and lock time count fourfold. -/
def coinbaseWeight (vout : List CTxOut) : ℕ :=
  let base := 4 + (if p.conElementsMode then 1 else 0) +
    (1 + 36 + compactSizeLength b.scriptSigSize + b.scriptSigSize + 4) +
    compactSizeLength vout.length + (vout.map (outputSize p)).sum + 4
  let witness :=
    if !b.hasWitness then 0
    else if p.conElementsMode then 1 + 1 + (1 + 1 + 32) + 1 + 2 * vout.length
    else 1 + 1 + (1 + 1 + 32)
  witnessScaleFactor * base + witness

/-- `GetLegacySigOpCount` of the coinbase, as a cost. -/
def coinbaseSigOpCost (vout : List CTxOut) : ℕ :=
  witnessScaleFactor * (vout.map fun out => getSigOpCount out.scriptPubKey).sum

/-- `GetTransactionWeight`. -/
def BlockTx.weight : BlockTx → ℕ
  | .submission s => s.weight
  | .pool x => (pool.entry x).txWeight

/-- `GetTransactionSigOpCost`. -/
def BlockTx.sigOpCost : BlockTx → ℕ
  | .submission s => s.sigOpCost
  | .pool x => (pool.entry x).sigOpCost

/-- `GetBlockWeight`. -/
def blockWeight (t : CBlockTemplate) : ℕ :=
  b.headerWeight + witnessScaleFactor * compactSizeLength (t.vtx.length + 1) +
    coinbaseWeight b p t.coinbase + (t.vtx.map (BlockTx.weight pool)).sum

/-- The sigop cost that `ConnectBlock` counts. -/
def blockSigOpsCost (t : CBlockTemplate) : ℕ :=
  coinbaseSigOpCost t.coinbase + (t.vtx.map (BlockTx.sigOpCost pool)).sum

structure WithinLimits (t : CBlockTemplate) : Prop where
  weight : blockWeight b p pool t ≤ b.maxBlockWeight
  sigOps : blockSigOpsCost pool t ≤ maxBlockSigOpsCost

end Block

/-- The sigops of a submission, which the assembler does not count. -/
def BlockTx.uncounted : BlockTx → ℕ
  | .submission s => s.sigOpCost
  | .pool _ => 0

def CoinbaseParams.outputs (p : CoinbaseParams) (feeMap : CAmountMap) : List CTxOut :=
  (p.paidFees feeMap).map p.feeOutput ++
    (p.commitScripts ++ p.witnessCommitment.toList).map p.commitOutput

section Condition

variable (b : BlockShape) (p : CoinbaseParams) (limits : AssemblerLimits) (n : BlockAssembler)

/-- The weight of the block besides the chosen transactions. -/
def frameWeight : ℕ :=
  b.headerWeight + witnessScaleFactor * compactSizeLength (n.vtx.length + 1) +
    coinbaseWeight b p (p.outputs n.feeMap)

/-- The sigops of the coinbase and of the submissions. -/
def frameSigOps : ℕ :=
  coinbaseSigOpCost (p.outputs n.feeMap) + (n.vtx.map BlockTx.uncounted).sum

/-- What was not reserved fits into the room left by the running totals. -/
structure RoomLeft : Prop where
  weight : frameWeight b p n + n.nBlockWeight ≤
    b.maxBlockWeight + (coinbaseReservedWeight + limits.proofWeight)
  sigOps : frameSigOps p n + n.nBlockSigOpsCost ≤ maxBlockSigOpsCost + 400

/-- The reserve is enough, whatever was chosen. -/
structure WithinReserve : Prop where
  weight : frameWeight b p n +
      max limits.nBlockMaxWeight (coinbaseReservedWeight + limits.proofWeight) ≤
    b.maxBlockWeight + (coinbaseReservedWeight + limits.proofWeight)
  sigOps : frameSigOps p n ≤ 400

end Condition

variable {limits : AssemblerLimits} {pool : CTxMemPool} {p : CoinbaseParams} {b : BlockShape}
  {n m : BlockAssembler} {k : Quantity} {d : Uint256}

/-- The running totals are those of the chosen transactions, within the limits, and the totals of
the modified set are not too low. -/
structure LimitsInv (limits : AssemblerLimits) (pool : CTxMemPool) (n : BlockAssembler) :
    Prop where
  /-- `nBlockWeight`. -/
  weight : n.nBlockWeight =
    coinbaseReservedWeight + limits.proofWeight + (n.vtx.map (BlockTx.weight pool)).sum
  /-- `nBlockSigOpsCost`, which leaves out the submissions. -/
  sigOps : n.nBlockSigOpsCost + (n.vtx.map BlockTx.uncounted).sum =
    400 + (n.vtx.map (BlockTx.sigOpCost pool)).sum
  weight_le : n.nBlockWeight ≤
    max limits.nBlockMaxWeight (coinbaseReservedWeight + limits.proofWeight)
  sigOps_le : n.nBlockSigOpsCost ≤ maxBlockSigOpsCost
  covers : ∀ k, k ≠ Quantity.modFees → ∀ d e, n.mapModifiedTx d = some e →
    remainder pool.ancestors (fun y => k.of (pool.entry y)) n.inBlock d ≤ k.kept e

theorem Quantity.of_nonneg (hk : k ≠ .modFees) (e : CTxMemPoolEntry) : 0 ≤ k.of e := by
  cases k with
  | modFees => exact absurd rfl hk
  | _ => exact Int.natCast_nonneg _

/-- The totals of the mempool cover what is not in the block. -/
theorem remainder_le_withAncestors (hk : k ≠ .modFees) (taken : Finset Uint256) :
    remainder pool.ancestors (fun y => k.of (pool.entry y)) taken d ≤ pool.withAncestors k d := by
  have hanti : remainder pool.ancestors (fun y => k.of (pool.entry y)) taken d ≤
      remainder pool.ancestors (fun y => k.of (pool.entry y)) ∅ d :=
    Finset.sum_le_sum_of_subset_of_nonneg (Finset.sdiff_subset_sdiff subset_rfl
      (Finset.empty_subset taken)) fun y _ _ => Quantity.of_nonneg hk (pool.entry y)
  rwa [remainder_of_disjoint (Finset.disjoint_empty_right _)] at hanti

variable {x : Uint256} {usingModified : Bool} {ancestors sortedEntries : List Uint256}
  {vout vout' : List CTxOut}

variable (hinv : LimitsInv limits pool n)

include hinv

/-- A package keeps the totals of the modified set high enough. -/
theorem LimitsInv.covers_adds
    (hadds : Adds limits pool n m x usingModified ancestors sortedEntries) (hk : k ≠ .modFees)
    {e : CTxMemPoolModifiedEntry} (hd : m.mapModifiedTx d = some e) :
    remainder pool.ancestors (fun y => k.of (pool.entry y)) m.inBlock d ≤ k.kept e := by
  have hsame : ∀ it ∈ n.package pool x, d ∉ n.package pool x → it ∈ pool.ancestors d →
      k.afterwards (pool.entry it) = k.of (pool.entry it) := by
    intro it _ _ _
    cases k with
    | modFees => exact absurd rfl hk
    | _ => rfl
  obtain ⟨hout, hkept, -⟩ := hadds.kept_eq hsame hd
  rw [hadds.eq, addPackage_inBlock, hadds.toFinset_sorted,
    remainder_union (package_disjoint pool hadds.fresh.2) hout, hkept]
  refine Int.sub_le_sub_right ?_ _
  cases hold : n.mapModifiedTx d with
  | some e₀ => exact hinv.covers k hk d e₀ hold
  | none => exact remainder_le_withAncestors hk n.inBlock

theorem LimitsInv.package_le {totals : CTxMemPoolModifiedEntry}
    (hfresh : x ∉ n.inBlock) (htotals : n.packageTotals pool x usingModified = some totals)
    (hk : k ≠ .modFees) : ∑ y ∈ n.package pool x, k.of (pool.entry y) ≤ k.kept totals := by
  have hpackage : n.package pool x = insert x (pool.ancestors x) \ n.inBlock := by
    rw [BlockAssembler.package, Finset.insert_sdiff_of_notMem _ hfresh]
  rw [hpackage]
  revert htotals
  fun_cases BlockAssembler.packageTotals pool n x usingModified
  · exact hinv.covers k hk x totals
  · rintro ⟨⟩
  · rintro ⟨⟩
    rw [kept_modifiedEntry]
    exact remainder_le_withAncestors hk n.inBlock

theorem LimitsInv.fits (hadds : Adds limits pool n m x usingModified ancestors sortedEntries) :
    n.nBlockWeight + (sortedEntries.map fun y => (pool.entry y).txWeight).sum <
        limits.nBlockMaxWeight ∧
      n.nBlockSigOpsCost + (sortedEntries.map fun y => (pool.entry y).sigOpCost).sum <
        maxBlockSigOpsCost := by
  obtain ⟨totals, htotals, htest⟩ := hadds.fits
  simp only [BlockAssembler.testPackage, Bool.and_eq_true, decide_eq_true_eq] at htest
  have hnodup : sortedEntries.Nodup := hadds.sorted.nodup_iff.mpr hadds.package.1
  have hsum : ∀ f : Uint256 → ℕ,
      ((sortedEntries.map f).sum : ℤ) = ∑ y ∈ n.package pool x, (f y : ℤ) := by
    intro f
    rw [← hadds.toFinset_sorted, ← sum_toFinset f hnodup, Nat.cast_sum]
  have hsize := hinv.package_le (k := .size) hadds.fresh.2 htotals (by decide)
  have hsigOps := hinv.package_le (k := .sigOpCost) hadds.fresh.2 htotals (by decide)
  have hweight : ∑ y ∈ n.package pool x, ((pool.entry y).txWeight : ℤ) ≤
      witnessScaleFactor * ∑ y ∈ n.package pool x, ((pool.entry y).txSize : ℤ) := by
    rw [Finset.mul_sum]
    refine Finset.sum_le_sum fun y _ => ?_
    exact_mod_cast (pool.entry y).txWeight_le
  simp only [Quantity.of, Quantity.kept, witnessScaleFactor] at hsize hsigOps hweight htest
  rw [← hsum] at hsigOps hweight
  omega

/-- Adding a package keeps the running totals right and within the limits. -/
theorem LimitsInv.adds (hadds : Adds limits pool n m x usingModified ancestors sortedEntries) :
    LimitsInv limits pool m := by
  obtain ⟨hweight, hsigOps⟩ := hinv.fits hadds
  have hm := hadds.eq
  simp only [BlockAssembler.addPackage, foldl_addToBlock] at hm
  have hnone : (sortedEntries.map (BlockTx.uncounted ∘ BlockTx.pool)).sum = 0 := by
    simp [BlockTx.uncounted, Function.comp_def]
  refine ⟨?_, ?_, ?_, ?_, fun k hk d e hd => hinv.covers_adds hadds hk hd⟩
  · simp only [hm, map_append, sum_append, hinv.weight, map_map]
    exact Nat.add_assoc _ _ _
  · have hold := hinv.sigOps
    simp only [hm, map_append, sum_append, map_map, hnone]
    simp only [Function.comp_def, BlockTx.sigOpCost] at hold ⊢
    omega
  · simp only [hm]
    omega
  · simp only [hm]
    omega

/-- A submission keeps the running totals right and within the limits. -/
theorem LimitsInv.addSubmission (s : Submission) :
    LimitsInv limits pool (n.addSubmission limits s) := by
  unfold BlockAssembler.addSubmission
  split
  · exact hinv
  · next hfits =>
    refine { hinv with weight := ?_, sigOps := ?_, weight_le := ?_ }
    · simp only [map_append, sum_append, hinv.weight, map_cons, map_nil,
        sum_singleton, BlockTx.weight]
      exact Nat.add_assoc _ _ _
    · have := hinv.sigOps
      simp only [map_append, sum_append, map_cons, map_nil,
        sum_singleton, BlockTx.uncounted, BlockTx.sigOpCost]
      omega
    · dsimp only
      omega

/-- The running totals stay right and within the limits. -/
theorem LimitsInv.next {e : AssemblyEvent}
    (hnext : n.next limits pool e = some m) : LimitsInv limits pool m := by
  rcases next_cases hnext with rfl | ⟨s, rfl⟩ | hskips | ⟨_, _, _, _, _, _, _, hadds⟩
  · exact hinv
  · exact hinv.addSubmission s
  · rw [hskips.frame]
    refine { hinv with covers := fun k hk d e hd => ?_ }
    rcases hskips.modified d with hnone | hsame
    · exact absurd (hnone.symm.trans hd) (by simp)
    · exact hinv.covers k hk d e (hsame.symm.trans hd)
  · exact hinv.adds hadds

omit hinv

/-- The running totals are right and within the limits in every state of an assembly. -/
theorem limitsInv_of_reachable
    (hreach : (assembler limits pool).Reachable (fun _ _ => True) n) : LimitsInv limits pool n := by
  refine Machine.Reachable.invariant ?_ (fun _ _ _ h _ hnext => h.next hnext) hreach
  rintro _ rfl
  exact ⟨rfl, rfl, Nat.le_max_right _ _, show 400 ≤ maxBlockSigOpsCost by decide, nofun⟩

theorem coinbase_perm {t : CBlockTemplate} (ht : createTemplate p n = some t) :
    t.vtx = n.vtx ∧ t.coinbase.Perm (p.outputs n.feeMap) := by
  simp only [createTemplate, Option.bind_eq_bind, Option.bind_eq_some_iff, Option.pure_def,
    Option.some.injEq] at ht
  obtain ⟨vTxFees, -, vout, hvout, rfl⟩ := ht
  have hcommit : (p.witnessCommitment.map p.commitOutput).toList =
      p.witnessCommitment.toList.map p.commitOutput := by
    cases p.witnessCommitment <;> rfl
  refine ⟨rfl, ?_⟩
  rw [hcommit, CoinbaseParams.outputs, map_append, ← append_assoc]
  refine List.Perm.append_right _ ?_
  unfold CoinbaseParams.insertCommits at hvout
  split at hvout
  · next hnone =>
    cases hvout
    rw [hnone, map_nil, append_nil]
  · obtain ⟨last, hlast, rfl⟩ := Option.map_eq_some_iff.mp hvout
    conv_rhs => rw [← dropLast_append_getLast? last hlast]
    rw [append_assoc, append_assoc]
    exact List.Perm.append_left _ perm_append_comm

theorem coinbaseWeight_perm (h : vout.Perm vout') :
    coinbaseWeight b p vout = coinbaseWeight b p vout' := by
  simp only [coinbaseWeight, h.length_eq, (h.map (outputSize p)).sum_eq]

theorem coinbaseSigOpCost_perm (h : vout.Perm vout') :
    coinbaseSigOpCost vout = coinbaseSigOpCost vout' := by
  simp only [coinbaseSigOpCost, (h.map fun out => getSigOpCount out.scriptPubKey).sum_eq]

/-- A mempool without transactions. -/
def emptyPool : CTxMemPool where
  txids := ∅
  entry _ := payingEntry 7
  ancestors _ := ∅
  ancestors_subset _ := Finset.empty_subset _
  ancestors_trans := (twoPayers 7).ancestors_trans
  not_mem_ancestors x := Finset.notMem_empty x

/-- A supervision record of a thousand and some bytes with so many legacy sigops. -/
def record (legacySigOpCount : ℕ) : Submission where
  txid := 1
  feeMap := ∅
  weight := 6000
  legacySigOpCount := legacySigOpCount
  sigOpCost := witnessScaleFactor * legacySigOpCount
  feeMap_nonneg _ := Int.le_refl 0

/-- A chain of blocks of 400,000 units of weight. -/
def smallBlocks : BlockShape where
  maxBlockWeight := 400000
  headerWeight := 1000
  scriptSigSize := 5
  hasWitness := true

def smallBlockLimits : AssemblerLimits := ⟨396000, 600⟩

end Sequentia.Mining
