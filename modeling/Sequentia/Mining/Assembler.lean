import Sequentia.Amounts.Verify
import Sequentia.Lib.Remainders
import Sequentia.Lib.Runs

/-!
# The block assembler

`BlockAssembler` fills a block first with the supervision records of the private queue and then
with packages of the mempool: a transaction with those of its unconfirmed ancestors that are not in
the block yet. For the descendants of what it added it keeps corrected totals in a modified set.

Which transaction is looked at next depends on fee rates; here any order may be taken. What the
rules say about a transaction is an input.
-/

namespace Sequentia.Mining

open KeyedMap List

def witnessScaleFactor : ℕ := 4

def maxBlockSigOpsCost : ℕ := 80000

def coinbaseReservedWeight : ℕ := 4000

structure CTxMemPoolEntry where
  /-- `GetFee`, in the fee asset. -/
  nFee : ℤ
  /-- `GetFeeAsset`. -/
  feeAsset : CAsset
  /-- `GetFeeValue`, in the reference unit. -/
  nFeeValue : ℤ
  /-- `GetModifiedFee`: the fee value with the prioritisation. -/
  modifiedFee : ℤ
  /-- `GetTxSize`: the virtual size. -/
  txSize : ℕ
  /-- `GetDiscountTxSize`. -/
  discountTxSize : ℕ
  /-- `GetTxWeight`. -/
  txWeight : ℕ
  /-- `GetSigOpCost`. -/
  sigOpCost : ℕ
  nFee_nonneg : 0 ≤ nFee
  /-- The virtual size is the weight divided by four and rounded up, or more. -/
  txWeight_le : txWeight ≤ witnessScaleFactor * txSize

/-- The mempool: its transactions and their in-mempool ancestors. -/
structure CTxMemPool where
  txids : Finset Uint256
  entry : Uint256 → CTxMemPoolEntry
  /-- `CalculateMemPoolAncestors`, without the transaction itself. -/
  ancestors : Uint256 → Finset Uint256
  ancestors_subset : ∀ x, ancestors x ⊆ txids
  ancestors_trans : ∀ x, ∀ y ∈ ancestors x, ancestors y ⊆ ancestors x
  not_mem_ancestors : ∀ x, x ∉ ancestors x

/-- A total that is kept for a transaction and its ancestors. -/
inductive Quantity where
  /-- `nSizeWithAncestors`. -/
  | size
  /-- `discountSizeWithAncestors`. -/
  | discountSize
  /-- `nModFeesWithAncestors`. -/
  | modFees
  /-- `nSigOpCostWithAncestors`. -/
  | sigOpCost
  deriving DecidableEq

/-- The quantity of a transaction alone. -/
def Quantity.of : Quantity → CTxMemPoolEntry → ℤ
  | size, e => e.txSize
  | discountSize, e => e.discountTxSize
  | modFees, e => e.modifiedFee
  | sigOpCost, e => e.sigOpCost

/-- The total of a quantity over a transaction and its ancestors, as the mempool keeps it. -/
def CTxMemPool.withAncestors (pool : CTxMemPool) (k : Quantity) (x : Uint256) : ℤ :=
  ∑ y ∈ insert x (pool.ancestors x), k.of (pool.entry y)

structure CTxMemPoolModifiedEntry where
  nSizeWithAncestors : ℤ
  discountSizeWithAncestors : ℤ
  nModFeesWithAncestors : ℤ
  nSigOpCostWithAncestors : ℤ
  deriving DecidableEq

def Quantity.kept : Quantity → CTxMemPoolModifiedEntry → ℤ
  | size, e => e.nSizeWithAncestors
  | discountSize, e => e.discountSizeWithAncestors
  | modFees, e => e.nModFeesWithAncestors
  | sigOpCost, e => e.nSigOpCostWithAncestors

/-- The totals of the mempool for a transaction. -/
def CTxMemPool.modifiedEntry (pool : CTxMemPool) (x : Uint256) : CTxMemPoolModifiedEntry where
  nSizeWithAncestors := pool.withAncestors .size x
  discountSizeWithAncestors := pool.withAncestors .discountSize x
  nModFeesWithAncestors := pool.withAncestors .modFees x
  nSigOpCostWithAncestors := pool.withAncestors .sigOpCost x

def CTxMemPoolModifiedEntry.withoutAncestor (e : CTxMemPoolModifiedEntry) (it : CTxMemPoolEntry) :
    CTxMemPoolModifiedEntry where
  nSizeWithAncestors := e.nSizeWithAncestors - it.txSize
  discountSizeWithAncestors := e.discountSizeWithAncestors - it.discountTxSize
  nModFeesWithAncestors := e.nModFeesWithAncestors - it.modifiedFee
  nSigOpCostWithAncestors := e.nSigOpCostWithAncestors - it.sigOpCost

/-- `update_for_parent_inclusion`: an entry of the modified set loses another ancestor. -/
def CTxMemPoolModifiedEntry.updateForParentInclusion (e : CTxMemPoolModifiedEntry)
    (it : CTxMemPoolEntry) : CTxMemPoolModifiedEntry where
  nModFeesWithAncestors := e.nModFeesWithAncestors - it.nFeeValue
  nSizeWithAncestors := e.nSizeWithAncestors - it.txSize
  discountSizeWithAncestors := e.discountSizeWithAncestors - it.discountTxSize
  nSigOpCostWithAncestors := e.nSigOpCostWithAncestors - it.sigOpCost

/-- What `UpdatePackagesForAdded` does to a descendant of an added transaction. -/
def CTxMemPool.updateDescendant (pool : CTxMemPool) (desc : Uint256)
    (modified : Option CTxMemPoolModifiedEntry) (it : Uint256) : Option CTxMemPoolModifiedEntry :=
  some (match modified with
    | none => (pool.modifiedEntry desc).withoutAncestor (pool.entry it)
    | some e => e.updateForParentInclusion (pool.entry it))

def CTxMemPool.updatePackagesForAdded (pool : CTxMemPool) (alreadyAdded : List Uint256)
    (mapModifiedTx : Uint256 → Option CTxMemPoolModifiedEntry) :
    Uint256 → Option CTxMemPoolModifiedEntry :=
  alreadyAdded.foldl (fun modified it desc =>
    if it ∈ pool.ancestors desc ∧ desc ∉ alreadyAdded then
      pool.updateDescendant desc (modified desc) it
    else modified desc) mapModifiedTx

/-- A transaction of the private queue. -/
structure Submission where
  txid : Uint256
  /-- The fees that `CheckTxInputs` posts for it. -/
  feeMap : CAmountMap
  /-- `GetTransactionWeight`. -/
  weight : ℕ
  /-- `GetLegacySigOpCount`. -/
  legacySigOpCount : ℕ
  /-- `GetTransactionSigOpCost`, as `ConnectBlock` counts it. -/
  sigOpCost : ℕ
  feeMap_nonneg : ∀ a, 0 ≤ feeMap.getD a 0

/-- A transaction of the block besides the coinbase. -/
inductive BlockTx where
  /-- From the private queue. -/
  | submission (s : Submission)
  /-- From the mempool. -/
  | pool (x : Uint256)

structure BlockAssembler where
  /-- `block.vtx` without the coinbase. -/
  vtx : List BlockTx := []
  /-- `vTxFees`, with the entry of the coinbase. -/
  vTxFees : List ℤ := [-1]
  nBlockWeight : ℕ
  nBlockSigOpsCost : ℕ := 400
  feeMap : CAmountMap := ∅
  inBlock : Finset Uint256 := ∅
  mapModifiedTx : Uint256 → Option CTxMemPoolModifiedEntry := fun _ => none
  failedTx : Finset Uint256 := ∅
  /-- The mempool is being looked at. -/
  packages : Bool := false

structure AssemblerLimits where
  nBlockMaxWeight : ℕ
  /-- The weight set aside for the block's proof. -/
  proofWeight : ℕ

namespace BlockAssembler

variable (limits : AssemblerLimits) (pool : CTxMemPool) (n : BlockAssembler)

/-- `resetBlock`, with the weight of the proof. -/
def resetBlock : BlockAssembler where
  nBlockWeight := coinbaseReservedWeight + limits.proofWeight

/-- A valid submission in `addSupervisionSubmissions`. -/
def addSubmission (s : Submission) : BlockAssembler :=
  if limits.nBlockMaxWeight ≤ n.nBlockWeight + s.weight then n
  else
    { n with
      vtx := n.vtx ++ [.submission s]
      vTxFees := n.vTxFees ++ [0]
      nBlockWeight := n.nBlockWeight + s.weight
      feeMap := s.feeMap.toList.foldl (fun m p => tally m p.1 p.2) n.feeMap }

def testPackage (packageSize packageSigOpsCost : ℤ) : Bool :=
  decide ((n.nBlockWeight : ℤ) + witnessScaleFactor * packageSize < limits.nBlockMaxWeight) &&
    decide ((n.nBlockSigOpsCost : ℤ) + packageSigOpsCost < maxBlockSigOpsCost)

/-- `AddToBlock`, and the transaction leaves the modified set. -/
def addToBlock (x : Uint256) : BlockAssembler :=
  { n with
    vtx := n.vtx ++ [.pool x]
    vTxFees := n.vTxFees ++ [(pool.entry x).nFee]
    nBlockWeight := n.nBlockWeight + (pool.entry x).txWeight
    nBlockSigOpsCost := n.nBlockSigOpsCost + (pool.entry x).sigOpCost
    feeMap := tally n.feeMap (pool.entry x).feeAsset (pool.entry x).nFee
    inBlock := insert x n.inBlock
    mapModifiedTx := Function.update n.mapModifiedTx x none }

def package (x : Uint256) : Finset Uint256 := insert x (pool.ancestors x \ n.inBlock)

/-- The totals that a transaction is judged by, from the modified set or from the mempool; one
that is in the modified set or has failed is skipped in the mempool. -/
def packageTotals (x : Uint256) (usingModified : Bool) : Option CTxMemPoolModifiedEntry :=
  if usingModified then n.mapModifiedTx x
  else if (n.mapModifiedTx x).isSome ∨ x ∈ n.failedTx then none
  else some (pool.modifiedEntry x)

/-- A transaction of the modified set has failed. -/
def dropModified (x : Uint256) : BlockAssembler :=
  { n with
    mapModifiedTx := Function.update n.mapModifiedTx x none
    failedTx := insert x n.failedTx }

/-- A package goes into the block, in the order of the block, and the descendants are updated in
the order of the set. -/
def addPackage (ancestors sortedEntries : List Uint256) : BlockAssembler :=
  let m := sortedEntries.foldl (addToBlock pool) n
  { m with mapModifiedTx := pool.updatePackagesForAdded ancestors m.mapModifiedTx }

end BlockAssembler

/-- What the assembler looks at. -/
inductive AssemblyEvent where
  | submission (s : Submission) (valid : Bool)
  /-- A transaction of the mempool; what `TestPackageTransactions` and `TestPackageBlockRules` say
  about its package, and the package in the orders of the set and of the block. -/
  | evaluate (x : Uint256) (usingModified transactionsOk rulesOk : Bool)
      (ancestors sortedEntries : List Uint256)

/-- The state after a submission or a transaction was looked at. -/
def BlockAssembler.next (limits : AssemblerLimits) (pool : CTxMemPool) (n : BlockAssembler) :
    AssemblyEvent → Option BlockAssembler
  | .submission s valid =>
    if n.packages then none
    else some (if valid then n.addSubmission limits s else n)
  | .evaluate x usingModified transactionsOk rulesOk ancestors sortedEntries =>
    if x ∈ pool.txids ∧ x ∉ n.inBlock ∧ ancestors.Nodup ∧
        ancestors.toFinset = n.package pool x ∧ sortedEntries.Perm ancestors then
      let n := { n with packages := true }
      (n.packageTotals pool x usingModified).map fun totals =>
        if !n.testPackage limits totals.nSizeWithAncestors totals.nSigOpCostWithAncestors then
          if usingModified then n.dropModified x else n
        else if !transactionsOk then if usingModified then n.dropModified x else n
        else if !rulesOk then
          if usingModified then n.dropModified x else { n with failedTx := insert x n.failedTx }
        else n.addPackage pool ancestors sortedEntries
    else none

def assembler (limits : AssemblerLimits) (pool : CTxMemPool) :
    Machine BlockAssembler AssemblyEvent where
  init n := n = BlockAssembler.resetBlock limits
  next := BlockAssembler.next limits pool

variable {limits : AssemblerLimits} {pool : CTxMemPool} {n m : BlockAssembler}

theorem foldl_addToBlock (l : List Uint256) (n : BlockAssembler) :
    l.foldl (BlockAssembler.addToBlock pool) n =
      { n with
        vtx := n.vtx ++ l.map .pool
        vTxFees := n.vTxFees ++ l.map fun x => (pool.entry x).nFee
        nBlockWeight := n.nBlockWeight + (l.map fun x => (pool.entry x).txWeight).sum
        nBlockSigOpsCost := n.nBlockSigOpsCost + (l.map fun x => (pool.entry x).sigOpCost).sum
        feeMap := (l.map fun x => ((pool.entry x).feeAsset, (pool.entry x).nFee)).foldl
          (fun m p => tally m p.1 p.2) n.feeMap
        inBlock := n.inBlock ∪ l.toFinset
        mapModifiedTx := fun d => if d ∈ l then none else n.mapModifiedTx d } := by
  induction l generalizing n with
  | nil => simp
  | cons x l ih =>
    rw [foldl_cons, ih]
    simp only [BlockAssembler.addToBlock, map_cons, sum_cons, foldl_cons,
      toFinset_cons, append_assoc, singleton_append, Nat.add_assoc,
      BlockAssembler.mk.injEq, true_and, and_true]
    refine ⟨?_, ?_⟩
    · ext y
      simp only [Finset.mem_union, Finset.mem_insert]
      tauto
    · funext d
      simp only [mem_cons, Function.update_apply]
      by_cases hdl : d ∈ l
      · simp [hdl]
      · simp [hdl]

/-- A transaction was looked at and not added. -/
structure Skips (n m : BlockAssembler) : Prop where
  frame : m = { n with
    mapModifiedTx := m.mapModifiedTx
    failedTx := m.failedTx
    packages := true }
  /-- Entries of the modified set are unchanged or gone. -/
  modified : ∀ d, m.mapModifiedTx d = none ∨ m.mapModifiedTx d = n.mapModifiedTx d

/-- A package was added. -/
structure Adds (limits : AssemblerLimits) (pool : CTxMemPool) (n m : BlockAssembler) (x : Uint256)
    (usingModified : Bool) (ancestors sortedEntries : List Uint256) : Prop where
  /-- The transaction is in the mempool and not in the block. -/
  fresh : x ∈ pool.txids ∧ x ∉ n.inBlock
  package : ancestors.Nodup ∧ ancestors.toFinset = n.package pool x
  /-- The package in the order of the block. -/
  sorted : sortedEntries.Perm ancestors
  fits : ∃ totals, n.packageTotals pool x usingModified = some totals ∧
    n.testPackage limits totals.nSizeWithAncestors totals.nSigOpCostWithAncestors = true
  eq : m = { n with packages := true }.addPackage pool ancestors sortedEntries

theorem next_cases {e : AssemblyEvent} (hnext : n.next limits pool e = some m) :
    m = n ∨ (∃ s, m = n.addSubmission limits s) ∨ Skips n m ∨
      ∃ x usingModified transactionsOk rulesOk ancestors sortedEntries,
        e = .evaluate x usingModified transactionsOk rulesOk ancestors sortedEntries ∧
          Adds limits pool n m x usingModified ancestors sortedEntries := by
  revert hnext
  fun_cases BlockAssembler.next limits pool n e <;> intro hnext <;> try cases hnext
  case case2 s valid _ =>
    cases valid with
    | false => exact .inl rfl
    | true => exact .inr (.inl ⟨s, rfl⟩)
  case case3 x usingModified transactionsOk rulesOk ancestors sortedEntries hguard _ =>
    obtain ⟨hmem, hfresh, hnodup, hpackage, hperm⟩ := hguard
    obtain ⟨totals, htotals, hm⟩ := Option.map_eq_some_iff.mp hnext
    right; right
    have hdrop : Skips n ({ n with packages := true }.dropModified x) := by
      refine ⟨rfl, fun d => ?_⟩
      simp only [BlockAssembler.dropModified, Function.update_apply]
      split
      · exact .inl rfl
      · exact .inr rfl
    have hskip : ∀ failed, Skips n { n with packages := true, failedTx := failed } :=
      fun _ => ⟨rfl, fun _ => .inr rfl⟩
    split_ifs at hm with hfits <;> try first | exact .inl (hm ▸ hdrop) | exact .inl (hm ▸ hskip _)
    have htest : { n with packages := true }.testPackage limits totals.nSizeWithAncestors
        totals.nSigOpCostWithAncestors = true := by simpa using hfits
    exact .inr ⟨x, _, _, _, _, _, rfl, ⟨hmem, hfresh⟩, ⟨hnodup, hpackage⟩, hperm,
      ⟨totals, htotals, htest⟩, hm.symm⟩

end Sequentia.Mining
