import Mathlib.Data.Prod.Lex
import Mathlib.Order.OrderDual
import Mathlib.Data.Bool.Basic
import Sequentia.Crypto
import Sequentia.Lib.OrderedSet

/-!
# The order of candidate tips

Candidates are ordered by work, and on a chain with proof of stake then by certification, by the
leader's score and by hash. Arrival and the place in memory decide what is left. Whether a block
is certified is judged from its headers, or by the quorum of the stake state that its parent
leaves, which a node may not know yet: then the block counts as certified until it is connected.
-/

namespace Sequentia

open OrderedSet

/-- `CBlockIndex`, as far as the order of candidates reads it. -/
structure BlockEntry where
  nChainWork : ℕ
  /-- `m_pos_countersigs`: the members that the certificate at hand names. -/
  posCountersigs : ℕ
  posVrfScore : ℕ
  posCertified : Bool
  /-- `m_pos_cert_known`: the answer is not provisional. -/
  posCertKnown : Bool
  /-- `BLOCK_POS_CERT_DECIDED` and `BLOCK_POS_CERTIFIED`. -/
  posCertDecided : Option Bool
  nSequenceId : ℤ
  /-- Where the entry is in memory. -/
  address : ℕ

/-- `CBlockIndexWorkComparator`. -/
def workComparator (conPos : Bool) (hashA : Uint256) (a : BlockEntry) (hashB : Uint256)
    (b : BlockEntry) : Bool :=
  if b.nChainWork < a.nChainWork then false
  else if a.nChainWork < b.nChainWork then true
  else if conPos && (!a.posCertified && b.posCertified) then true
  else if conPos && (a.posCertified && !b.posCertified) then false
  else if conPos && decide (b.posVrfScore < a.posVrfScore) then true
  else if conPos && decide (a.posVrfScore < b.posVrfScore) then false
  else if conPos && decide (hashB.val.toNat < hashA.val.toNat) then true
  else if conPos && decide (hashA.val.toNat < hashB.val.toNat) then false
  else if a.nSequenceId < b.nSequenceId then false
  else if b.nSequenceId < a.nSequenceId then true
  else if a.address < b.address then false
  else if b.address < a.address then true
  else false

/-- What the comparator compares, in order. -/
abbrev WorkKey := ℕ ×ₗ Bool ×ₗ ℕᵒᵈ ×ₗ ℕᵒᵈ ×ₗ ℤᵒᵈ ×ₗ ℕᵒᵈ

def workKey (conPos : Bool) (hash : Uint256) (e : BlockEntry) : WorkKey :=
  toLex (e.nChainWork, toLex (conPos && e.posCertified,
    toLex (OrderDual.toDual (if conPos then e.posVrfScore else 0),
      toLex (OrderDual.toDual (if conPos then hash.val.toNat else 0),
        toLex (OrderDual.toDual e.nSequenceId, OrderDual.toDual e.address)))))

variable {conPos : Bool}

/-- A comparison that is handed on when it is equal. -/
theorem compare_then {α : Type*} [LinearOrder α] {x y : α} {rest : Bool} :
    (if y < x then false else if x < y then true else rest) = true ↔
      x < y ∨ x = y ∧ rest = true := by
  rcases lt_trichotomy x y with hlt | heq | hgt
  · simp [hlt, hlt.not_gt]
  · simp [heq]
  · simp [hgt, hgt.not_gt, hgt.ne']

/-- The comparison of scores and hashes, where the lower one wins. -/
theorem compare_low_then {x y : ℕ} {rest : Bool} :
    (if conPos && decide (y < x) then true else if conPos && decide (x < y) then false
      else rest) = true ↔
      (if conPos then y else 0) < (if conPos then x else 0) ∨
        (if conPos then x else 0) = (if conPos then y else 0) ∧ rest = true := by
  cases conPos with
  | false => simp
  | true =>
    rcases Nat.lt_trichotomy x y with hlt | heq | hgt
    · simp [hlt, hlt.not_gt, hlt.ne]
    · simp [heq]
    · simp [hgt]

theorem compare_certified_then {x y rest : Bool} :
    (if conPos && (!x && y) then true else if conPos && (x && !y) then false else rest) = true ↔
      (conPos && x) < (conPos && y) ∨ (conPos && x) = (conPos && y) ∧ rest = true := by
  cases conPos <;> cases x <;> cases y <;> cases rest <;> decide

theorem workComparator_iff {hashA hashB : Uint256} {a b : BlockEntry} :
    workComparator conPos hashA a hashB b = true ↔
      workKey conPos hashA a < workKey conPos hashB b := by
  have hsequence : (if a.nSequenceId < b.nSequenceId then false
      else if b.nSequenceId < a.nSequenceId then true
      else if a.address < b.address then false
      else if b.address < a.address then true else false) = true ↔
      b.nSequenceId < a.nSequenceId ∨ b.nSequenceId = a.nSequenceId ∧ b.address < a.address := by
    rw [compare_then, compare_then]
    simp
  rw [workComparator, compare_then, compare_certified_then, compare_low_then, compare_low_then,
    hsequence]
  simp only [workKey, Prod.Lex.toLex_lt_toLex, OrderDual.toDual_lt_toDual, OrderDual.toDual_inj,
    @eq_comm _ b.nSequenceId]

/-- The order of candidates, given the entries of the blocks. -/
def less (conPos : Bool) (index : Uint256 → BlockEntry) (h h' : Uint256) : Bool :=
  workComparator conPos h (index h) h' (index h')

variable {index : Uint256 → BlockEntry} {h h' : Uint256}

theorem less_iff : less conPos index h h' = true ↔
      workKey conPos h (index h) < workKey conPos h' (index h') := workComparator_iff

/-- The comparator is a strict total order on the entries of any blocks. -/
theorem totalOn_less (hdistinct : Function.Injective fun h => (index h).address) :
    TotalOn (less conPos index) fun _ => True where
  irrefl h _ := by
    rw [← Bool.not_eq_true, less_iff]
    exact lt_irrefl _
  trans h h' h'' _ _ _ hlt hlt' := by
    rw [less_iff] at hlt hlt' ⊢
    exact lt_trans hlt hlt'
  total h h' _ _ hne := by
    rw [less_iff, less_iff]
    refine lt_or_gt_of_ne fun heq => hne (hdistinct ?_)
    -- Equal keys have equal last components.
    exact congrArg (fun key : WorkKey =>
      OrderDual.ofDual (ofLex (ofLex (ofLex (ofLex (ofLex key).2).2).2).2).2) heq

/-- With proof of stake, different blocks are told apart before arrival is looked at. -/
theorem less_congr {index' : Uint256 → BlockEntry} (hne : h ≠ h')
    (hh : (index h).nChainWork = (index' h).nChainWork ∧
      (index h).posCertified = (index' h).posCertified ∧
      (index h).posVrfScore = (index' h).posVrfScore)
    (hh' : (index h').nChainWork = (index' h').nChainWork ∧
      (index h').posCertified = (index' h').posCertified ∧
      (index h').posVrfScore = (index' h').posVrfScore) :
    less true index h h' = less true index' h h' := by
  have hhash : h.val.toNat ≠ h'.val.toNat := by
    intro heq
    apply hne
    cases h
    cases h'
    exact congrArg Uint256.mk (BitVec.eq_of_toNat_eq heq)
  rw [Bool.eq_iff_iff, less_iff, less_iff]
  simp only [workKey, Prod.Lex.toLex_lt_toLex, OrderDual.toDual_lt_toDual, OrderDual.toDual_inj,
    if_true, hh.1, hh.2.1, hh.2.2, hh'.1, hh'.2.1, hh'.2.2, hhash, false_and]

theorem less_of_uncertified {e : BlockEntry} (hwork : e.nChainWork = (index h).nChainWork)
    (hvrf : e.posVrfScore = (index h).posVrfScore)
    (hsequence : e.nSequenceId = (index h).nSequenceId) (haddress : e.address = (index h).address)
    (hcertified : e.posCertified = true → (index h).posCertified = true)
    (hlt : less conPos index h h' = true) : workComparator conPos h e h' (index h') = true := by
  rw [less_iff] at hlt
  rw [workComparator_iff]
  refine lt_of_le_of_lt ?_ hlt
  have hle : (conPos && e.posCertified) ≤ (conPos && (index h).posCertified) := by
    cases conPos with
    | false => exact le_rfl
    | true =>
      rw [Bool.true_and, Bool.true_and, Bool.le_iff_imp]
      exact hcertified
  simp only [workKey, Prod.Lex.toLex_le_toLex, hwork, hvrf, hsequence, haddress]
  rcases hle.lt_or_eq with hlt | heq
  · simp [hlt]
  · simp [heq]

end Sequentia
