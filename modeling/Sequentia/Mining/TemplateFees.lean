import Sequentia.Mining.Assembler

/-!
# The fees of a block template

`CreateNewBlock` builds the coinbase after the transactions were chosen: one output for every fee
asset, with the subsidy added to one of them. In the same loop it writes the negated fees into
`vTxFees`, one entry for each output, starting with the entry of the coinbase. With more than one
fee asset the entries of the first transactions are overwritten.

The template is compared with its purpose: an entry for every transaction with its fee, and a
coinbase that pays what was collected.
-/

namespace Sequentia.Mining

open Std KeyedMap List

/-- What the coinbase depends on besides the fees. -/
structure CoinbaseParams where
  conAnyAssetFees : Bool
  conElementsMode : Bool
  policyAsset : CAsset
  subsidyAsset : CAsset
  /-- `GetBlockSubsidy` at the height of the block. -/
  blockSubsidy : ℤ
  scriptPubKeyIn : CScript
  commitScripts : List CScript
  witnessCommitment : Option CScript
  blockSubsidy_nonneg : 0 ≤ blockSubsidy

/-- A block template: the outputs of the coinbase, the other transactions and the fees. -/
structure CBlockTemplate where
  /-- `block.vtx[0]->vout`. -/
  coinbase : List CTxOut
  /-- `block.vtx` without the coinbase. -/
  vtx : List BlockTx
  vTxFees : List ℤ

namespace CoinbaseParams

variable (p : CoinbaseParams)

/-- Without any fee the policy asset gets an entry. -/
def coinbaseFees (feeMap : CAmountMap) : CAmountMap :=
  if feeMap.isEmpty then feeMap.insert p.policyAsset 0 else feeMap

def paidFees (feeMap : CAmountMap) : List (CAsset × ℤ) :=
  (p.coinbaseFees feeMap).toList.filter fun fee =>
    p.conAnyAssetFees || decide (fee.1 = p.policyAsset)

def feeOutputValue (fee : CAsset × ℤ) : ℤ :=
  if p.conElementsMode ∧ p.subsidyAsset ≠ p.policyAsset then fee.2
  else if fee.1 = p.subsidyAsset then fee.2 + p.blockSubsidy
  else fee.2

def feeOutput (fee : CAsset × ℤ) : CTxOut where
  nAsset := .explicit fee.1
  nValue := .explicit (p.feeOutputValue fee)
  scriptPubKey :=
    if p.conElementsMode ∧ p.feeOutputValue fee = 0 then [opReturn] else p.scriptPubKeyIn

def commitOutput (script : CScript) : CTxOut where
  nAsset := .explicit p.policyAsset
  nValue := .explicit 0
  scriptPubKey := script

/-- The commitments are inserted before the last output. There has to be one. -/
def insertCommits (vout : List CTxOut) : Option (List CTxOut) :=
  if p.commitScripts = [] then some vout
  else vout.getLast?.map fun last => vout.dropLast ++ p.commitScripts.map p.commitOutput ++ [last]

end CoinbaseParams

/-- The loop over the fee assets writes an entry of `vTxFees` for each; `none` when it leaves the
list. -/
def overwriteFees : ℕ → List ℤ → List (CAsset × ℤ) → Option (List ℤ)
  | _, vTxFees, [] => some vTxFees
  | index, vTxFees, fee :: fees =>
    if index < vTxFees.length then overwriteFees (index + 1) (vTxFees.set index (-fee.2)) fees
    else none

/-- The end of `CreateNewBlock`, from the coinbase on. -/
def createTemplate (p : CoinbaseParams) (n : BlockAssembler) : Option CBlockTemplate := do
  let vTxFees ← overwriteFees 0 n.vTxFees (p.paidFees n.feeMap)
  let vout ← p.insertCommits ((p.paidFees n.feeMap).map p.feeOutput)
  pure
    { coinbase := vout ++ (p.witnessCommitment.map p.commitOutput).toList
      vtx := n.vtx
      vTxFees := vTxFees }

section Purpose

variable (pool : CTxMemPool)

def BlockTx.feeIn (a : CAsset) : BlockTx → ℤ
  | .submission s => s.feeMap.getD a 0
  | .pool x => if (pool.entry x).feeAsset = a then (pool.entry x).nFee else 0

def collected (vtx : List BlockTx) (a : CAsset) : ℤ := (vtx.map (BlockTx.feeIn pool a)).sum

def BlockTx.PaysFee : BlockTx → ℤ → Prop
  | .submission s, fee => ∃ a, ∀ b, s.feeMap.getD b 0 = if b = a then fee else 0
  | .pool x, fee => (pool.entry x).nFee = fee

/-- The list of fees has an entry for each transaction and, after the first one, the entry is the
transaction's fee. -/
structure FeesListed (t : CBlockTemplate) : Prop where
  /-- One entry for the coinbase and one for every other transaction. -/
  length : t.vTxFees.length = t.vtx.length + 1
  /-- The entries after the first. -/
  entries : ∀ i tx, t.vtx[i]? = some tx →
    ∃ fee, t.vTxFees[i + 1]? = some fee ∧ tx.PaysFee pool fee

def CoinbaseParams.subsidyDue (p : CoinbaseParams) (a : CAsset) : ℤ :=
  if a = p.subsidyAsset ∧ p.subsidyAsset = p.policyAsset then p.blockSubsidy else 0

/-- The coinbase pays what was collected, and the subsidy in the policy asset. -/
def CoinbasePays (p : CoinbaseParams) (t : CBlockTemplate) : Prop :=
  ∀ a, postedTo (t.coinbase.filterMap CTxOut.explicit?) a = collected pool t.vtx a + p.subsidyDue a

/-- The fee that the assembler enters for a transaction. -/
def BlockTx.listedFee : BlockTx → ℤ
  | .submission _ => 0
  | .pool x => (pool.entry x).nFee

/-- The condition: the three parties that write the fees do not get into each other's way. -/
structure FeesApart (p : CoinbaseParams) (n : BlockAssembler) : Prop where
  submissions : ∀ s, .submission s ∈ n.vtx → ∀ a, s.feeMap.getD a 0 = 0
  overwritten : ∀ i fee, (p.paidFees n.feeMap)[i + 1]? = some fee →
    fee.2 = 0 ∧ ∃ tx, n.vtx[i]? = some tx ∧ tx.listedFee pool = 0
  unpaid : ∀ a, a ∉ (p.paidFees n.feeMap).map Prod.fst → collected pool n.vtx a = 0
  subsidyPaid : p.blockSubsidy ≠ 0 → p.subsidyAsset = p.policyAsset →
    p.subsidyAsset ∈ (p.paidFees n.feeMap).map Prod.fst
  subsidyKept : p.blockSubsidy ≠ 0 → p.subsidyAsset ≠ p.policyAsset → p.conElementsMode = false →
    p.subsidyAsset ∉ (p.paidFees n.feeMap).map Prod.fst
  /-- The commitments find an output to go before. -/
  commits : p.commitScripts = [] ∨ p.paidFees n.feeMap ≠ []

end Purpose

variable {limits : AssemblerLimits} {pool : CTxMemPool} {p : CoinbaseParams} {n m : BlockAssembler}

theorem BlockTx.feeIn_nonneg (tx : BlockTx) (a : CAsset) : 0 ≤ tx.feeIn pool a := by
  cases tx with
  | submission s => exact s.feeMap_nonneg a
  | pool x =>
    simp only [BlockTx.feeIn]
    split
    · exact (pool.entry x).nFee_nonneg
    · exact Int.le_refl 0

theorem collected_nonneg (pool : CTxMemPool) (vtx : List BlockTx) (a : CAsset) :
    0 ≤ collected pool vtx a := by
  refine sum_nonneg fun fee hfee => ?_
  obtain ⟨tx, -, rfl⟩ := mem_map.mp hfee
  exact tx.feeIn_nonneg a

/-- The list of fees and the fee map follow the transactions. -/
structure FeesInv (pool : CTxMemPool) (n : BlockAssembler) : Prop where
  /-- The entry of the coinbase, and one for each transaction. -/
  listed : n.vTxFees = -1 :: n.vtx.map (BlockTx.listedFee pool)
  feeMap : ∀ a, n.feeMap.getD a 0 = collected pool n.vtx a

theorem FeesInv.addSubmission (hinv : FeesInv pool n) (s : Submission) :
    FeesInv pool (n.addSubmission limits s) := by
  unfold BlockAssembler.addSubmission
  split
  · exact hinv
  · refine ⟨?_, fun a => ?_⟩
    · simp [hinv.listed, BlockTx.listedFee]
    · rw [getD_foldl_tally, postedTo_toList, hinv.feeMap a]
      simp [collected, BlockTx.feeIn]

theorem FeesInv.addPackage (hinv : FeesInv pool n) (ancestors sortedEntries : List Uint256) :
    FeesInv pool (n.addPackage pool ancestors sortedEntries) := by
  simp only [BlockAssembler.addPackage, foldl_addToBlock]
  refine ⟨?_, fun a => ?_⟩
  · simp [hinv.listed, BlockTx.listedFee, Function.comp_def]
  · rw [getD_foldl_tally, hinv.feeMap a]
    simp [collected, BlockTx.feeIn, postedTo, Function.comp_def]

theorem FeesInv.next (hinv : FeesInv pool n) {e : AssemblyEvent}
    (hnext : n.next limits pool e = some m) : FeesInv pool m := by
  rcases next_cases hnext with rfl | ⟨s, rfl⟩ | hskips | ⟨_, _, _, _, ancestors, sorted, _, hadds⟩
  · exact hinv
  · exact hinv.addSubmission s
  · rw [hskips.frame]
    exact { hinv with }
  · have hlooked : FeesInv pool { n with packages := true } := { hinv with }
    rw [hadds.eq]
    exact hlooked.addPackage ancestors sorted

theorem feesInv_of_reachable
    (hreach : (assembler limits pool).Reachable (fun _ _ => True) n) : FeesInv pool n := by
  refine Machine.Reachable.invariant ?_ (fun _ _ _ h _ hnext => h.next hnext) hreach
  rintro _ rfl
  exact ⟨rfl, fun _ => rfl⟩

theorem overwriteFees_append (done rest : List ℤ) (fees : List (CAsset × ℤ)) :
    overwriteFees done.length (done ++ rest) fees =
      if fees.length ≤ rest.length then
        some (done ++ fees.map (fun fee => -fee.2) ++ rest.drop fees.length)
      else none := by
  induction fees generalizing done rest with
  | nil => simp [overwriteFees]
  | cons fee fees ih =>
    cases rest with
    | nil => simp [overwriteFees]
    | cons entry rest =>
      have hset : (done ++ entry :: rest).set done.length (-fee.2) =
          (done ++ [-fee.2]) ++ rest := by simp
      have hlength : done.length + 1 = (done ++ [-fee.2]).length := by simp
      rw [overwriteFees, if_pos (by simp), hset, hlength, ih]
      simp

/-- The entries after the loop. -/
theorem getElem?_overwritten {fees : List (CAsset × ℤ)} {vTxFees : List ℤ} (i : ℕ) :
    (fees.map (fun fee => -fee.2) ++ vTxFees.drop fees.length)[i]? =
      if i < fees.length then fees[i]?.map fun fee => -fee.2 else vTxFees[i]? := by
  rw [List.getElem?_append, length_map]
  split
  · rw [List.getElem?_map]
  · next hle =>
    rw [List.getElem?_drop]
    congr 1
    omega

/-- A transaction pays no fee if none is entered for it and, in the case of a submission, none is
posted. -/
theorem BlockTx.paysFee_zero_iff (tx : BlockTx) : tx.PaysFee pool 0 ↔
    tx.listedFee pool = 0 ∧ ∀ s, tx = .submission s → ∀ a, s.feeMap.getD a 0 = 0 := by
  cases tx with
  | submission s =>
    simp only [BlockTx.PaysFee, BlockTx.listedFee, ite_self, BlockTx.submission.injEq, true_and]
    constructor
    · rintro ⟨_, hzero⟩ _ rfl
      exact hzero
    · intro hzero
      exact ⟨0, hzero s rfl⟩
  | pool x => simp [BlockTx.PaysFee, BlockTx.listedFee]

theorem BlockTx.paysFee_neg_iff (tx : BlockTx) {amount : ℤ} (hamount : 0 ≤ amount) :
    tx.PaysFee pool (-amount) ↔ amount = 0 ∧ tx.PaysFee pool 0 := by
  constructor
  · intro hpays
    have hzero : amount = 0 := by
      cases tx with
      | submission s =>
        obtain ⟨a, hfee⟩ := hpays
        have hown := hfee a
        rw [if_pos rfl] at hown
        have := s.feeMap_nonneg a
        omega
      | pool x =>
        have hown : (pool.entry x).nFee = -amount := hpays
        have := (pool.entry x).nFee_nonneg
        omega
    subst hzero
    exact ⟨rfl, hpays⟩
  · rintro ⟨rfl, hpays⟩
    exact hpays

theorem getD_coinbaseFees (feeMap : CAmountMap) (a : CAsset) :
    (p.coinbaseFees feeMap).getD a 0 = feeMap.getD a 0 := by
  unfold CoinbaseParams.coinbaseFees
  split
  · next hempty =>
    rw [ExtTreeMap.isEmpty_iff] at hempty
    subst hempty
    rw [ExtTreeMap.getD_eq_getD_getElem?, getElem?_insert_eq]
    split
    · rfl
    · rfl
  · rfl

theorem FeesInv.paid (hinv : FeesInv pool n) {fee : CAsset × ℤ}
    (hfee : fee ∈ p.paidFees n.feeMap) : fee.2 = collected pool n.vtx fee.1 := by
  have hentry := ExtTreeMap.mem_toList_iff_getElem?_eq_some.mp (mem_filter.mp hfee).1
  rw [← hinv.feeMap, ← getD_coinbaseFees (p := p), ExtTreeMap.getD_eq_getD_getElem?, hentry]
  rfl

theorem FeesInv.postedTo_outputs (hinv : FeesInv pool n) (a : CAsset) :
    postedTo (((p.paidFees n.feeMap).map p.feeOutput).filterMap CTxOut.explicit?) a =
      if a ∈ (p.paidFees n.feeMap).map Prod.fst then p.feeOutputValue (a, collected pool n.vtx a)
      else 0 := by
  have hpairs : ((p.paidFees n.feeMap).map p.feeOutput).filterMap CTxOut.explicit? =
      (p.paidFees n.feeMap).map fun fee => (fee.1, p.feeOutputValue fee) := by
    rw [filterMap_map, ← filterMap_eq_map]
    rfl
  have hkeys : ((p.paidFees n.feeMap).map fun fee => (fee.1, p.feeOutputValue fee)).map Prod.fst =
      (p.paidFees n.feeMap).map Prod.fst := by
    rw [map_map]
    rfl
  rw [hpairs]
  split
  · next hmem =>
    obtain ⟨fee, hfee, rfl⟩ := mem_map.mp hmem
    have hnodup : ((p.paidFees n.feeMap).map Prod.fst).Nodup :=
      (nodup_keys_toList _).sublist (filter_sublist.map Prod.fst)
    have hpaid := postedTo_of_mem (hkeys ▸ hnodup)
      (mem_map_of_mem (f := fun fee : CAsset × ℤ => (fee.1, p.feeOutputValue fee)) hfee)
    rw [hpaid, ← hinv.paid hfee]
  · next habsent =>
    exact postedTo_eq_zero (by rw [hkeys]; exact habsent)

theorem postedTo_commits (scripts : List CScript) (a : CAsset) :
    postedTo ((scripts.map p.commitOutput).filterMap CTxOut.explicit?) a = 0 := by
  induction scripts with
  | nil => rfl
  | cons script scripts ih =>
    rw [map_cons, filterMap_cons]
    simp only [CoinbaseParams.commitOutput, CTxOut.explicit?] at ih ⊢
    rw [postedTo_cons, ih, ite_self, Int.zero_add]

theorem postedTo_insertCommits {vout vout' : List CTxOut} (h : p.insertCommits vout = some vout')
    (a : CAsset) : postedTo (vout'.filterMap CTxOut.explicit?) a =
      postedTo (vout.filterMap CTxOut.explicit?) a := by
  unfold CoinbaseParams.insertCommits at h
  split at h
  · cases h
    rfl
  · obtain ⟨last, hlast, rfl⟩ := Option.map_eq_some_iff.mp h
    conv_rhs => rw [← dropLast_append_getLast? last hlast]
    simp only [filterMap_append, postedTo_append, postedTo_commits, Int.add_zero]

theorem FeesInv.createTemplate_eq_some (hinv : FeesInv pool n) {t : CBlockTemplate} :
    createTemplate p n = some t ↔
      (p.paidFees n.feeMap).length ≤ n.vtx.length + 1 ∧
      ∃ vout, p.insertCommits ((p.paidFees n.feeMap).map p.feeOutput) = some vout ∧
        t = { coinbase := vout ++ (p.witnessCommitment.map p.commitOutput).toList
              vtx := n.vtx
              vTxFees := (p.paidFees n.feeMap).map (fun fee => -fee.2) ++
                n.vTxFees.drop (p.paidFees n.feeMap).length } := by
  have hlength : n.vTxFees.length = n.vtx.length + 1 := by simp [hinv.listed]
  have hloop := overwriteFees_append [] n.vTxFees (p.paidFees n.feeMap)
  rw [nil_append, nil_append, length_nil, hlength] at hloop
  simp only [createTemplate, hloop, Option.bind_eq_bind, Option.pure_def]
  split
  · next hfits =>
    simp only [Option.bind_some, Option.bind_eq_some_iff, Option.some.injEq, hfits, true_and]
    exact exists_congr fun vout => and_congr_right fun _ => eq_comm
  · next hshort =>
    simp only [Option.bind_none, hshort, false_and, reduceCtorEq]

/-- The entry of a transaction is its fee if the coinbase loop writes a zero over a transaction
without a fee, or nothing, and a submission pays no fee. -/
theorem FeesInv.entry_iff (hinv : FeesInv pool n) {i : ℕ} {tx : BlockTx}
    (htx : n.vtx[i]? = some tx) :
    (∃ fee, ((p.paidFees n.feeMap).map (fun fee => -fee.2) ++
        n.vTxFees.drop (p.paidFees n.feeMap).length)[i + 1]? = some fee ∧ tx.PaysFee pool fee) ↔
      (∀ fee, (p.paidFees n.feeMap)[i + 1]? = some fee → fee.2 = 0 ∧ tx.listedFee pool = 0) ∧
      ∀ s, tx = .submission s → ∀ a, s.feeMap.getD a 0 = 0 := by
  rw [getElem?_overwritten]
  cases hpaid : (p.paidFees n.feeMap)[i + 1]? with
  | some fee =>
    have hnonneg : 0 ≤ fee.2 := by
      rw [hinv.paid (mem_of_getElem? hpaid)]
      exact collected_nonneg _ _ _
    rw [if_pos (List.getElem?_eq_some_iff.mp hpaid).1]
    simp only [Option.map_some, Option.some.injEq, exists_eq_left', forall_eq',
      tx.paysFee_neg_iff hnonneg, tx.paysFee_zero_iff, and_assoc]
  | none =>
    have hlisted : n.vTxFees[i + 1]? = some (tx.listedFee pool) := by
      rw [hinv.listed, List.getElem?_cons_succ, List.getElem?_map, htx, Option.map_some]
    rw [if_neg (Nat.not_lt.mpr (List.getElem?_eq_none_iff.mp hpaid)), hlisted]
    simp only [Option.some.injEq, exists_eq_left', reduceCtorEq, false_implies, forall_const,
      true_and]
    cases tx with
    | submission s => exact (BlockTx.paysFee_zero_iff (.submission s)).trans (and_iff_right rfl)
    | pool x => simp [BlockTx.PaysFee, BlockTx.listedFee]

/-- Each asset is paid what was collected if the assets without an output collected nothing and
the subsidy goes where it is due. -/
theorem FeesInv.pays_iff (hinv : FeesInv pool n) :
    (∀ a, postedTo (((p.paidFees n.feeMap).map p.feeOutput).filterMap CTxOut.explicit?) a =
        collected pool n.vtx a + p.subsidyDue a) ↔
      (∀ a, a ∉ (p.paidFees n.feeMap).map Prod.fst → collected pool n.vtx a = 0) ∧
      (p.blockSubsidy ≠ 0 → p.subsidyAsset = p.policyAsset →
        p.subsidyAsset ∈ (p.paidFees n.feeMap).map Prod.fst) ∧
      (p.blockSubsidy ≠ 0 → p.subsidyAsset ≠ p.policyAsset → p.conElementsMode = false →
        p.subsidyAsset ∉ (p.paidFees n.feeMap).map Prod.fst) := by
  have hsubsidy := p.blockSubsidy_nonneg
  simp only [hinv.postedTo_outputs, CoinbaseParams.subsidyDue, CoinbaseParams.feeOutputValue]
  constructor
  · intro hpays
    refine ⟨fun a habsent => ?_, fun hpos hpolicy => ?_, fun hpos hother hmode hmem => ?_⟩
    · have hdue := hpays a
      have hcollected := collected_nonneg pool n.vtx a
      rw [if_neg habsent] at hdue
      split at hdue <;> omega
    · by_contra habsent
      have hdue := hpays p.subsidyAsset
      have hcollected := collected_nonneg pool n.vtx p.subsidyAsset
      rw [if_neg habsent, if_pos ⟨rfl, hpolicy⟩] at hdue
      omega
    · have hdue := hpays p.subsidyAsset
      rw [if_pos hmem, if_neg (by simp [hmode]), if_pos rfl, if_neg fun h => hother h.2] at hdue
      omega
  · rintro ⟨hunpaid, hpaid, hkept⟩ a
    by_cases hmem : a ∈ (p.paidFees n.feeMap).map Prod.fst
    · rw [if_pos hmem]
      by_cases hpolicy : p.subsidyAsset = p.policyAsset
      · rw [if_neg fun h => h.2 hpolicy]
        by_cases ha : a = p.subsidyAsset
        · rw [if_pos ha, if_pos ⟨ha, hpolicy⟩]
        · rw [if_neg ha, if_neg fun h => ha h.1, Int.add_zero]
      · have hdue : ¬(a = p.subsidyAsset ∧ p.subsidyAsset = p.policyAsset) := fun h => hpolicy h.2
        rw [if_neg hdue, Int.add_zero]
        split
        · rfl
        · next hmode =>
          split
          · next ha =>
            have hzero : p.blockSubsidy = 0 := by
              by_contra hpos
              refine hkept hpos hpolicy ?_ (ha ▸ hmem)
              cases hcase : p.conElementsMode
              · rfl
              · exact absurd ⟨hcase, hpolicy⟩ hmode
            rw [hzero, Int.add_zero]
          · rfl
    · rw [if_neg hmem, hunpaid a hmem]
      split
      · next hdue =>
        have hzero : p.blockSubsidy = 0 := by
          by_contra hpos
          exact hmem (hdue.1 ▸ hpaid hpos hdue.2)
        rw [hzero, Int.add_zero]
      · rfl

/-- A template has the fee of every transaction in its place and pays in its coinbase what was
collected, in whatever number of assets, exactly when the condition holds. -/
theorem template_fees_iff (limits : AssemblerLimits) (pool : CTxMemPool) (p : CoinbaseParams)
    (n : BlockAssembler) (hreach : (assembler limits pool).Reachable (fun _ _ => True) n) :
    (∃ t, createTemplate p n = some t ∧ FeesListed pool t ∧ CoinbasePays pool p t) ↔
      FeesApart pool p n := by
  have hinv := feesInv_of_reachable hreach
  have hpaysIff : ∀ {vout}, p.insertCommits ((p.paidFees n.feeMap).map p.feeOutput) = some vout →
      ∀ a, postedTo ((vout ++ (p.witnessCommitment.map p.commitOutput).toList).filterMap
        CTxOut.explicit?) a =
        postedTo (((p.paidFees n.feeMap).map p.feeOutput).filterMap CTxOut.explicit?) a := by
    intro vout hvout a
    have hcommit : (p.witnessCommitment.map p.commitOutput).toList =
        p.witnessCommitment.toList.map p.commitOutput := by
      cases p.witnessCommitment <;> rfl
    rw [filterMap_append, postedTo_append, hcommit, postedTo_commits, Int.add_zero,
      postedTo_insertCommits hvout]
  constructor
  · rintro ⟨t, ht, hlisted, hpays⟩
    obtain ⟨hfits, vout, hvout, rfl⟩ := hinv.createTemplate_eq_some.mp ht
    obtain ⟨hunpaid, hpaid, hkept⟩ := hinv.pays_iff.mp fun a => (hpaysIff hvout a).symm.trans
      (hpays a)
    refine ⟨fun s hs => ?_, fun i fee hfee => ?_, hunpaid, hpaid, hkept, ?_⟩
    · obtain ⟨i, hi⟩ := mem_iff_getElem?.mp hs
      exact ((hinv.entry_iff hi).mp (hlisted.entries i _ hi)).2 s rfl
    · have hi : i < n.vtx.length := by
        have := (List.getElem?_eq_some_iff.mp hfee).1
        omega
      have htx : n.vtx[i]? = some n.vtx[i] := List.getElem?_eq_getElem hi
      obtain ⟨hzero, hnone⟩ := ((hinv.entry_iff htx).mp (hlisted.entries i _ htx)).1 fee hfee
      exact ⟨hzero, _, htx, hnone⟩
    · by_contra hneither
      rw [not_or, not_not] at hneither
      simp [CoinbaseParams.insertCommits, hneither.1, hneither.2] at hvout
  · intro hapart
    have hfits : (p.paidFees n.feeMap).length ≤ n.vtx.length + 1 := by
      by_contra hlong
      obtain ⟨-, tx, htx, -⟩ := hapart.overwritten n.vtx.length _
        (List.getElem?_eq_getElem (Nat.not_le.mp hlong))
      exact absurd (List.getElem?_eq_some_iff.mp htx).1 (Nat.lt_irrefl _)
    obtain ⟨vout, hvout⟩ : ∃ vout,
        p.insertCommits ((p.paidFees n.feeMap).map p.feeOutput) = some vout := by
      unfold CoinbaseParams.insertCommits
      split
      · exact ⟨_, rfl⟩
      · next hcommits =>
        have hpaid := hapart.commits.resolve_left hcommits
        have hne : (p.paidFees n.feeMap).map p.feeOutput ≠ [] := by simpa using hpaid
        rw [List.getLast?_eq_some_getLast hne]
        exact ⟨_, rfl⟩
    refine ⟨_, hinv.createTemplate_eq_some.mpr ⟨hfits, vout, hvout, rfl⟩, ⟨?_, fun i tx htx => ?_⟩,
      fun a => ?_⟩
    · have hlength : n.vTxFees.length = n.vtx.length + 1 := by simp [hinv.listed]
      simp only [length_append, length_map, length_drop, hlength]
      omega
    · refine (hinv.entry_iff htx).mpr ⟨fun fee hfee => ?_, fun s hs => ?_⟩
      · obtain ⟨hzero, tx', htx', hnone⟩ := hapart.overwritten i fee hfee
        obtain rfl := Option.some.inj (htx.symm.trans htx')
        exact ⟨hzero, hnone⟩
      · subst hs
        exact hapart.submissions s (mem_of_getElem? htx)
    · rw [hpaysIff hvout a]
      exact hinv.pays_iff.mpr ⟨hapart.unpaid, hapart.subsidyPaid, hapart.subsidyKept⟩ a

def payingEntry (feeAsset : CAsset) : CTxMemPoolEntry where
  nFee := 10
  feeAsset := feeAsset
  nFeeValue := 10
  modifiedFee := 10
  txSize := 100
  discountTxSize := 100
  txWeight := 400
  sigOpCost := 4
  nFee_nonneg := Int.natCast_nonneg 10
  txWeight_le := Nat.le_refl 400

/-- Two transactions; the first pays in asset 7. -/
def twoPayers (second : CAsset) : CTxMemPool where
  txids := {1, 2}
  entry x := payingEntry (if x = 2 then second else 7)
  ancestors _ := ∅
  ancestors_subset _ := Finset.empty_subset _
  ancestors_trans _ _ hy := nomatch Finset.notMem_empty _ hy
  not_mem_ancestors x := Finset.notMem_empty x

/-- Asset 7 is the policy asset; every asset pays fees. -/
def anyAssetCoinbase : CoinbaseParams where
  conAnyAssetFees := true
  conElementsMode := true
  policyAsset := 7
  subsidyAsset := 7
  blockSubsidy := 0
  scriptPubKeyIn := [0x51]
  commitScripts := []
  witnessCommitment := none
  blockSubsidy_nonneg := by decide

/-- Both transactions are added. -/
def addsPayers : List AssemblyEvent :=
  [.evaluate 1 false true true [1] [1], .evaluate 2 false true true [2] [2]]

/-- With one fee asset the template is as it should be. -/
theorem template_fees_one_asset :
    ∃ n t, (assembler ⟨1000000, 0⟩ (twoPayers 7)).Reachable (fun _ _ => True) n ∧
      createTemplate anyAssetCoinbase n = some t ∧ t.vTxFees = [-20, 10, 10] ∧
      FeesListed (twoPayers 7) t ∧ CoinbasePays (twoPayers 7) anyAssetCoinbase t := by
  have hreach := Machine.reachable_run rfl
    (show (assembler ⟨1000000, 0⟩ (twoPayers 7)).run _ addsPayers = some _ from rfl)
  obtain ⟨t, ht, hlisted, hpays⟩ :=
    (template_fees_iff ⟨1000000, 0⟩ (twoPayers 7) anyAssetCoinbase _ hreach).mpr
      { submissions := fun s hs => by
          rcases hs with _ | ⟨_, _ | ⟨_, hs⟩⟩
          cases hs
        overwritten := fun i fee hfee => by
          rw [show anyAssetCoinbase.paidFees _ = [(7, 20)] by decide +kernel] at hfee
          cases hfee
        unpaid := fun a ha => by
          have hne : (7 : CAsset) ≠ a := by
            rintro rfl
            exact ha (by decide +kernel)
          change (if (7 : CAsset) = a then (10 : ℤ) else 0) +
            ((if (7 : CAsset) = a then 10 else 0) + 0) = 0
          rw [if_neg hne]
          rfl
        subsidyPaid := fun hpos _ => absurd rfl hpos
        subsidyKept := fun hpos => absurd rfl hpos
        commits := .inl rfl }
  refine ⟨_, t, hreach, ht, ?_, hlisted, hpays⟩
  obtain rfl := Option.some.inj ht
  decide +kernel

/-- The second transaction pays in asset 8. The coinbase pays both fees, but the loop over the two
fee assets has written over the entry of the first transaction, which reads -10. -/
theorem template_fees_two_assets :
    ∃ n t, (assembler ⟨1000000, 0⟩ (twoPayers 8)).Reachable (fun _ _ => True) n ∧
      createTemplate anyAssetCoinbase n = some t ∧ t.vTxFees = [-10, -10, 10] ∧
      ¬ FeesListed (twoPayers 8) t := by
  have hreach := Machine.reachable_run rfl
    (show (assembler ⟨1000000, 0⟩ (twoPayers 8)).run _ addsPayers = some _ from rfl)
  refine ⟨_, _, hreach, rfl, ?_, fun hlisted => ?_⟩
  · decide +kernel
  · obtain ⟨fee, hentry, hpays⟩ := hlisted.entries 0 (.pool 1) rfl
    have hten : (10 : ℤ) = fee := hpays
    subst hten
    exact absurd hentry (by decide +kernel)

end Sequentia.Mining
