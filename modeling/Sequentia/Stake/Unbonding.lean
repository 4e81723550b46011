import Sequentia.CoinsSums
import Sequentia.Lib.Tally
import Sequentia.Stake.RecordScripts

/-!
# Leaving stake

Stake leaves in two steps. A transaction that spends staking outputs keeps their value in staking
or unbonding outputs of the same key, up to a fee of at most one percent, and an unbonding output
is spent only once the parent chain has grown by a depth. Over a chain of blocks, what is bonded to
a key falls by no more than the unbonding outputs that have waited and the fee allowances.
-/

namespace Sequentia

open Std KeyedMap List

/-- `POS_UNBOND_MAX_FEE_PERMILLE`. -/
def posUnbondMaxFeePermille : ℤ := 10

section Rule

variable (params : Params)

/-- What an output keeps bonded: stake, or an unbonding amount of the policy asset. -/
def keptFromTxOut (out : CTxOut) : Option (CPubKey × ℤ) :=
  match stakeFromTxOut params out with
  | some stake => some (stake.1, stake.2)
  | none =>
    match parseUnbondScript out.scriptPubKey, out.explicit? with
    | some pubkey, some (asset, amount) =>
      if asset = params.policyAsset then some (pubkey, amount) else none
    | _, _ => none

/-- The stake that an input takes out. -/
def stakedFromCoin (coin : Coin) : Option (CPubKey × ℤ) :=
  if (parseUnbondScript coin.out.scriptPubKey).isSome then none
  else (stakeFromTxOut params coin.out).map fun stake => (stake.1, (stake.2 : ℤ))

/-- Amounts by key. -/
def tallied (postings : List (CPubKey × ℤ)) : ExtTreeMap CPubKey ℤ :=
  postings.foldl (fun m p => tally m p.1 p.2) ∅

/-- `staked_in`, for the coins that a transaction spends. -/
def stakedIn (spent : List (COutPoint × Coin)) : ExtTreeMap CPubKey ℤ :=
  tallied (spent.filterMap fun e => stakedFromCoin params e.2)

/-- The most that may go to fees: what is paid in the policy asset, and a share of the stake. -/
def unbondAllowance (tx : CTransaction) (spent : List (COutPoint × Coin)) : ℤ :=
  min (postedTo (tx.vout.filterMap CTxOut.fee?) params.policyAsset)
    (((stakedIn params spent).toList.map Prod.snd).sum / 1000 * posUnbondMaxFeePermille)

/-- `CheckPosUnbondingTx`. -/
def checkPosUnbondingTx (spendAnchor : ℤ) (anchorAt : ℕ → ℤ) (anchorDepth : ℤ)
    (tx : CTransaction) (spent : List (COutPoint × Coin)) : Except String Unit :=
  if tx.isCoinBase then .ok ()
  else if spent.any fun e => (parseUnbondScript e.2.out.scriptPubKey).isSome &&
      decide (anchorAt e.2.nHeight < 0 ∨ spendAnchor < anchorAt e.2.nHeight + anchorDepth) then
    .error "bad-unbond-premature"
  else if (stakedIn params spent).isEmpty then .ok ()
  else
    let kept := tallied ((tx.vout.filter fun out => !out.isFee).filterMap (keptFromTxOut params))
    let shortfall := ((stakedIn params spent).toList.map fun e => max (e.2 - kept.getD e.1 0) 0).sum
    if unbondAllowance params tx spent < shortfall then .error "bad-unbond-required" else .ok ()

/-- The rule in `ConnectBlock`, on a chain with these anchors. -/
def checkUnbonding (anchors : ℕ → ℤ) (anchorDepth : ℤ) (nHeight : ℕ) (block : CBlock)
    (undo : CBlockUndo) : Except String Unit :=
  forM (block.vtx.tail.zip undo) fun p => checkPosUnbondingTx params (anchors nHeight)
    (fun h => if h ≤ nHeight then anchors h else -1) anchorDepth p.1 (spentEntries p.1 p.2)

end Rule

section Bond

variable (params : Params) (anchors : ℕ → ℤ) (anchorDepth : ℤ) (k : CPubKey)

/-- What an output holds of the bond of a key. -/
def bondedTo (out : CTxOut) : ℤ :=
  match keptFromTxOut params out with
  | some (pubkey, amount) => if pubkey = k then max amount 0 else 0
  | none => 0

/-- What an unbonding output that has waited at a height releases. -/
def unbondedTo (nHeight : ℕ) (coin : Coin) : ℤ :=
  if (parseUnbondScript coin.out.scriptPubKey).isSome ∧
    anchors coin.nHeight + anchorDepth ≤ anchors nHeight then bondedTo params k coin.out else 0

/-- What a transaction may take out of a bond: unbonding outputs that have waited, and the
allowance if it spends stake of the key. -/
def released (nHeight : ℕ) (tx : CTransaction) (spent : List (COutPoint × Coin)) : ℤ :=
  (spent.map fun e => unbondedTo params anchors anchorDepth k nHeight e.2).sum +
    if k ∈ stakedIn params spent then unbondAllowance params tx spent else 0

/-- A chain of blocks under the rule, with the bond of a key at its start less what was released. -/
inductive UnbondingChain : CCoinsView → ℕ → ℤ → Prop
  | start {view : CCoinsView} {nHeight : ℕ} :
      UnbondingChain view nHeight (sumOf (bondedTo params k) view.toList)
  | block {view view' : CCoinsView} {nHeight : ℕ} {block : CBlock} {undo : CBlockUndo} {left : ℤ}
      (hchain : UnbondingChain view nHeight left)
      (hconnect : connectCoins view (nHeight + 1) block = .ok (view', undo))
      (hrule : checkUnbonding params anchors anchorDepth (nHeight + 1) block undo = .ok ()) :
      UnbondingChain view' (nHeight + 1) (left - ((block.vtx.tail.zip undo).map fun p =>
        released params anchors anchorDepth k (nHeight + 1) p.1 (spentEntries p.1 p.2)).sum)

end Bond

variable {params : Params} {anchors : ℕ → ℤ} {anchorDepth : ℤ} {k : CPubKey} {tx : CTransaction}
  {spent : List (COutPoint × Coin)} {nHeight : ℕ}

theorem getD_tallied (postings : List (CPubKey × ℤ)) :
    (tallied postings).getD k 0 = postedTo postings k := by
  rw [tallied, getD_foldl_tally, ExtTreeMap.getD_empty, Int.zero_add]

theorem bondedTo_nonneg (params : Params) (k : CPubKey) (out : CTxOut) :
    0 ≤ bondedTo params k out := by
  unfold bondedTo
  split
  · split <;> omega
  · omega

theorem sumOf_bondedTo_nonneg (params : Params) (k : CPubKey) (coins : List (COutPoint × Coin)) :
    0 ≤ sumOf (bondedTo params k) coins := by
  refine sum_nonneg fun v hv => ?_
  obtain ⟨e, -, rfl⟩ := mem_map.mp hv
  exact bondedTo_nonneg _ _ _

open ScriptReader in
/-- A bond can be spent. -/
theorem isUnspendable_of_kept {out : CTxOut} {p : CPubKey × ℤ}
    (hkept : keptFromTxOut params out = some p) : isUnspendable out.scriptPubKey = false := by
  revert hkept
  fun_cases keptFromTxOut params out <;> rintro ⟨⟩
  · next hstake => exact isUnspendable_of_stakeFromTxOut hstake
  · next hparse _ =>
    exact isUnspendable_of_parse ((consumes_expectData unbondMarker).bind fun _ =>
      Consumes.op <| consumes_getKey.bind fun _ => Consumes.op <| consumes_pure _)
      (by decide) (by decide) hparse

/-- What counts as kept enters the UTXO set as bond. -/
theorem postedTo_kept_le (tx : CTransaction) :
    postedTo ((tx.vout.filter fun out => !out.isFee).filterMap (keptFromTxOut params)) k ≤
      sumOf (bondedTo params k) (createdEntries nHeight tx) := by
  rw [sumOf_createdEntries]
  induction tx.vout with
  | nil => exact Int.le_refl 0
  | cons out outs ih =>
    have hnonneg := bondedTo_nonneg params k out
    cases hkept : keptFromTxOut params out with
    | none =>
      cases hfee : out.isFee <;> cases hunspendable : isUnspendable out.scriptPubKey <;>
        simp [hfee, hkept, hunspendable] <;> omega
    | some p =>
      have hbond : bondedTo params k out = if p.1 = k then max p.2 0 else 0 := by
        simp [bondedTo, hkept]
      cases hfee : out.isFee <;>
        simp [hfee, hkept, isUnspendable_of_kept hkept, postedTo_cons, hbond] <;> split <;> omega

/-- The bond that inputs spend is stake, or has waited. -/
theorem sumOf_spent (hwaited : ∀ e ∈ spent, (parseUnbondScript e.2.out.scriptPubKey).isSome = true →
      anchors e.2.nHeight + anchorDepth ≤ anchors nHeight) :
    sumOf (bondedTo params k) spent = (stakedIn params spent).getD k 0 +
      (spent.map fun e => unbondedTo params anchors anchorDepth k nHeight e.2).sum := by
  rw [stakedIn, getD_tallied]
  unfold sumOf
  induction spent with
  | nil => rfl
  | cons e spent ih =>
    rw [forall_mem_cons] at hwaited
    have hrest := ih hwaited.2
    cases hunbond : parseUnbondScript e.2.out.scriptPubKey with
    | some pubkey =>
      have hle := hwaited.1 (by rw [hunbond]; rfl)
      simp [stakedFromCoin, unbondedTo, hunbond, hle, hrest]
      omega
    | none =>
      have hzero : unbondedTo params anchors anchorDepth k nHeight e.2 = 0 := by
        simp [unbondedTo, hunbond]
      cases hstake : stakeFromTxOut params e.2.out with
      | none =>
        have hbond : bondedTo params k e.2.out = 0 := by
          simp [bondedTo, keptFromTxOut, hstake, hunbond]
        simp [stakedFromCoin, hunbond, hstake, hzero, hbond, hrest]
      | some stake =>
        have hbond : bondedTo params k e.2.out = if stake.1 = k then (stake.2 : ℤ) else 0 := by
          simp [bondedTo, keptFromTxOut, hstake]
        simp [stakedFromCoin, hunbond, hstake, hzero, hbond, hrest, postedTo_cons]
        omega

/-- What a transaction that passes the rule takes out of a bond. -/
theorem sumOf_spent_le (hcoinbase : tx.isCoinBase = false)
    (hcheck : checkPosUnbondingTx params (anchors nHeight)
      (fun h => if h ≤ nHeight then anchors h else -1) anchorDepth tx spent = .ok ()) :
    sumOf (bondedTo params k) spent ≤ sumOf (bondedTo params k) (createdEntries nHeight tx) +
      released params anchors anchorDepth k nHeight tx spent := by
  have hkept : postedTo _ k ≤ sumOf (bondedTo params k) (createdEntries nHeight tx) :=
    postedTo_kept_le tx
  rw [checkPosUnbondingTx, hcoinbase, if_neg (by decide), Checks.ite_error_eq_ok] at hcheck
  obtain ⟨hpremature, hcheck⟩ := hcheck
  have hwaited : ∀ e ∈ spent, (parseUnbondScript e.2.out.scriptPubKey).isSome = true →
      anchors e.2.nHeight + anchorDepth ≤ anchors nHeight := by
    intro e he hunbond
    by_contra hlate
    refine hpremature (any_eq_true.mpr ⟨e, he, ?_⟩)
    rw [hunbond, Bool.true_and, decide_eq_true_eq]
    split <;> omega
  rw [sumOf_spent hwaited, released]
  split
  · next hmem =>
    rw [if_neg fun hempty => by simp [ExtTreeMap.isEmpty_iff.mp hempty] at hmem,
      Checks.ite_error_eq_ok] at hcheck
    rw [← getD_tallied] at hkept
    generalize tallied _ = kept at hkept hcheck
    obtain ⟨v, hv⟩ := Option.isSome_iff_exists.mp (ExtTreeMap.mem_iff_isSome_getElem?.mp hmem)
    -- The shortfall of the key is part of the whole shortfall.
    have hshort : max (v - kept.getD k 0) 0 ≤
        ((stakedIn params spent).toList.map fun e => max (e.2 - kept.getD e.1 0) 0).sum := by
      refine single_le_sum (fun x hx => ?_) _
        (mem_map.mpr ⟨(k, v), ExtTreeMap.mem_toList_iff_getElem?_eq_some.mpr hv, rfl⟩)
      obtain ⟨e, -, rfl⟩ := mem_map.mp hx
      exact le_max_right _ _
    rw [ExtTreeMap.getD_eq_getD_getElem?, hv, Option.getD_some]
    omega
  · next hmem =>
    have hcreated := sumOf_bondedTo_nonneg params k (createdEntries nHeight tx)
    rw [ExtTreeMap.getD_eq_getD_getElem?, ExtTreeMap.getElem?_eq_none hmem, Option.getD_none]
    omega

theorem isCoinBase_of_connectCoins {view view' : CCoinsView} {block : CBlock} {undo : CBlockUndo}
    (hconnect : connectCoins view nHeight block = .ok (view', undo)) :
    ∀ tx ∈ block.vtx.tail, tx.isCoinBase = false := by
  revert hconnect
  fun_cases connectCoins view nHeight block <;> rintro ⟨⟩
  next hvtx _ hothers _ _ _ =>
  rw [hvtx]
  simpa using hothers

/-- What is bonded to a key is at least what was bonded at the start, less what was released. -/
theorem bond_leaves_slowly {view : CCoinsView} {left : ℤ}
    (hchain : UnbondingChain params anchors anchorDepth k view nHeight left) :
    left ≤ sumOf (bondedTo params k) view.toList := by
  induction hchain with
  | start => exact Int.le_refl _
  | @block _ _ nHeight _ _ _ _ hconnect hrule ih =>
    obtain ⟨coinbase, -, hdelta⟩ :=
      (connected_of_connectCoins hconnect).sumOf_eq (bondedTo params k)
    have hcoinbase := sumOf_bondedTo_nonneg params k (createdEntries (nHeight + 1) coinbase)
    have hsum := sum_le_sum fun p hp => sumOf_spent_le (k := k)
      (isCoinBase_of_connectCoins hconnect p.1 (of_mem_zip hp).1) (Checks.forM_eq_ok.mp hrule p hp)
    rw [sum_map_add] at hsum
    omega

/-- A coin of a thousand units that stakes. -/
def stakedCoins : CCoinsView :=
  (∅ : CCoinsView).insert ⟨100, 0⟩
    ⟨sampleOut (buildStakeScript sampleController 100 [] [] 0), 12, false⟩

/-- The stake goes into an unbonding output, less a fee of 5. -/
def unbondBlock : CBlock where
  vtx := [sampleCoinbase,
    { txid := 201, vin := [{ prevout := ⟨100, 0⟩ }],
      vout := [⟨.explicit 1, .explicit 995, buildUnbondScript sampleController⟩,
        ⟨.explicit 1, .explicit 5, []⟩] }]
  txids_nodup := by decide

/-- The bond of the staker after that block. -/
theorem bond_leaves_slowly_unbond : ∃ view undo,
    connectCoins stakedCoins 20 unbondBlock = .ok (view, undo) ∧
      995 ≤ sumOf (bondedTo sampleParams sampleController) view.toList := by
  obtain ⟨⟨view, undo⟩, hconnect, hrun⟩ := Checks.exists_ok
    (connectCoins stakedCoins 20 unbondBlock) (fun r =>
      decide (checkUnbonding sampleParams (fun h => h) 6 20 unbondBlock r.2 = .ok ()) &&
      decide (sumOf (bondedTo sampleParams sampleController) stakedCoins.toList -
        ((unbondBlock.vtx.tail.zip r.2).map fun p => released sampleParams (fun h => h) 6
          sampleController 20 p.1 (spentEntries p.1 p.2)).sum = 995))
    (by decide +kernel)
  simp only [Bool.and_eq_true, decide_eq_true_eq] at hrun
  exact ⟨view, undo, hconnect, hrun.2 ▸ bond_leaves_slowly (.block .start hconnect hrun.1)⟩

end Sequentia
