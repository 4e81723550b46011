import Sequentia.Rewards.Policy
import Sequentia.Stake.Lottery

/-!
# Which coins are staking rewards

`FindWalletStakingRewards` decides from the wallet's own records: an output of a coinbase, or an
output on the script of a staking key in a transaction that spends nothing of the wallet. What it
reports is gathered into batches and sold. The second kind is meant to be what pot claims pay, but
anybody can pay the script of a staking key.
-/

namespace Sequentia

open List

/-- `CWalletTx`, with what the wallet computes of it. -/
structure CWalletTx where
  tx : CTransaction
  /-- The coins that the transaction spends, for reasoning only. -/
  spentCoins : List Coin
  /-- `CachedTxIsFromMe`. -/
  fromMe : Bool
  /-- `GetTxDepthInMainChain`. -/
  depth : ℤ
  /-- `confirmed_block_height`, or zero. -/
  height : ℤ
  /-- `GetTxBlocksToMaturity`. -/
  blocksToMaturity : ℤ
  /-- `GetOutputAsset` and `GetOutputValueOut`. -/
  output : ℕ → CAsset × ℤ

def CWalletTx.isPotClaim (params : Params) (wtx : CWalletTx) : Bool :=
  wtx.spentCoins.any fun coin =>
    (potFromTxOut coin.out).isSome || (roundFromTxOut params coin.out).isSome

/-- What is read of a wallet. -/
structure StakingWallet where
  mapWallet : List CWalletTx
  mapWallet_nodup : (mapWallet.map fun wtx => wtx.tx.txid).Nodup
  /-- `IsMine`, with `ISMINE_SPENDABLE`. -/
  isMine : CScript → Bool
  isSpent : COutPoint → Bool
  /-- The keys of `FindWalletStakeUtxos` and the controllers of `FindWalletDelegationUtxos`. -/
  stakeKeys : List CPubKey

/-- Where a reward comes from. -/
inductive RewardSource
  | solo
  | direct
  | lottery
  | split

structure StakingReward where
  outpoint : COutPoint
  asset : CAsset
  amount : ℤ
  source : RewardSource
  controller : Option CPubKey
  height : ℤ
  depth : ℤ
  blocksToMaturity : ℤ
  spent : Bool

/-- What `RunRewardConversionPass` copies of a reward. -/
def StakingReward.coin (r : StakingReward) : RewardCoin :=
  ⟨r.outpoint, r.asset, r.amount, r.blocksToMaturity == 0, r.spent⟩

namespace StakingWallet

section Report

variable (crypto : Crypto) (registry : StakeRegistry) (w : StakingWallet)

/-- `staking_scripts.find`: the first key that was entered for a script. -/
def stakingKey (script : CScript) : Option CPubKey :=
  (((registry.merged.keys ++ registry.weights.keys).filter fun key =>
    w.isMine (posLeaderFeeScript crypto key)) ++ w.stakeKeys).find? fun key =>
      posLeaderFeeScript crypto key = script

/-- What is reported of one output. -/
def reward? (includeSpent : Bool) (wtx : CWalletTx) (out : CTxOut) (i : ℕ) :
    Option StakingReward :=
  let coinbase := wtx.tx.isCoinBase
  let key := w.stakingKey crypto registry out.scriptPubKey
  let outpoint := ⟨wtx.tx.txid, i⟩
  if out.isFee || !w.isMine out.scriptPubKey then none
  else if !coinbase && key.isNone then none
  else if w.isSpent outpoint && !includeSpent then none
  else if decide ((wtx.output i).2 ≤ 0) || (wtx.output i).1.isNull then none
  else some
    { outpoint := outpoint
      asset := (wtx.output i).1
      amount := (wtx.output i).2
      source :=
        if !coinbase then .split
        else match key with
          | some k => if registry.signerFor k = k then .solo else .lottery
          | none => .direct
      controller := key
      height := wtx.height
      depth := wtx.depth
      blocksToMaturity := if coinbase then wtx.blocksToMaturity else 0
      spent := w.isSpent outpoint }

/-- The transactions that are looked at: coinbases, and what spends nothing of the wallet. -/
def looksAt (wtx : CWalletTx) : Bool :=
  (wtx.tx.isCoinBase || !wtx.fromMe) && decide (0 ≤ wtx.depth)

/-- `FindWalletStakingRewards`, newest first. -/
def findWalletStakingRewards (includeSpent : Bool) : List StakingReward :=
  ((w.mapWallet.filter looksAt).flatMap fun wtx => wtx.tx.vout.zipIdx.filterMap fun e =>
    w.reward? crypto registry includeSpent wtx e.1 e.2).mergeSort fun a b =>
      if a.height ≠ b.height then decide (b.height < a.height)
      else (compare a.outpoint b.outpoint).isLE

/-- The batches that `RunRewardConversionPass` offers to the book. -/
def passBatches (settings : RewardConvertSettings) (already : List COutPoint) :
    List RewardBatch :=
  rewardBatches ((w.findWalletStakingRewards crypto registry false).map StakingReward.coin)
    settings already

end Report

/-- An output of the wallet: not a fee, in no conflicted transaction, of an amount it can read. -/
structure Owns (w : StakingWallet) (wtx : CWalletTx) (out : CTxOut) (i : ℕ) : Prop where
  mem : wtx ∈ w.mapWallet
  depth : 0 ≤ wtx.depth
  isOut : wtx.tx.vout[i]? = some out
  notFee : out.isFee = false
  mine : w.isMine out.scriptPubKey = true
  amount : 0 < (wtx.output i).2
  asset : (wtx.output i).1.isNull = false

/-- The outpoint is an output of the wallet that a coinbase or a pot claim paid. -/
def PaidByStaking (params : Params) (w : StakingWallet) (o : COutPoint) : Prop :=
  ∃ wtx out i, w.Owns wtx out i ∧ o = ⟨wtx.tx.txid, i⟩ ∧
    (wtx.tx.isCoinBase = true ∨ wtx.isPotClaim params = true)

/-- The transaction spends nothing of the wallet, and the output is on the script of a staking
key. -/
def OnStakingKey (crypto : Crypto) (registry : StakeRegistry) (w : StakingWallet)
    (wtx : CWalletTx) (out : CTxOut) : Prop :=
  wtx.fromMe = false ∧ (w.stakingKey crypto registry out.scriptPubKey).isSome = true

variable {params : Params} {crypto : Crypto} {registry : StakeRegistry} {w : StakingWallet}
  {includeSpent : Bool} {wtx wtx' : CWalletTx} {out out' : CTxOut} {i i' : ℕ} {o : COutPoint}

/-- An outpoint is an output of one transaction. -/
theorem Owns.unique (howns : w.Owns wtx out i) (howns' : w.Owns wtx' out' i')
    (heq : (⟨wtx.tx.txid, i⟩ : COutPoint) = ⟨wtx'.tx.txid, i'⟩) : wtx = wtx' ∧ out = out' := by
  obtain ⟨htxid, rfl⟩ := COutPoint.mk.inj heq
  obtain rfl := inj_on_of_nodup_map w.mapWallet_nodup howns.mem howns'.mem htxid
  exact ⟨rfl, Option.some.inj (howns.isOut.symm.trans howns'.isOut)⟩

/-- What is reported of an output, and when. -/
theorem map_reward?_eq_some :
    (w.reward? crypto registry includeSpent wtx out i).map StakingReward.outpoint = some o ↔
      (out.isFee = false ∧ w.isMine out.scriptPubKey = true) ∧
      (wtx.tx.isCoinBase = false → (w.stakingKey crypto registry out.scriptPubKey).isSome = true) ∧
      (w.isSpent ⟨wtx.tx.txid, i⟩ = true → includeSpent = true) ∧
      (0 < (wtx.output i).2 ∧ (wtx.output i).1.isNull = false) ∧ ⟨wtx.tx.txid, i⟩ = o := by
  simp only [reward?]
  split_ifs <;> grind

/-- What is reported: outputs of the wallet that a coinbase paid, or that are on the script of a
staking key and come from outside. -/
theorem mem_findWalletStakingRewards :
    o ∈ (w.findWalletStakingRewards crypto registry includeSpent).map StakingReward.outpoint ↔
      ∃ wtx out i, w.Owns wtx out i ∧ o = ⟨wtx.tx.txid, i⟩ ∧
        (w.isSpent o = true → includeSpent = true) ∧
        (wtx.tx.isCoinBase = true ∨ w.OnStakingKey crypto registry wtx out) := by
  constructor
  · intro ho
    obtain ⟨r, hr, rfl⟩ := mem_map.mp ho
    obtain ⟨wtx, hwtx, hr⟩ := mem_flatMap.mp (mem_mergeSort.mp hr)
    obtain ⟨⟨out, i⟩, hout, hr⟩ := mem_filterMap.mp hr
    obtain ⟨hmem, hlooks⟩ := mem_filter.mp hwtx
    simp only [looksAt, Bool.and_eq_true, Bool.or_eq_true, Bool.not_eq_true',
      decide_eq_true_eq] at hlooks
    obtain ⟨⟨hfee, hmine⟩, hkey, hspent, ⟨hamount, hasset⟩, heq⟩ :=
      map_reward?_eq_some.mp (congrArg (Option.map StakingReward.outpoint) hr)
    refine ⟨wtx, out, i, ⟨hmem, hlooks.2, mk_mem_zipIdx_iff_getElem?.mp hout, hfee, hmine,
      hamount, hasset⟩, heq.symm, heq ▸ hspent, ?_⟩
    cases hcoinbase : wtx.tx.isCoinBase with
    | true => exact .inl rfl
    | false => exact .inr ⟨hlooks.1.resolve_left (by simp [hcoinbase]), hkey hcoinbase⟩
  · rintro ⟨wtx, out, i, howns, rfl, hspent, hpaid⟩
    have hkey : wtx.tx.isCoinBase = false →
        (w.stakingKey crypto registry out.scriptPubKey).isSome = true :=
      fun hcoinbase => (hpaid.resolve_left (by simp [hcoinbase])).2
    obtain ⟨r, hr, heq⟩ := Option.map_eq_some_iff.mp (map_reward?_eq_some.mpr
      ⟨⟨howns.notFee, howns.mine⟩, hkey, hspent, ⟨howns.amount, howns.asset⟩, rfl⟩)
    refine mem_map.mpr ⟨r, mem_mergeSort.mpr (mem_flatMap.mpr ⟨wtx, ?_, ?_⟩), heq⟩
    · refine mem_filter.mpr ⟨howns.mem, ?_⟩
      simp only [looksAt, Bool.and_eq_true, Bool.or_eq_true, Bool.not_eq_true', decide_eq_true_eq]
      exact ⟨hpaid.imp_right And.left, howns.depth⟩
    · exact mem_filterMap.mpr
        ⟨(out, i), mk_mem_zipIdx_iff_getElem?.mpr howns.isOut, hr⟩

/-- What is sold was reported. -/
theorem mem_of_passBatches {settings : RewardConvertSettings} {already : List COutPoint}
    {batch : RewardBatch} (hbatch : batch ∈ w.passBatches crypto registry settings already)
    (ho : o ∈ batch.inputs) :
    o ∈ (w.findWalletStakingRewards crypto registry false).map StakingReward.outpoint := by
  obtain ⟨asset, -, rfl⟩ := mem_map.mp (mem_mergeSort.mp hbatch)
  obtain ⟨coin, hcoin, rfl⟩ := mem_map.mp ho
  obtain ⟨r, hr, rfl⟩ := mem_map.mp (mem_filter.mp (mem_filter.mp hcoin).1).1
  exact mem_map_of_mem hr

/-- What is reported is exactly what coinbases and pot claims paid, and nothing else is sold, if
and only if what pays the wallet from outside on the script of a staking key, coinbases apart, is
what pot claims pay it. -/
theorem staking_rewards_exact_iff (params : Params) (crypto : Crypto) (registry : StakeRegistry)
    (w : StakingWallet) :
    ((∀ includeSpent o,
        o ∈ (w.findWalletStakingRewards crypto registry includeSpent).map StakingReward.outpoint ↔
          w.PaidByStaking params o ∧ (w.isSpent o = true → includeSpent = true)) ∧
      ∀ settings already, ∀ batch ∈ w.passBatches crypto registry settings already,
        ∀ o ∈ batch.inputs, w.PaidByStaking params o) ↔
    ∀ wtx out i, w.Owns wtx out i → wtx.tx.isCoinBase = false →
      (wtx.isPotClaim params = true ↔ w.OnStakingKey crypto registry wtx out) := by
  constructor
  · rintro ⟨hexact, -⟩ wtx out i howns hcoinbase
    have hexact := hexact true ⟨wtx.tx.txid, i⟩
    rw [mem_findWalletStakingRewards] at hexact
    constructor
    · intro hclaim
      obtain ⟨wtx', out', i', howns', heq, -, hpaid⟩ := hexact.mpr
        ⟨⟨wtx, out, i, howns, rfl, .inr hclaim⟩, fun _ => rfl⟩
      obtain ⟨rfl, rfl⟩ := howns.unique howns' heq
      exact hpaid.resolve_left (by simp [hcoinbase])
    · intro hpaid
      obtain ⟨⟨wtx', out', i', howns', heq, hclaim⟩, -⟩ := hexact.mp
        ⟨wtx, out, i, howns, rfl, fun _ => rfl, .inr hpaid⟩
      obtain ⟨rfl, rfl⟩ := howns.unique howns' heq
      exact hclaim.resolve_left (by simp [hcoinbase])
  · intro hclaims
    have hsame : ∀ {wtx out i}, w.Owns wtx out i →
        (wtx.tx.isCoinBase = true ∨ wtx.isPotClaim params = true ↔
          wtx.tx.isCoinBase = true ∨ w.OnStakingKey crypto registry wtx out) := by
      intro wtx out i howns
      cases hcoinbase : wtx.tx.isCoinBase with
      | true => simp
      | false => simpa using hclaims wtx out i howns hcoinbase
    have hexact : ∀ includeSpent o, o ∈ (w.findWalletStakingRewards crypto registry
        includeSpent).map StakingReward.outpoint ↔
          w.PaidByStaking params o ∧ (w.isSpent o = true → includeSpent = true) := by
      intro includeSpent o
      rw [mem_findWalletStakingRewards]
      constructor
      · rintro ⟨wtx, out, i, howns, heq, hspent, hpaid⟩
        exact ⟨⟨wtx, out, i, howns, heq, (hsame howns).mpr hpaid⟩, hspent⟩
      · rintro ⟨⟨wtx, out, i, howns, heq, hpaid⟩, hspent⟩
        exact ⟨wtx, out, i, howns, heq, hspent, (hsame howns).mp hpaid⟩
    exact ⟨hexact, fun _ _ _ hbatch o ho => ((hexact false o).mp (mem_of_passBatches hbatch ho)).1⟩

/-- A wallet with one staking key, which somebody pays 500 of an asset. -/
def giftedWallet : StakingWallet where
  mapWallet :=
    [{ tx := ⟨51, [⟨⟨50, 0⟩, [], default, false, [], [], []⟩],
        [⟨.explicit 7, .explicit 500, posLeaderFeeScript poolCrypto sampleController⟩], []⟩
       spentCoins := [⟨⟨.explicit 7, .explicit 500, []⟩, 10, false⟩]
       fromMe := false
       depth := 1
       height := 20
       blocksToMaturity := 0
       output := fun _ => (7, 500) }]
  mapWallet_nodup := by decide
  isMine := fun script => script = posLeaderFeeScript poolCrypto sampleController
  isSpent := fun _ => false
  stakeKeys := [sampleController]

/-- The gift is reported as a reward and offered for sale, although no coinbase and no pot claim
paid it. -/
theorem gift_reported_as_reward :
    ⟨51, 0⟩ ∈ (giftedWallet.findWalletStakingRewards poolCrypto StakeRegistry.empty false).map
        StakingReward.outpoint ∧
      giftedWallet.passBatches poolCrypto StakeRegistry.empty { enabled := true } [] =
        [⟨7, [⟨51, 0⟩], 500⟩] ∧
      ¬ giftedWallet.PaidByStaking sampleParams ⟨51, 0⟩ := by
  refine ⟨by decide +kernel, by decide +kernel, ?_⟩
  rintro ⟨wtx, out, i, howns, -, hpaid⟩
  obtain rfl := mem_singleton.mp howns.mem
  revert hpaid
  decide +kernel

end StakingWallet

end Sequentia
