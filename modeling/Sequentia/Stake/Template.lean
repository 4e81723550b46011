import Sequentia.Pots.Coverage
import Sequentia.Pots.Unconfirmed
import Sequentia.Stake.Assembly
import Sequentia.Supervision.Keys

/-!
# A block made of accepted transactions

The assembler fills a block with transactions that the record checker accepted in turn. The
block then passes the rules of `ConnectBlock` for records, with two exceptions. Without proof of
stake the checker accepts everything, while the supervision rules are still in force. And a pot
that was created in the same block is shared among the participants of the block's height, not of
the height that the mempool gives it.
-/

namespace Sequentia

open Std KeyedMap Checks List

variable {params : Params} {crypto : Crypto} {registry : StakeRegistry} {height : ℕ}
  {block : CBlock} {undo seen : CBlockUndo}

/-- The coins of a block as the assembler sees them. -/
def CBlockUndo.SeenAs (height : ℕ) (undo seen : CBlockUndo) : Prop :=
  List.Forall₂ (List.Forall₂ fun seen coin : Coin => coin.SeenAs height seen) seen undo

variable {coins coins' : List Coin}

theorem map_out_of_seen
    (hseen : List.Forall₂ (fun seen coin : Coin => coin.SeenAs height seen) coins' coins) :
    coins'.map Coin.out = coins.map Coin.out := by
  induction hseen with
  | nil => rfl
  | cons hS _ ih => rw [map_cons, map_cons, hS.out_eq, ih]

theorem forall₂_pairUndo {S : CTxUndo → CTxUndo → Prop} (hnil : S [] []) {txs : List CTransaction}
    {undos undos' : List CTxUndo} (hundos : List.Forall₂ S undos undos') :
    List.Forall₂ (fun p q : CTransaction × CTxUndo => p.1 = q.1 ∧ S p.2 q.2) (pairUndo txs undos)
      (pairUndo txs undos') := by
  induction txs generalizing undos undos' with
  | nil => simp [pairUndo]
  | cons tx txs ih =>
    cases hundos with
    | nil => exact .cons ⟨rfl, hnil⟩ (ih .nil)
    | cons hS hrest => exact .cons ⟨rfl, hS⟩ (ih hrest)

theorem CBlockUndo.SeenAs.spends (hseen : CBlockUndo.SeenAs height undo seen) :
    List.Forall₂ (fun p q : CTransaction × CTxUndo => p.1 = q.1 ∧
      List.Forall₂ (fun seen coin : Coin => coin.SeenAs height seen) p.2 q.2)
      (block.spends seen) (block.spends undo) :=
  forall₂_pairUndo .nil (.cons .nil hseen)

theorem outputsOf_spends (block : CBlock) (undo : CBlockUndo) :
    outputsOf (block.spends undo) = block.outputs := by
  rw [outputsOf, CBlock.outputs, CBlock.spends]
  conv_rhs => rw [← map_fst_pairUndo block.vtx ([] :: undo)]
  rw [flatMap_map]

theorem coinsOf_spends (hlength : undo.length + 1 = block.vtx.length) :
    coinsOf (block.spends undo) = undo.flatten := by
  have hmap : (pairUndo block.vtx ([] :: undo)).map Prod.snd = [] :: undo :=
    map_snd_pairUndo (by simpa using hlength)
  rw [coinsOf, CBlock.spends, flatMap_def, hmap, flatten_cons, nil_append]

theorem CBlockUndo.SeenAs.map_out (hseen : CBlockUndo.SeenAs height undo seen) :
    seen.flatten.map Coin.out = undo.flatten.map Coin.out := by
  unfold CBlockUndo.SeenAs at hseen
  induction hseen with
  | nil => rfl
  | cons hS _ ih =>
    rw [flatten_cons, flatten_cons, map_append, map_append,
      map_out_of_seen hS, ih]

theorem filterMap_out {α : Type} {f : CTxOut → Option α}
    (hout : coins'.map Coin.out = coins.map Coin.out) :
    coins'.filterMap (fun coin => f coin.out) = coins.filterMap fun coin => f coin.out := by
  have hmap : ∀ l : List Coin, l.filterMap (fun coin => f coin.out) =
      (l.map Coin.out).filterMap f := fun l => by rw [filterMap_map]; rfl
  rw [hmap, hmap, hout]

theorem mem_map_out (hout : coins'.map Coin.out = coins.map Coin.out) {coin : Coin}
    (hcoin : coin ∈ coins) : ∃ seen ∈ coins', seen.out = coin.out := by
  have hmem : coin.out ∈ coins'.map Coin.out := hout ▸ mem_map_of_mem hcoin
  exact mem_map.mp hmem

theorem exists_foldlM_checkSpentRecord
    (hforce : ∀ coin ∈ coins, ∀ p, payoutFromTxOut coin.out = some p →
      posPayoutInForce registry p.1 p.2 height = false) (scripts : List CScript) :
    ∃ scripts', coins.foldlM (checkSpentRecord registry height) scripts = .ok scripts' ∧
      ∀ s ∈ scripts', s ∈ scripts ∨
        ∃ coin ∈ coins, isRecord coin.out ∧ coin.out.scriptPubKey = s := by
  induction coins generalizing scripts with
  | nil => exact ⟨scripts, rfl, fun s hs => Or.inl hs⟩
  | cons coin coins ih =>
    have hstep : ∃ scripts₁, checkSpentRecord registry height scripts coin = .ok scripts₁ ∧
        ∀ s ∈ scripts₁, s ∈ scripts ∨ isRecord coin.out ∧ coin.out.scriptPubKey = s := by
      have hfree : ¬ ((payoutFromTxOut coin.out).any fun p =>
          posPayoutInForce registry p.1 p.2 height) = true := by
        cases hpayout : payoutFromTxOut coin.out with
        | none => simp
        | some p => simp [hforce coin mem_cons_self p hpayout]
      unfold checkSpentRecord
      rw [if_neg hfree]
      split
      · next hrecord =>
        refine ⟨_, rfl, fun s hs => ?_⟩
        rcases mem_cons.mp hs with rfl | hs
        · exact Or.inr ⟨by simpa [isRecord] using hrecord, rfl⟩
        · exact Or.inl hs
      · exact ⟨scripts, rfl, fun s hs => Or.inl hs⟩
    obtain ⟨scripts₁, hfirst, hscripts₁⟩ := hstep
    obtain ⟨scripts', hrest, hscripts'⟩ :=
      ih (fun c hc => hforce c (mem_cons_of_mem _ hc)) scripts₁
    refine ⟨scripts', by rw [foldlM_cons, hfirst]; exact hrest, fun s hs => ?_⟩
    rcases hscripts' s hs with hs | ⟨c, hc, hrecord⟩
    · rcases hscripts₁ s hs with hs | hrecord
      · exact Or.inl hs
      · exact Or.inr ⟨coin, mem_cons_self, hrecord⟩
    · exact Or.inr ⟨c, mem_cons_of_mem _ hc, hrecord⟩

/-- The authorisation of a record depends on the outputs spent. -/
theorem posTxSpendsKey_congr (hout : coins'.map Coin.out = coins.map Coin.out) (key : CPubKey) :
    posTxSpendsKey crypto key coins' = posTxSpendsKey crypto key coins := by
  have hmap : ∀ l : List Coin, posTxSpendsKey crypto key l = (l.map Coin.out).any fun out =>
      !out.isNull && scriptBindsKey crypto key out.scriptPubKey :=
    fun l => by rw [any_map]; rfl
  rw [hmap, hmap, hout]

section Block

variable {st : PosRecordState}

/-- The delegation, payout and hardening rules. -/
theorem JudgedTxs.checkRecordRules
    (hjudged : JudgedTxs params crypto registry height (block.spends seen) st)
    (hseen : CBlockUndo.SeenAs height undo seen) (hlength : undo.length + 1 = block.vtx.length) :
    Sequentia.checkRecordRules params crypto registry block undo height = .ok () := by
  have hlength' : seen.length + 1 = block.vtx.length := by rw [hseen.length_eq, hlength]
  have hdelegKeys : delegKeys (coinsOf (block.spends seen)) = delegKeys undo.flatten := by
    rw [coinsOf_spends hlength']
    exact filterMap_out hseen.map_out
  have hpayoutSlots : payoutSlots (coinsOf (block.spends seen)) = payoutSlots undo.flatten := by
    rw [coinsOf_spends hlength']
    exact filterMap_out hseen.map_out
  have hdelegations := hjudged.delegations
  have hpayouts := hjudged.payouts
  rw [outputsOf_spends, hdelegKeys] at hdelegations
  rw [outputsOf_spends, hpayoutSlots] at hpayouts
  unfold Sequentia.checkRecordRules
  refine bind_eq_ok.mpr ⟨_, hdelegations, bind_eq_ok.mpr ⟨_, hpayouts, ?_⟩⟩
  split
  · next hactive =>
    have hforce : ∀ coin ∈ undo.flatten, ∀ p, payoutFromTxOut coin.out = some p →
        posPayoutInForce registry p.1 p.2 height = false := by
      intro coin hcoin p hpayout
      obtain ⟨c, hc, hout⟩ := mem_map_out hseen.map_out hcoin
      rw [← coinsOf_spends hlength'] at hc
      exact hjudged.inForce hactive c hc p (hout ▸ hpayout)
    obtain ⟨scripts, hscripts, hmem⟩ := exists_foldlM_checkSpentRecord hforce []
    have hnew : ∀ out ∈ block.outputs, isRuledRecord params height out →
        out.scriptPubKey ∉ scripts := by
      intro out hout hrecord hspent
      rcases hmem _ hspent with hnil | ⟨coin, hcoin, hrecord', hscript⟩
      · cases hnil
      · obtain ⟨c, hc, hcout⟩ := mem_map_out hseen.map_out hcoin
        rw [← coinsOf_spends hlength'] at hc
        rw [← outputsOf_spends block seen] at hout
        exact hjudged.fresh hactive _ ((hjudged.createdScripts _).mpr ⟨out, hout, hrecord, rfl⟩)
          ((hjudged.spentScripts _).mpr ⟨c, hc, hcout ▸ hrecord', by rw [hcout, hscript]⟩)
    refine bind_eq_ok.mpr ⟨scripts, hscripts, forM_eq_ok.mpr fun p hp => forM_eq_ok.mpr
      fun out hout => ?_⟩
    obtain ⟨q, hq, heq, hcoins⟩ := exists_of_forall₂ hseen.spends hp
    have hmemOut : out ∈ block.outputs := by
      rw [← outputsOf_spends block undo]
      exact mem_flatMap.mpr ⟨p, hp, hout⟩
    simp only [checkRecordOutput, checkRecordScript,
      ← posTxSpendsKey_congr (map_out_of_seen hcoins)]
    exact checkRecordOutput_scripts (hjudged.outputs hactive q hq out (heq ▸ hout))
      (hnew out hmemOut)
  · rfl

theorem mem_spends_of_mem_zip (hlength : undo.length + 1 = block.vtx.length)
    {p : CTransaction × CTxUndo} (hp : p ∈ block.vtx.tail.zip undo) : p ∈ block.spends undo := by
  rw [CBlock.spends, pairUndo_eq_zip (by simpa using hlength)]
  cases hvtx : block.vtx with
  | nil =>
    rw [hvtx] at hp
    cases hp
  | cons coinbase txs =>
    rw [hvtx, tail_cons] at hp
    exact mem_cons_of_mem _ hp

theorem issuesOnRecord_congr {tx : CTransaction} {coins coins' : List Coin}
    (hout : coins'.map Coin.out = coins.map Coin.out) :
    issuesOnRecord tx coins' = issuesOnRecord tx coins := by
  have hmap : ∀ l : List Coin, issuesOnRecord tx l = (tx.vin.zip (l.map Coin.out)).any fun p =>
      !p.1.assetIssuance.isNull && (parseSupervisionRecordScript p.2.scriptPubKey).isSome := by
    intro l
    rw [zip_map_right, any_map]
    rfl
  rw [hmap, hmap, hout]

theorem filterMap_rotationSlot (block : CBlock) :
    block.outputScripts.filterMap rotationSlot = block.outputs.filterMap outRotation := by
  unfold CBlock.outputScripts CBlock.outputs outRotation
  induction block.vtx with
  | nil => rfl
  | cons tx txs ih =>
    rw [flatMap_cons, flatMap_cons, filterMap_append, filterMap_append, ih,
      filterMap_map]
    rfl

/-- The coinbase holds no declaration and no supervision record. -/
def CBlock.CoinbaseUnsupervised (block : CBlock) : Prop :=
  ∀ tx ∈ block.vtx.head?, ∀ out ∈ tx.vout, parseSupervisionScript out.scriptPubKey = none ∧
    parseSupervisionRecordScript out.scriptPubKey = none

/-- The supervision rules of a block, apart from the coinbase: one rotation for each asset and
role, and no issuance on a record. -/
def CBlock.SupervisionOrderly (block : CBlock) (undo : CBlockUndo) : Prop :=
  (block.outputs.filterMap outRotation).Nodup ∧
    ∀ p ∈ block.vtx.tail.zip undo, issuesOnRecord p.1 p.2 = false

theorem checkSupervisionHardening_iff (hcoinbase : block.CoinbaseUnsupervised) :
    checkSupervisionHardening block undo = .ok () ↔ block.SupervisionOrderly undo := by
  have hclean : ¬ ((block.vtx.take 1).any fun tx => tx.vout.any fun out =>
      (parseSupervisionScript out.scriptPubKey).isSome ||
        (parseSupervisionRecordScript out.scriptPubKey).isSome) = true := by
    rw [Bool.not_eq_true, any_eq_false]
    intro tx htx
    rw [Bool.not_eq_true, any_eq_false]
    intro out hout
    have hhead : tx ∈ block.vtx.head? := by
      cases hvtx : block.vtx with
      | nil => simp [hvtx] at htx
      | cons coinbase txs => simpa [hvtx, eq_comm] using htx
    simp [hcoinbase tx hhead out hout]
  unfold checkSupervisionHardening CBlock.SupervisionOrderly
  rw [ite_error_eq_ok, ite_error_eq_ok, ite_error_eq_ok, filterMap_rotationSlot, not_not]
  constructor
  · rintro ⟨hissuance, -, hnodup, -⟩
    refine ⟨hnodup, fun p hp => ?_⟩
    rw [Bool.not_eq_true, any_eq_false] at hissuance
    exact Bool.not_eq_true _ ▸ hissuance p hp
  · rintro ⟨hnodup, hissuance⟩
    refine ⟨?_, hclean, hnodup, rfl⟩
    rw [Bool.not_eq_true, any_eq_false]
    exact fun p hp => Bool.not_eq_true _ ▸ hissuance p hp

/-- The pots that a coin of the block holds are shared otherwise by those who see it in the
mempool. -/
def SharesShift (params : Params) (registry : StakeRegistry) (height : ℕ) (coin : Coin) : Prop :=
  coin.nHeight = height ∧ ∃ pot, potFromTxOut coin.out = some pot ∧
    potSharers params registry pot.signer CTxMemPool.mempoolHeight ≠
      potSharers params registry pot.signer height

theorem seenAlike_of_not_shift {coins coins' : List Coin}
    (hseen : List.Forall₂ (fun seen coin : Coin => coin.SeenAs height seen) coins' coins)
    (hshift : ¬ ∃ coin ∈ coins, SharesShift params registry height coin) :
    List.Forall₂ (SeenAlike params registry height) coins' coins := by
  induction hseen with
  | nil => exact .nil
  | @cons seen coin _ _ hS _ ih =>
    refine .cons ⟨hS, fun pot hpot => ?_⟩
      (ih fun ⟨c, hc, hcshift⟩ => hshift ⟨c, mem_cons_of_mem _ hc, hcshift⟩)
    rcases hS with rfl | ⟨hcoin, rfl⟩
    · rfl
    · rw [hcoin]
      by_contra hne
      exact hshift ⟨coin, mem_cons_self, hcoin, pot, hpot, hne⟩

theorem checkPotClaims_iff : checkPotClaims params crypto registry block undo height = .ok () ↔
    (params.splitPayoutActiveAt height = true → ∀ p ∈ block.vtx.tail.zip undo,
      checkPosPotClaim params crypto registry p.1 p.2 height = .ok ()) := by
  unfold checkPotClaims
  split
  · next hsplit =>
    rw [forM_eq_ok]
    constructor
    · intro hclaims _ p hp
      have hclaim := hclaims p hp
      split at hclaim
      · assumption
      · cases hclaim
    · intro hclaims p hp
      rw [hclaims hsplit p hp]
  · next hsplit => exact ⟨fun _ h => absurd h hsplit, fun _ => rfl⟩

theorem checkBlockRecords_iff :
    checkBlockRecords params crypto registry height block undo = .ok () ↔
      (params.conPos = true → checkBlsRules params crypto registry block = .ok () ∧
        Sequentia.checkRecordRules params crypto registry block undo height = .ok ()) ∧
      (params.posHardeningActiveAt height = true →
        checkSupervisionHardening block undo = .ok ()) ∧
      (params.conPos = true → checkPotClaims params crypto registry block undo height = .ok ()) := by
  unfold checkBlockRecords
  cases hpos : params.conPos <;> cases hactive : params.posHardeningActiveAt height <;>
    simp [bind_eq_ok, pure, Except.pure, and_assoc, Unique.exists_iff]

/-- Transactions that were accepted in turn make a block that passes the rules for records,
apart from claims on its own pots. -/
theorem JudgedTxs.checkBlsRules
    (hjudged : JudgedTxs params crypto registry height (block.spends seen) st) :
    Sequentia.checkBlsRules params crypto registry block = .ok () := by
  unfold Sequentia.checkBlsRules
  split
  · next hcommittee =>
    have hbls := hjudged.bls hcommittee
    rw [outputsOf_spends] at hbls
    exact bind_eq_ok.mpr ⟨_, hbls, rfl⟩
  · rfl

/-- A block whose transactions the record checker accepted in turn passes the rules of
`ConnectBlock` for records under proof of stake, as long as each claim on a pot of the block that
is shared otherwise there is valid there. Without proof of stake it passes exactly if it obeys
the supervision rules. -/
theorem accepted_txs_pass_iff
    (haccept : checkTxsRecords params crypto registry height .empty (block.spends seen) = .ok st)
    (hseen : CBlockUndo.SeenAs height undo seen) (hlength : undo.length + 1 = block.vtx.length)
    (hheight : height ≤ CTxMemPool.mempoolHeight) (hcoinbase : block.CoinbaseUnsupervised) :
    checkBlockRecords params crypto registry height block undo = .ok () ↔
      (params.conPos = false → params.posHardeningActiveAt height = true →
        block.SupervisionOrderly undo) ∧
      (params.conPos = true → params.splitPayoutActiveAt height = true →
        ∀ p ∈ block.vtx.tail.zip undo, (∃ coin ∈ p.2, SharesShift params registry height coin) →
          checkPosPotClaim params crypto registry p.1 p.2 height = .ok ()) := by
  rw [checkBlockRecords_iff, checkSupervisionHardening_iff hcoinbase, checkPotClaims_iff]
  cases hpos : params.conPos with
  | false => simp
  | true =>
    have hjudged : JudgedTxs params crypto registry height (block.spends seen) st :=
      foldlM_induction (fun done s => JudgedTxs params crypto registry height done s)
        (fun _ _ _ _ hjudged hstep => hjudged.snoc hpos hstep) judgedTxs_nil haccept
    constructor
    · rintro ⟨-, -, hclaims⟩
      exact ⟨fun h => (by cases h), fun _ hsplit p hp _ => hclaims rfl hsplit p hp⟩
    · rintro ⟨-, hclaims⟩
      refine ⟨fun _ => ⟨hjudged.checkBlsRules, hjudged.checkRecordRules hseen hlength⟩,
        fun hactive => ⟨outputsOf_spends block seen ▸ (hjudged.rotations hactive).2,
          fun p hp => ?_⟩, fun _ hsplit p hp => ?_⟩
      · obtain ⟨q, hq, heq, hcoins⟩ :=
          exists_of_forall₂ hseen.spends (mem_spends_of_mem_zip hlength hp)
        rw [← heq, ← issuesOnRecord_congr (map_out_of_seen hcoins)]
        exact hjudged.issuance hactive q hq
      by_cases hshift : ∃ coin ∈ p.2, SharesShift params registry height coin
      · exact hclaims rfl hsplit p hp hshift
      · obtain ⟨q, hq, heq, hcoins⟩ :=
          exists_of_forall₂ hseen.spends (mem_spends_of_mem_zip hlength hp)
        refine checkPosPotClaim_seen hheight (seenAlike_of_not_shift hcoins hshift) ?_
        exact heq ▸ hjudged.claims hsplit q hq

end Block

/-- A pool with a large participant, the signer itself, and a hundred small ones. -/
def crowd : StakeRegistry :=
  poolOf ((sampleController, 1000000000) ::
    (List.range 100).map fun i => (⟨[2, UInt8.ofNat i]⟩, i + 1))

/-- The sample chain before its hardening. -/
def scheduledParams : Params :=
  { sampleParams with posHardeningHeight := 5000, posRecordsV2Height := 5000 }

/-- A block with a pot and a claim on it, which pays the large participant its share among the
hundred largest. -/
def crowdBlock : CBlock where
  vtx := [sampleCoinbase,
    { txid := 310, vin := [{ prevout := ⟨101, 0⟩ }], vout := [poolPot 10000000000] },
    { txid := 311, vin := [{ prevout := ⟨310, 0⟩ }],
      vout := [poolPayment sampleController 9899950015, poolPot 100049985] }]
  txids_nodup := by decide

def crowdCoins (height : ℕ) : CBlockUndo :=
  [[⟨sampleOut (pushBytes sampleController.vch ++ [opCheckSig]), 12, false⟩],
   [⟨poolPot 10000000000, height, false⟩]]

/-- The sample chain without proof of stake. -/
def unstakedParams : Params := { sampleParams with conPos := false }

def twoRotationsBlock : CBlock where
  vtx := [emptyCoinbase 40,
    { txid := 41, vin := [{ prevout := ⟨20, 0⟩ }],
      vout := [signedRecord .rotateOperational (sampleKey 2) (sampleKey 0) (sampleKey 1) ⟨20, 0⟩] },
    { txid := 42, vin := [{ prevout := ⟨20, 1⟩ }],
      vout := [signedRecord .rotateOperational (sampleKey 3) (sampleKey 0) (sampleKey 1) ⟨20, 1⟩] }]
  txids_nodup := by decide

def twoRotationsCoins : CBlockUndo :=
  [[⟨⟨.explicit 1, .explicit 10, openScript⟩, 10, false⟩],
   [⟨⟨.explicit sampleAsset, .explicit 100, openScript⟩, 10, false⟩]]

/-- Transactions that are accepted in turn and make a block that is refused: a claim on a pot of
the same block before the hardening, and two rotations without proof of stake. -/
theorem accepted_txs_refused : ((checkTxsRecords scheduledParams poolCrypto crowd 3000 .empty
        (crowdBlock.spends (crowdCoins CTxMemPool.mempoolHeight))).isOk = true ∧
      CBlockUndo.SeenAs 3000 (crowdCoins 3000) (crowdCoins CTxMemPool.mempoolHeight) ∧
      (checkBlockRecords scheduledParams poolCrypto crowd 3000 crowdBlock
        (crowdCoins 3000)).isOk = false) ∧
    (checkTxsRecords unstakedParams transparentCrypto StakeRegistry.empty 12 .empty
        (twoRotationsBlock.spends twoRotationsCoins)).isOk = true ∧
      (checkBlockRecords unstakedParams transparentCrypto StakeRegistry.empty 12 twoRotationsBlock
        twoRotationsCoins).isOk = false :=
  ⟨⟨by decide +kernel, .cons (.cons (.inl rfl) .nil) (.cons (.cons (.inr ⟨rfl, rfl⟩) .nil) .nil),
    by decide +kernel⟩, by decide +kernel, by decide +kernel⟩

/-- A block of a rotation that was accepted passes. -/
theorem accepted_txs_pass_iff_rotation : ∃ undo st,
    checkTxsRecords sampleParams sampleCrypto sampleStart.registry 20 .empty
      (rotationBlock.spends undo) = .ok st ∧
    checkBlockRecords sampleParams sampleCrypto sampleStart.registry 20 rotationBlock undo =
      .ok () := by
  have hrun : (checkTxsRecords sampleParams sampleCrypto sampleStart.registry 20 .empty
      (rotationBlock.spends [[⟨sampleOut (buildDelegationScript sampleController sampleSigner), 12,
        false⟩]])).toOption.isSome = true := by decide +kernel
  cases haccept : checkTxsRecords sampleParams sampleCrypto sampleStart.registry 20 .empty
      (rotationBlock.spends [[⟨sampleOut (buildDelegationScript sampleController sampleSigner), 12,
        false⟩]]) with
  | error e => simp [haccept, Except.toOption] at hrun
  | ok st =>
    refine ⟨_, st, haccept, (accepted_txs_pass_iff haccept
      (.cons (.cons (Or.inl rfl) .nil) .nil) rfl (by decide) ?_).mpr ⟨fun h => (by cases h), ?_⟩⟩
    · intro tx htx out hout
      cases htx
      cases hout
    · rintro - - p hp ⟨coin, hcoin, hshift, -⟩
      cases hp with
      | head =>
        rw [mem_singleton.mp hcoin] at hshift
        cases hshift
      | tail _ hp => cases hp

end Sequentia
