import Sequentia.Stake.Mirror

/-!
# A running node and a restarted node

A node that connects blocks one by one keeps its registry in step with the UTXO set, as
long as no block creates a record in one transaction and spends its twin in a later one.
The rules forbid this only for records with the same script, while several scripts encode
one record.
-/

namespace Sequentia

open Std KeyedMap Slots List

/-- No record is spent after one with the same content was created in the block, and a
recognised payout record whose slot is written anew is spent. -/
structure Orderly (params : Params) (coins : CCoinsView) (block : CBlock) (undo : CBlockUndo)
    (height : ℕ) : Prop where
  deleg : (recordSteps delegEntries block undo height).Pairwise NotLate
  payout : Safe (coins.toList.flatMap (payoutEntries params))
    (recordSteps (payoutEntries params) block undo height)

instance {params : Params} {coins : CCoinsView} {block : CBlock} {undo : CBlockUndo}
    {height : ℕ} : Decidable (Orderly params coins block undo height) :=
  decidable_of_iff ((recordSteps delegEntries block undo height).Pairwise NotLate ∧
      (∀ N ∈ createdAll (recordSteps (payoutEntries params) block undo height),
        ∀ E ∈ coins.toList.flatMap (payoutEntries params), E.key = N.key →
          E ∈ spentAll (recordSteps (payoutEntries params) block undo height)) ∧
      (recordSteps (payoutEntries params) block undo height).Pairwise NotLate)
    ⟨fun h => ⟨h.1, h.2.1, h.2.2⟩, fun h => ⟨h.deleg, h.payout.replaced, h.payout.noLate⟩⟩

section Step

variable {params : Params} {st st' : ChainState} {block : CBlock} {undo : CBlockUndo}

theorem registers_of_stakeItem {e : COutPoint × Coin} {i : StakeItem}
    (hi : stakeItem params e = some i) (hne : i.bls ≠ []) :
    registers params e.2.out = some (i.pubkey, i.bls) := by
  revert hi
  fun_cases stakeItem params e <;> rintro ⟨⟩
  next hstake bls =>
    cases hregistration : parseStakeBlsRegistration e.2.out.scriptPubKey with
    | none => simp [bls, hregistration] at hne
    | some registration => simp [bls, registers, hstake, hregistration]

theorem output_of_createdItems {height : ℕ} {i : StakeItem}
    (hi : i ∈ block.createdItems (stakeItems params) undo height) (hne : i.bls ≠ []) :
    ∃ out ∈ block.outputs, registers params out = some (i.pubkey, i.bls) := by
  rw [createdItems_eq fun _ => stakeItems_of_unspendable] at hi
  obtain ⟨e, he, hi⟩ := mem_flatMap.mp hi
  exact ⟨e.2.out, (output_of_created he).1, registers_of_stakeItem (mem_stakeItems.mp hi) hne⟩

/-- Before a block is spent from, its staking outputs and the old ones still register one
key for each staker. -/
theorem BlockFacts.stakeOk (hfacts : BlockFacts params st st' block undo)
    (hmirrors : Mirrors params st.coins st.registry)
    (hcoins : Unambiguous params st.coins st.registry) :
    StakeOk (st.coins.toList.flatMap (stakeItems params) ++
      block.createdItems (stakeItems params) undo (st.height + 1)) := by
  have hmixed : ∀ i ∈ st.coins.toList.flatMap (stakeItems params),
      ∀ j ∈ block.createdItems (stakeItems params) undo (st.height + 1), i.pubkey = j.pubkey →
        i.bls ≠ [] → j.bls ≠ [] → i.bls = j.bls := by
    intro i hi j hj hkey hbi hbj
    obtain ⟨out, hout, hreg⟩ := output_of_createdItems hj hbj
    have hforce : st.registry.getBls i.pubkey = i.bls := by
      unfold StakeRegistry.getBls
      split
      · next b hb => exact hcoins.configKey i hi hbi b hb
      · rw [ExtTreeMap.getD_eq_getD_getElem?,
          (hmirrors.stake.bls i.pubkey i.bls).mpr ⟨hbi, i, hi, rfl, rfl⟩, Option.getD_some]
    rw [hkey] at hforce
    rcases (hfacts.bls out hout _ _ hreg).1 with hnone | hsame
    · exact absurd (hforce.symm.trans hnone) hbi
    · rw [← hforce, hsame]
  refine ⟨fun i hi => ?_, fun i hi j hj hkey hbi hbj => ?_⟩
  · rw [createdItems_eq fun _ => stakeItems_of_unspendable, ← flatMap_append] at hi
    exact amount_pos_of_mem hi
  · rcases mem_append.mp hi with hi | hi <;> rcases mem_append.mp hj with hj | hj
    · exact hcoins.oneKey i hi j hj hkey hbi hbj
    · exact hmixed i hi j hj hkey hbi hbj
    · exact (hmixed j hj i hi hkey.symm hbj hbi).symm
    · obtain ⟨out, hout, hreg⟩ := output_of_createdItems hi hbi
      obtain ⟨out', hout', hreg'⟩ := output_of_createdItems hj hbj
      exact ((hfacts.bls out hout _ _ hreg).2 out' hout' _ (hkey ▸ hreg')).symm

theorem BlockFacts.potOk (hfacts : BlockFacts params st st' block undo) :
    PotOk (st.coins.toList.flatMap (potItems params) ++
      block.createdItems (potItems params) undo (st.height + 1)) := by
  rw [createdItems_eq fun _ => potItems_of_unspendable, ← flatMap_append]
  exact potOk_flatMap hfacts.connected.nodup

theorem Mirrors.hasDelegation {coins : CCoinsView} {registry : StakeRegistry}
    (hmirrors : Mirrors params coins registry) :
    ∀ E ∈ coins.toList.flatMap delegEntries, registry.hasDelegation E.key = true := by
  intro E hE
  have htable := hmirrors.deleg E.key
  have hmem : E ∈ recordsAt (coins.toList.flatMap delegEntries) E.key :=
    mem_filter.mpr ⟨hE, by simp⟩
  rcases hrec : recordsAt (coins.toList.flatMap delegEntries) E.key with _ | ⟨x, rest⟩
  · rw [hrec] at hmem
    cases hmem
  · rw [hrec] at htable
    unfold UtxoDeleg.table at htable
    split at htable
    · next signer height hsigner _ =>
      simp [StakeRegistry.hasDelegation, ← ExtTreeMap.isSome_getElem?_eq_contains, hsigner]
    · cases htable

theorem BlockFacts.delegSafe_iff (hfacts : BlockFacts params st st' block undo)
    (hmirrors : Mirrors params st.coins st.registry)
    (hcoins : Unambiguous params st.coins st.registry) :
    Safe (st.coins.toList.flatMap delegEntries)
        (recordSteps delegEntries block undo (st.height + 1)) ↔
      (recordSteps delegEntries block undo (st.height + 1)).Pairwise NotLate :=
  ⟨Safe.noLate, fun horder =>
    ⟨hfacts.deleg_replaced hcoins.deleg hmirrors.hasDelegation, horder⟩⟩

theorem keyed_recordSteps (params : Params) (block : CBlock) (undo : CBlockUndo) (height : ℕ) :
    ∀ s ∈ recordSteps (payoutEntries params) block undo height,
      (∀ e ∈ s.spent, PayoutEntry.Keyed e) ∧ ∀ e ∈ s.created, PayoutEntry.Keyed e := by
  intro s hs
  obtain ⟨p, -, rfl⟩ := mem_map.mp hs
  exact ⟨keyed_of_mem params _, keyed_of_mem params _⟩

theorem BlockFacts.mirrors (hfacts : BlockFacts params st st' block undo)
    (hmirrors : Mirrors params st.coins st.registry)
    (hcoins : Unambiguous params st.coins st.registry)
    (horderly : Orderly params st.coins block undo (st.height + 1)) :
    Mirrors params st'.coins st'.registry ∧ Unambiguous params st'.coins st'.registry := by
  have hdelta := hfacts.connected.delta_flatMap (g := stakeItems params)
    fun _ => stakeItems_of_unspendable
  have hstakeOk := hfacts.stakeOk hmirrors hcoins
  have hdelegSafe := (hfacts.delegSafe_iff hmirrors hcoins).mpr horderly.deleg
  obtain ⟨hdeleg, hdelegUnique⟩ :=
    (hfacts.delegBatch hcoins.deleg).represents_applySteps hdelegSafe hmirrors.deleg
  obtain ⟨hpayout, hpayoutUnique⟩ :=
    (hfacts.payoutBatch hcoins.payout).represents_applySteps horderly.payout hmirrors.payout
  obtain ⟨hdelegWf, hdelegTable⟩ := UtxoDeleg.table_applySteps hmirrors.deleg_wf
    (recordSteps delegEntries block undo (st.height + 1))
  obtain ⟨hrows, hpayoutTable⟩ := payoutTable_applySteps hmirrors.payout_rows
    (keyed_recordSteps params block undo (st.height + 1))
  have hnewItem : ∀ i ∈ st'.coins.toList.flatMap (stakeItems params),
      i ∈ st.coins.toList.flatMap (stakeItems params) ++
        block.createdItems (stakeItems params) undo (st.height + 1) :=
    fun i hi => hdelta.subset (mem_append_left _ hi)
  have hbls : st'.registry.bls = st.registry.bls := by
    rw [hfacts.registry, StakeRegistry.posApplyBlockStake_eq]
  constructor
  · rw [hfacts.registry, StakeRegistry.posApplyBlockStake_eq]
    refine ⟨stakeSummary.rep_batch hstakeOk hdelta hmirrors.stake,
      potSummary.rep_batch hfacts.potOk
        (hfacts.connected.delta_flatMap fun _ => potItems_of_unspendable) hmirrors.pot,
      hdelegWf, ?_, hrows, ?_⟩
    · simpa only [hdelegTable] using hdeleg
    · simpa only [hpayoutTable] using hpayout
  · refine ⟨hdelegUnique, hpayoutUnique, fun i hi j hj =>
      hstakeOk.oneKey i (hnewItem i hi) j (hnewItem j hj), ?_, ?_⟩
    · intro i hi hne b hb
      rw [hbls] at hb
      rcases mem_append.mp (hnewItem i hi) with hi | hi
      · exact hcoins.configKey i hi hne b hb
      · obtain ⟨out, hout, hreg⟩ := output_of_createdItems hi hne
        have hforce := (hfacts.bls out hout _ _ hreg).1
        simp only [StakeRegistry.getBls, hb] at hforce
        exact hforce.resolve_left (hcoins.configKey_ne _ b hb)
    · rw [hbls]
      exact hcoins.configKey_ne

end Step

section Run

variable (params : Params) (crypto : Crypto)

def ChainState.connectBlocks : ChainState → List CBlock → Except Invalid ChainState
  | st, [] => .ok st
  | st, block :: blocks => do
    let (st, _) ← st.connectBlock params crypto block
    ChainState.connectBlocks st blocks

def OrderlyRun : ChainState → List CBlock → Prop
  | _, [] => True
  | st, block :: blocks => ∀ st' undo, st.connectBlock params crypto block = .ok (st', undo) →
      Orderly params st.coins block undo (st.height + 1) ∧ OrderlyRun st' blocks

variable {params crypto}

theorem posHardeningActiveAt_succ {height : ℕ}
    (hactive : params.posHardeningActiveAt height = true) :
    params.posHardeningActiveAt (height + 1) = true := by
  simp only [Params.posHardeningActiveAt, Bool.and_eq_true, decide_eq_true_eq] at hactive ⊢
  omega

theorem connectBlocks_mirrors {st st' : ChainState} {blocks : List CBlock}
    (hcommittee : params.posPublicCommittee = true)
    (hactive : params.posHardeningActiveAt (st.height + 1) = true)
    (hmirrors : Mirrors params st.coins st.registry)
    (hcoins : Unambiguous params st.coins st.registry)
    (hrun : st.connectBlocks params crypto blocks = .ok st')
    (horderly : OrderlyRun params crypto st blocks) :
    Mirrors params st'.coins st'.registry ∧ Unambiguous params st'.coins st'.registry := by
  induction blocks generalizing st with
  | nil =>
    cases hrun
    exact ⟨hmirrors, hcoins⟩
  | cons block blocks ih =>
    obtain ⟨⟨st₁, undo⟩, hblock, hrest⟩ := Checks.bind_eq_ok.mp hrun
    obtain ⟨hfirst, hrestOrderly⟩ := horderly st₁ undo hblock
    have hfacts := ChainState.connectBlock_ok hcommittee hactive hblock
    obtain ⟨hmirrors₁, hcoins₁⟩ := hfacts.mirrors hmirrors hcoins hfirst
    refine ih ?_ hmirrors₁ hcoins₁ hrest hrestOrderly
    rw [hfacts.height]
    exact posHardeningActiveAt_succ hactive

/-- From the hardening height on, a node that connected orderly blocks one by one has the
registry that a node restarted on the resulting UTXO set rebuilds, in whatever order the
cursor enumerates the coins. -/
theorem restarted_node_agrees {st st' : ChainState} {blocks : List CBlock}
    (hcommittee : params.posPublicCommittee = true)
    (hactive : params.posHardeningActiveAt (st.height + 1) = true)
    (hcoins : Unambiguous params st.coins st.registry)
    (hstart : st.registry.rebuildUtxoStake params st.coins.toList = st.registry)
    (hrun : st.connectBlocks params crypto blocks = .ok st')
    (horderly : OrderlyRun params crypto st blocks)
    (cursor : List (COutPoint × Coin)) (hcursor : cursor.Perm st'.coins.toList) :
    st'.registry.rebuildUtxoStake params cursor = st'.registry := by
  have hmirrors : Mirrors params st.coins st.registry :=
    hstart ▸ mirrors_rebuild hcoins (List.Perm.refl _)
  obtain ⟨hmirrors', hcoins'⟩ :=
    connectBlocks_mirrors hcommittee hactive hmirrors hcoins hrun horderly
  exact (mirrors_rebuild hcoins' hcursor).unique hmirrors' (setUtxoStake_config _ _).1
    (setUtxoStake_config _ _).2

end Run

/-- A chain past its hardening height. -/
def sampleParams : Params where
  maxMoney := 40000000000000000
  policyAsset := 1
  conPos := true
  posPublicCommittee := true
  posCommitteeSize := 3
  posMinStake := 0
  posSlotInterval := 60
  posUnbondingPeriod := 100
  posPayoutNotice := 10
  posSplitEpoch := 1440
  posHardeningHeight := 10
  posRecordsV2Height := 10
  splitPayoutHeight := 0
  splitPayoutChainGenesis := 0
  hashGenesisBlock := 5
  supervisionHeight := 10
  peggedAsset := 1
  subsidyAsset := 1
  blockSubsidy _ := 0

/-- Primitives that are never consulted by blocks without hashes or registrations. -/
def sampleCrypto : Crypto where
  sha256 _ := []
  hash160 _ := []
  blsVerifyPossession _ _ := false
  blsFastAggregateVerify _ _ _ := false
  verifySchnorr _ _ _ := false
  fastMerkleRoot _ := 0

/-- The base point of the curve as a key. -/
def sampleController : CPubKey :=
  ⟨2 :: beBytes 32 0x79be667ef9dcbbac55a06295ce870b07029bfcdb2dce28d959f2815b16f81798⟩

/-- Twice the base point as a key. -/
def sampleSigner : CPubKey :=
  ⟨2 :: beBytes 32 0xc6047f9441ed7d6d3045406e95c07cd85c778e4b8cef3ca7abac09b95c709ee5⟩

/-- Three times the base point as a key. -/
def sampleSigner' : CPubKey :=
  ⟨2 :: beBytes 32 0xf9308a019258c31049344f85f89d5229b531c845836f99b08601f113bce036f9⟩

/-- An output of a thousand units. -/
def sampleOut (script : CScript) : CTxOut := ⟨.explicit 1, .explicit 1000, script⟩

/-- The controller's delegation record and a coin that pays to its key. -/
def sampleCoins : CCoinsView :=
  (∅ : CCoinsView).insert ⟨100, 0⟩
      ⟨sampleOut (buildDelegationScript sampleController sampleSigner), 12, false⟩
    |>.insert ⟨101, 0⟩
      ⟨sampleOut (pushBytes sampleController.vch ++ [opCheckSig]), 12, false⟩

/-- The state of a node that has rebuilt its registry from these coins. -/
def sampleStart : ChainState :=
  ⟨19, sampleCoins, StakeRegistry.empty.rebuildUtxoStake sampleParams sampleCoins.toList⟩

/-- A coinbase without outputs. -/
def sampleCoinbase : CTransaction where
  txid := 200
  vin := [{ prevout := ⟨0, COutPoint.nullIndex⟩ }]
  vout := []

/-- The delegation record of the controller with its marker pushed by `OP_PUSHDATA1`. -/
def twinScript : CScript :=
  opPushData1 :: buildDelegationScript sampleController sampleSigner

/-- The controller creates the twin first and spends the old record afterwards. -/
def twinBlock : CBlock where
  vtx := [sampleCoinbase,
    { txid := 201, vin := [{ prevout := ⟨101, 0⟩ }], vout := [sampleOut twinScript] },
    { txid := 202, vin := [{ prevout := ⟨100, 0⟩ }],
      vout := [sampleOut (pushBytes sampleController.vch ++ [opCheckSig])] }]
  txids_nodup := by decide

/-- The controller rotates its delegation to another signer. -/
def rotationBlock : CBlock where
  vtx := [sampleCoinbase,
    { txid := 201, vin := [{ prevout := ⟨100, 0⟩ }],
      vout := [sampleOut (buildDelegationScript sampleController sampleSigner')] }]
  txids_nodup := by decide

theorem sampleStart_rebuilt :
    sampleStart.registry.rebuildUtxoStake sampleParams sampleStart.coins.toList =
      sampleStart.registry := by
  rw [sampleStart]
  generalize sampleCoins.toList = cursor
  rfl

/-- The twin passes every rule, since its script is not the spent one. The running node
then drops the controller's delegation, and a restarted node still finds it. -/
theorem twin_record_splits_nodes :
    sampleParams.posHardeningActiveAt (sampleStart.height + 1) = true ∧
    sampleStart.registry.rebuildUtxoStake sampleParams sampleStart.coins.toList =
      sampleStart.registry ∧
    ∃ st', sampleStart.connectBlocks sampleParams sampleCrypto [twinBlock] = .ok st' ∧
      st'.registry.hasDelegation sampleController = false ∧
      (st'.registry.rebuildUtxoStake sampleParams st'.coins.toList).hasDelegation
        sampleController = true ∧
      st'.registry.rebuildUtxoStake sampleParams st'.coins.toList ≠ st'.registry := by
  refine ⟨by decide, sampleStart_rebuilt, ?_⟩
  obtain ⟨st', hst', hrun⟩ := Checks.exists_ok
    (sampleStart.connectBlocks sampleParams sampleCrypto [twinBlock])
    (fun st' => !st'.registry.hasDelegation sampleController &&
      (st'.registry.rebuildUtxoStake sampleParams st'.coins.toList).hasDelegation
        sampleController) (by decide +kernel)
  simp only [Bool.and_eq_true, Bool.not_eq_true'] at hrun
  exact ⟨st', hst', hrun.1, hrun.2, fun heq => by simp [heq, hrun.1] at hrun⟩

theorem sampleStart_unambiguous :
    Unambiguous sampleParams sampleStart.coins sampleStart.registry where
  deleg := uniqueKeys_of_nodup (by decide +kernel)
  payout := uniqueKeys_of_nodup (by decide +kernel)
  oneKey := by
    have hnil : sampleStart.coins.toList.flatMap (stakeItems sampleParams) = [] := by
      decide +kernel
    simp [hnil]
  configKey := by
    have hnil : sampleStart.coins.toList.flatMap (stakeItems sampleParams) = [] := by
      decide +kernel
    simp [hnil]
  configKey_ne := by
    intro k b hb
    exact absurd hb (by simp [sampleStart, StakeRegistry.rebuildUtxoStake,
      StakeRegistry.setUtxoStake, StakeRegistry.empty])

theorem rotation_orderlyRun : OrderlyRun sampleParams sampleCrypto sampleStart [rotationBlock] := by
  intro st' undo hblock
  have hcheck : (match sampleStart.connectBlock sampleParams sampleCrypto rotationBlock with
      | .ok (_, undo) => decide (Orderly sampleParams sampleStart.coins rotationBlock undo
          (sampleStart.height + 1))
      | .error _ => false) = true := by decide +kernel
  rw [hblock] at hcheck
  exact ⟨of_decide_eq_true hcheck, trivial⟩

/-- After a rotation, running and restarted nodes agree. -/
theorem restarted_node_agrees_rotation :
    ∃ st', sampleStart.connectBlocks sampleParams sampleCrypto [rotationBlock] = .ok st' ∧
      ∀ cursor : List (COutPoint × Coin), cursor.Perm st'.coins.toList →
        st'.registry.rebuildUtxoStake sampleParams cursor = st'.registry := by
  cases hrun : sampleStart.connectBlocks sampleParams sampleCrypto [rotationBlock] with
  | error e =>
    have hok : (sampleStart.connectBlocks sampleParams sampleCrypto
        [rotationBlock]).toOption.isSome = true := by decide +kernel
    simp [hrun, Except.toOption] at hok
  | ok st' =>
    exact ⟨st', rfl, restarted_node_agrees rfl (by decide) sampleStart_unambiguous
      sampleStart_rebuilt hrun rotation_orderlyRun⟩

end Sequentia
