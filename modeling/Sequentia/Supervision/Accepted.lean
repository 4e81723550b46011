import Sequentia.CoinsReaders
import Sequentia.Lib.Checks
import Sequentia.Supervision.Connect
import Sequentia.Supervision.Scripts

/-!
# What an accepted block satisfies

The checks of a block that connects, read back as facts: what its outputs and the coins it
spends say about supervision is admitted by the registry that the parent left.
-/

namespace Sequentia

open Std Checks List

variable {env : ChainEnv}

/-- The checks behind a block that connects. -/
structure AcceptedBlock (env : ChainEnv) (st : SupervisedState) (block : CBlock)
    (st' : SupervisedState) (undo : CBlockUndo) : Prop where
  transactions : ∀ tx ∈ block.vtx, checkTransaction env.params tx = .ok ()
  coins : connectCoins st.coins (st.height + 1) block = .ok (st'.coins, undo)
  /-- The inputs are in order, and the coinbase pays no more than the reward. -/
  inputs : ∃ feeMap : CAmountMap,
    (block.vtx.tail.zip undo).foldlM (fun feeMap p =>
      checkTxInputs env st.registry (st.height + 1) feeMap p.1 p.2) ∅ = .ok feeMap ∧
    checkCoinbase env block feeMap (st.height + 1) = .ok ()
  declarations : checkDeclarationSpend undo = .ok ()
  hardening : env.params.posHardeningActiveAt (st.height + 1) = true →
    checkSupervisionHardening block undo = .ok ()
  height : st'.height = st.height + 1
  registry : st'.registry = env.applySupervision st.registry block undo (st.height + 1)

structure HardenedBlock (env : ChainEnv) (st : SupervisedState) (block : CBlock)
    (st' : SupervisedState) (undo : CBlockUndo) : Prop
    extends AcceptedBlock env st block st' undo where
  active : env.params.supervisionActive (st.height + 1) = true
  hardened : env.params.posHardeningActiveAt (st.height + 1) = true

theorem acceptedBlock_of_connectBlock {st st' : SupervisedState} {block : CBlock}
    {undo : CBlockUndo} (hconnect : st.connectBlock env block = .ok (st', undo)) :
    AcceptedBlock env st block st' undo := by
  unfold SupervisedState.connectBlock at hconnect
  obtain ⟨⟨⟩, htxs, hconnect⟩ := bind_eq_ok.mp hconnect
  split at hconnect
  · cases hconnect
  · next coins undo' hcoins =>
    simp only [bind_eq_ok] at hconnect
    obtain ⟨feeMap, hinputs, ⟨⟩, hdeclarations, hconnect⟩ := hconnect
    have hfinal : (checkSupervisionHardening block undo' = .ok () ∨
        env.params.posHardeningActiveAt (st.height + 1) = false) ∧
        checkCoinbase env block feeMap (st.height + 1) = .ok () ∧
        (⟨st.height + 1, coins,
          env.applySupervision st.registry block undo' (st.height + 1)⟩, undo') = (st', undo) := by
      split at hconnect
      · obtain ⟨⟨⟩, hhardening, hconnect⟩ := bind_eq_ok.mp hconnect
        obtain ⟨⟨⟩, hcoinbase, hok⟩ := bind_eq_ok.mp hconnect
        exact ⟨Or.inl hhardening, hcoinbase, Except.ok.inj hok⟩
      · next hinactive =>
        obtain ⟨⟨⟩, hcoinbase, hok⟩ := bind_eq_ok.mp hconnect
        exact ⟨Or.inr (by simpa using hinactive), hcoinbase, Except.ok.inj hok⟩
    obtain ⟨hhardening, hcoinbase, heq⟩ := hfinal
    obtain ⟨rfl, rfl⟩ := Prod.mk.inj heq
    exact
      { transactions := forM_eq_ok.mp htxs
        coins := hcoins
        inputs := ⟨feeMap, hinputs, hcoinbase⟩
        declarations := hdeclarations
        hardening := fun hactive => hhardening.resolve_right (by simp [hactive])
        height := rfl
        registry := rfl }

/-- The checks behind a transaction whose inputs are in order. -/
structure AcceptedInputs (env : ChainEnv) (registry : SupervisionRegistry) (nSpendHeight : ℕ)
    (feeMap : CAmountMap) (tx : CTransaction) (spent : List Coin) (feeMap' : CAmountMap) :
    Prop where
  inputs : ∀ p ∈ (tx.vin.zip spent).zipIdx, checkInput env registry nSpendHeight p = .ok ()
  fee : hasValidFee env.params tx = true
  amounts : ∃ supervision, checkSupervision env registry nSpendHeight tx spent = .ok supervision ∧
    verifyAmounts env.params env.crypto env.amounts
      ((tx.vin.zip spent).filterMap fun p => env.spentOutput p.1 p.2) tx
      (env.params.supervisionActive nSpendHeight) supervision = true
  fees : feeMap' = addFeeMap feeMap tx
  feeRange : CAmountMap.moneyRange env.params feeMap' = true

variable {registry : SupervisionRegistry} {tx : CTransaction} {spent : List Coin}
  {decl : SupervisionDeclaration} {declaration : Option SupervisionDeclaration}
  {record : SupervisionRecord}

theorem acceptedInputs_of_checkTxInputs {nSpendHeight : ℕ} {feeMap feeMap' : CAmountMap}
    (hcheck : checkTxInputs env registry nSpendHeight feeMap tx spent = .ok feeMap') :
    AcceptedInputs env registry nSpendHeight feeMap tx spent feeMap' := by
  unfold checkTxInputs at hcheck
  simp only [bind_eq_ok, ite_error_eq_ok] at hcheck
  obtain ⟨⟨⟩, hinputs, hfee, supervision, hsupervision, hamounts, hrange, hok⟩ := hcheck
  cases hok
  exact
    { inputs := forM_eq_ok.mp hinputs
      fee := by simpa using hfee
      amounts := ⟨supervision, hsupervision, by simpa using hamounts⟩
      fees := rfl
      feeRange := by simpa using hrange }

theorem rejectAs_eq_ok {α : Type} {reason : String} {check : Except String α} :
    rejectAs reason check = .ok () ↔ ∃ a, check = .ok a := by
  cases check <;> simp [rejectAs]

/-- The supervision rules behind a transaction, once supervision is active. -/
structure SupervisedTx (env : ChainEnv) (registry : SupervisionRegistry) (tx : CTransaction)
    (spent : List Coin) (declaration : Option SupervisionDeclaration) : Prop where
  fromTx : supervisionFromTx tx = .ok declaration
  issuance : ∀ decl ∈ declaration, ∃ entropy,
    checkSupervisedIssuance env.crypto decl tx = .ok entropy
  records : checkSupervisionRecords env.crypto registry tx = .ok ()
  reissuance : ∀ txin ∈ tx.vin, reissuesSupervised env registry txin = true →
    txin.assetIssuance.nAmount.isExplicit = true
  /-- A transaction that moves a supervised asset hides nothing. -/
  explicit : touchesSupervised env registry tx spent = true → ∀ out ∈ tx.vout,
    out.nAsset.isExplicit = true ∧ out.nValue.isExplicit = true

theorem supervisedTx_of_checkSupervision {nSpendHeight : ℕ}
    {supervision : Option SupervisionDescriptor}
    (hactive : env.params.supervisionActive nSpendHeight = true)
    (hcheck : checkSupervision env registry nSpendHeight tx spent = .ok supervision) :
    ∃ declaration, SupervisedTx env registry tx spent declaration ∧
      supervision = declaration.map SupervisionDeclaration.descriptor := by
  unfold checkSupervision at hcheck
  rw [if_neg (by simp [hactive])] at hcheck
  split at hcheck
  · cases hcheck
  · next declaration hfrom =>
    simp only [bind_eq_ok, ite_error_eq_ok, Except.ok.injEq] at hcheck
    obtain ⟨⟨⟩, hissuance, ⟨⟩, hrecords, hreissuance, hexplicit, rfl⟩ := hcheck
    refine ⟨declaration, ⟨hfrom, ?_, ?_, ?_, ?_⟩, rfl⟩
    · intro decl hdecl
      rw [forM_eq_ok] at hissuance
      exact rejectAs_eq_ok.mp (hissuance decl (by simpa using hdecl))
    · obtain ⟨⟨⟩, hok⟩ := rejectAs_eq_ok.mp hrecords
      exact hok
    · intro txin htxin hreissues
      by_contra hblinded
      exact hreissuance (any_eq_true.mpr ⟨txin, htxin, by simp [hreissues, hblinded]⟩)
    · intro htouches out hout
      by_contra hblinded
      refine hexplicit ?_
      rw [htouches, Bool.true_and]
      refine any_eq_true.mpr ⟨out, hout, ?_⟩
      rcases not_and_or.mp hblinded with hasset | hvalue
      · simp [hasset]
      · simp [hvalue]

theorem isSupervised_iff {r : SupervisionRegistry} {asset : CAsset} :
    r.isSupervised asset = true ↔ asset ∈ r := ExtTreeMap.mem_iff_contains.symm

/-- What a script of an output satisfies, given the registry of the parent block. -/
def SupervisionScript.Admitted (r : SupervisionRegistry) : SupervisionScript → Prop
  | .other => True
  | .declaration decl => validateSupervisionDescriptor decl.descriptor = .ok ()
  | .freeze asset _ => asset ∈ r
  | .rotation asset role oldKey newKey =>
    ∃ entry, r[asset]? = some entry ∧ entry.key role = oldKey ∧ newKey ≠ oldKey ∧
      entry.key (!role) ≠ newKey

theorem readScript_eq_declaration {script : CScript} :
    readScript script = .declaration decl ↔ parseSupervisionScript script = some decl := by
  fun_cases readScript script <;> simp [*]

theorem SupervisedTx.declaration_eq (htx : SupervisedTx env registry tx spent declaration)
    (hdecl : decl ∈ tx.declarations) : declaration = some decl := by
  have hfrom := htx.fromTx
  revert hfrom
  fun_cases supervisionFromTx tx <;> rintro ⟨⟩ <;> simp_all

theorem readScript_of_record {script : CScript}
    (hrecord : parseSupervisionRecordScript script = some record) : readScript script =
      if record.isRotation then
        .rotation record.asset record.operationalRole record.oldKey record.newKey
      else .freeze record.asset record.target := by
  have hdecl : parseSupervisionScript script = none := by
    by_contra hne
    obtain ⟨decl, hdecl⟩ := Option.ne_none_iff_exists'.mp hne
    rw [parseSupervisionRecordScript_of_declaration hdecl] at hrecord
    cases hrecord
  unfold readScript SupervisionRecord.isRotation
  rw [hdecl, hrecord]
  dsimp only
  cases record.kind <;> rfl

theorem length_filterMap_rotates (scripts : List CScript) (a : CAsset) (role : Bool) :
    ((scripts.map readScript).filterMap (SupervisionScript.rotates a role)).length =
      (scripts.filterMap rotationSlot).count (a, role) := by
  induction scripts with
  | nil => rfl
  | cons script scripts ih =>
    cases hrecord : parseSupervisionRecordScript script with
    | none =>
      have hnone : SupervisionScript.rotates a role (readScript script) = none := by
        unfold readScript
        rw [hrecord]
        cases parseSupervisionScript script <;> rfl
      have hslot : rotationSlot script = none := by rw [rotationSlot, hrecord]
      rwa [map_cons, filterMap_cons_none hnone, filterMap_cons_none hslot]
    | some record =>
      rw [map_cons, filterMap_cons, filterMap_cons, readScript_of_record hrecord, rotationSlot,
        hrecord]
      by_cases hrotation : record.isRotation = true
      · by_cases heq : record.asset = a ∧ record.operationalRole = role
        · simpa [SupervisionScript.rotates, hrotation, heq] using ih
        · have hne : (record.asset, record.operationalRole) ≠ (a, role) :=
            fun h => heq (Prod.mk.inj h)
          simpa [SupervisionScript.rotates, hrotation, heq, count_cons_of_ne hne] using ih
      · simpa [SupervisionScript.rotates, hrotation] using ih

theorem admitted_of_checkRotation (hrotation : record.isRotation = true)
    (hcheck : checkRotation registry record = .ok ()) :
    (SupervisionScript.rotation record.asset record.operationalRole record.oldKey
      record.newKey).Admitted registry := by
  unfold checkRotation at hcheck
  rw [if_neg (by simp [hrotation])] at hcheck
  simp only [ite_error_eq_ok] at hcheck
  obtain ⟨hold, -, hnew, hother, -⟩ := hcheck
  rw [SupervisionRegistry.currentKey] at hold hother
  obtain ⟨entry, hentry, hkey⟩ := Option.map_eq_some_iff.mp (not_not.mp hold)
  exact ⟨entry, hentry, hkey, hnew, fun heq => hother (by rw [hentry, Option.map_some, heq])⟩

theorem admitted_of_checkSupervisionRecord {firstInput : COutPoint} {out : CTxOut}
    (hrecord : parseSupervisionRecordScript out.scriptPubKey = some record)
    (hcheck : checkSupervisionRecord env.crypto registry firstInput out = .ok ()) :
    (readScript out.scriptPubKey).Admitted registry ∧
      out.explicit? = some (record.asset, 0) := by
  unfold checkSupervisionRecord at hcheck
  rw [hrecord] at hcheck
  simp only [ite_error_eq_ok] at hcheck
  obtain ⟨hsupervised, hcheck⟩ := hcheck
  split at hcheck
  · cases hcheck
  · simp only [bind_eq_ok, ite_error_eq_ok] at hcheck
    obtain ⟨⟨⟩, hrotation, -, -, hvalue, -⟩ := hcheck
    refine ⟨?_, not_not.mp hvalue⟩
    rw [readScript_of_record hrecord]
    split
    · next hrotates => exact admitted_of_checkRotation hrotates hrotation
    · exact isSupervised_iff.mp (by simpa using hsupervised)

theorem SupervisedTx.admitted (htx : SupervisedTx env registry tx spent declaration) {out : CTxOut}
    (hout : out ∈ tx.vout) : (readScript out.scriptPubKey).Admitted registry := by
  cases hrecord : parseSupervisionRecordScript out.scriptPubKey with
  | some record =>
    have hrecords := htx.records
    unfold checkSupervisionRecords at hrecords
    split at hrecords
    · cases hrecords
    · exact (admitted_of_checkSupervisionRecord hrecord (forM_eq_ok.mp hrecords out hout)).1
  | none =>
    cases hdecl : parseSupervisionScript out.scriptPubKey with
    | none =>
      unfold readScript
      rw [hdecl, hrecord]
      trivial
    | some decl =>
      rw [readScript_eq_declaration.mpr hdecl]
      have hdeclaration := htx.declaration_eq (mem_filterMap.mpr ⟨out, hout, hdecl⟩)
      obtain ⟨entropy, hissuance⟩ := htx.issuance decl hdeclaration
      obtain ⟨⟨⟩, hvalidate, -⟩ := bind_eq_ok.mp hissuance
      exact hvalidate

theorem pairUndo_eq_zip {txs : List CTransaction} {undos : List CTxUndo}
    (hlength : undos.length = txs.length) : pairUndo txs undos = txs.zip undos := by
  induction txs generalizing undos with
  | nil => simp [pairUndo]
  | cons tx txs ih =>
    cases undos with
    | nil => cases hlength
    | cons undo undos => rw [pairUndo, ih (Nat.succ.inj hlength), zip_cons_cons]

section Blocks

variable {st st' : SupervisedState} {block : CBlock} {undo : CBlockUndo}

theorem AcceptedBlock.connected (haccepted : AcceptedBlock env st block st' undo) :
    Connected st.coins st'.coins (st.height + 1) block undo :=
  connected_of_connectCoins haccepted.coins

/-- The transactions of a block with the coins they spend: the coinbase, which spends none,
and the others. -/
theorem Connected.spends_eq {view view' : CCoinsView} {nHeight : ℕ}
    (hconnected : Connected view view' nHeight block undo) :
    ∃ coinbase, block.vtx = coinbase :: block.vtx.tail ∧
      block.spends undo = (coinbase, []) :: block.vtx.tail.zip undo := by
  obtain ⟨coinbase, txs, hvtx⟩ := hconnected.coinbase
  have hlength := hconnected.undo_length
  rw [hvtx] at hlength
  refine ⟨coinbase, by rw [hvtx, tail_cons], ?_⟩
  rw [CBlock.spends, hvtx, pairUndo, pairUndo_eq_zip (Nat.succ.inj hlength), tail_cons]

variable (haccepted : AcceptedBlock env st block st' undo)

include haccepted

/-- Every transaction but the coinbase passed the check of its inputs. -/
theorem AcceptedBlock.acceptedInputs : ∀ p ∈ block.vtx.tail.zip undo, ∃ feeMap feeMap',
      AcceptedInputs env st.registry (st.height + 1) feeMap p.1 p.2 feeMap' := by
  obtain ⟨feeMap, hfold, -⟩ := haccepted.inputs
  exact foldlM_forall (fun feeMap p feeMap' hcheck =>
    ⟨feeMap, feeMap', acceptedInputs_of_checkTxInputs hcheck⟩) hfold

/-- Every transaction but the coinbase obeys the supervision rules. -/
theorem AcceptedBlock.supervisedTx (hactive : env.params.supervisionActive (st.height + 1) = true) :
    ∀ p ∈ block.vtx.tail.zip undo, ∃ declaration,
      SupervisedTx env st.registry p.1 p.2 declaration := by
  intro p hp
  obtain ⟨feeMap, feeMap', hinputs⟩ := haccepted.acceptedInputs p hp
  obtain ⟨supervision, hsupervision, -⟩ := hinputs.amounts
  obtain ⟨declaration, htx, -⟩ := supervisedTx_of_checkSupervision hactive hsupervision
  exact ⟨declaration, htx⟩

theorem AcceptedBlock.length_rotates_le
    (hhardening : env.params.posHardeningActiveAt (st.height + 1) = true) (a : CAsset)
    (role : Bool) : (block.created.filterMap (SupervisionScript.rotates a role)).length ≤ 1 := by
  have hchecks := haccepted.hardening hhardening
  simp only [checkSupervisionHardening, ite_error_eq_ok] at hchecks
  have hnodup := not_not.mp hchecks.2.2.1
  rw [CBlock.created, length_filterMap_rotates]
  exact nodup_iff_count_le_one.mp hnodup (a, role)

/-- A coin that a block spends passed the check of its input, or is the empty coin of a
peg-in. -/
theorem AcceptedBlock.checkInput_of_mem
    {coin : Coin} (hcoin : coin ∈ undo.flatten) : coin = Coin.null ∨
      ∃ i txin, checkSupervisedSpend env st.registry (st.height + 1) i txin coin = .ok () := by
  obtain ⟨u, hu, hcoin⟩ := mem_flatten.mp hcoin
  obtain ⟨coinbase, -, hspends⟩ := haccepted.connected.spends_eq
  have hlength : undo.length ≤ block.vtx.tail.length := by
    have := haccepted.connected.undo_length
    rw [length_tail]
    omega
  rw [← map_snd_zip hlength] at hu
  obtain ⟨⟨tx, u⟩, hp, rfl⟩ := mem_map.mp hu
  have hundoOf := haccepted.connected.undoOf (tx, u) (hspends ▸ mem_cons_of_mem _ hp)
  rw [← map_snd_zip hundoOf.length_le] at hcoin
  obtain ⟨⟨txin, coin⟩, hmem, rfl⟩ := mem_map.mp hcoin
  by_cases hpegin : txin.isPegin = true
  · exact Or.inl (hundoOf.pegin_null _ hmem hpegin)
  · obtain ⟨feeMap, feeMap', hinputs⟩ := haccepted.acceptedInputs _ hp
    obtain ⟨i, hi⟩ := mem_iff_getElem?.mp hmem
    have hcheck := hinputs.inputs _ (mk_mem_zipIdx_iff_getElem?.mpr hi)
    simp only [checkInput, if_neg hpegin, ite_error_eq_ok] at hcheck
    exact Or.inr ⟨i, txin, hcheck.2⟩

omit haccepted

section Hardened

variable (hblock : HardenedBlock env st block st' undo)

include hblock

/-- What a block under the hardening writes is in an output of a supervised transaction: the
coinbase has neither declarations nor records. -/
theorem HardenedBlock.source {s : SupervisionScript} (hs : s ∈ block.created) :
    s = .other ∨ ∃ p ∈ block.vtx.tail.zip undo, ∃ out ∈ p.1.vout,
      readScript out.scriptPubKey = s ∧ ∃ decl, SupervisedTx env st.registry p.1 p.2 decl := by
  have hchecks := hblock.hardening hblock.hardened
  simp only [checkSupervisionHardening, ite_error_eq_ok] at hchecks
  obtain ⟨-, hcoinbase, -, -⟩ := hchecks
  obtain ⟨script, hscript, rfl⟩ := mem_map.mp hs
  obtain ⟨tx, htx, hscript⟩ := mem_flatMap.mp hscript
  obtain ⟨out, hout, rfl⟩ := mem_map.mp hscript
  obtain ⟨coinbase, hvtx, hspends⟩ := hblock.connected.spends_eq
  rw [← map_fst_pairUndo block.vtx ([] :: undo)] at htx
  obtain ⟨p, hp, rfl⟩ := mem_map.mp htx
  rw [← CBlock.spends, hspends] at hp
  rcases mem_cons.mp hp with rfl | hp
  · rw [hvtx] at hcoinbase
    have hnone : parseSupervisionScript out.scriptPubKey = none ∧
        parseSupervisionRecordScript out.scriptPubKey = none := by
      simpa using fun h => hcoinbase (any_eq_true.mpr ⟨coinbase, mem_singleton.mpr rfl,
        any_eq_true.mpr ⟨out, hout, h⟩⟩)
    rw [readScript, hnone.1, hnone.2]
    exact .inl rfl
  · exact .inr ⟨p, hp, out, hout, rfl, hblock.supervisedTx hblock.active p hp⟩

theorem HardenedBlock.admitted : ∀ s ∈ block.created, s.Admitted st.registry := by
  intro s hs
  obtain rfl | ⟨p, -, out, hout, rfl, decl, htx⟩ := hblock.source hs
  · trivial
  · exact htx.admitted hout

end Hardened

/-- What a script of a spent coin satisfies, given the registry of the parent block. -/
def SupervisionScript.Spendable (r : SupervisionRegistry) : SupervisionScript → Prop
  | .other => True
  | .declaration _ => False
  | .freeze asset _ => asset ∈ r
  | .rotation _ _ _ _ => False

/-- A record that may be spent freezes a target of a supervised asset. -/
theorem spendable_of_checkSupervisionRecordSpend {registry : SupervisionRegistry} {txin : CTxIn}
    {out : CTxOut} (hcheck : checkSupervisionRecordSpend env.crypto registry txin out = .ok ())
    (hdecl : parseSupervisionScript out.scriptPubKey = none) :
    (readScript out.scriptPubKey).Spendable registry := by
  unfold checkSupervisionRecordSpend at hcheck
  split at hcheck
  · next hnone =>
    rw [readScript, hdecl, hnone]
    trivial
  · next record hrecord =>
    rw [readScript_of_record hrecord]
    simp only [ite_error_eq_ok] at hcheck
    obtain ⟨hfreeze, hcheck⟩ := hcheck
    rw [if_neg hfreeze]
    split at hcheck
    · cases hcheck
    · next operational hkey =>
      obtain ⟨entry, hentry, -⟩ := Option.map_eq_some_iff.mp hkey
      exact ExtTreeMap.mem_iff_isSome_getElem?.mpr (by rw [hentry]; rfl)

theorem AcceptedBlock.not_declaration (haccepted : AcceptedBlock env st block st' undo)
    {coin : Coin} (hcoin : coin ∈ undo.flatten) :
    parseSupervisionScript coin.out.scriptPubKey = none := by
  have hcheck := haccepted.declarations
  rw [checkDeclarationSpend, ite_error_eq_ok] at hcheck
  simpa using fun h => hcheck.1 (any_eq_true.mpr ⟨coin, hcoin, h⟩)

/-- Once an asset is supervised, the records that a block spends freeze targets of supervised
assets. -/
theorem AcceptedBlock.spendable (haccepted : AcceptedBlock env st block st' undo)
    (hactive : env.params.supervisionActive (st.height + 1) = true)
    (hsupervised : st.registry.isEmpty = false) : ∀ s ∈ undo.spent, s.Spendable st.registry := by
  intro s hs
  obtain ⟨script, hscript, rfl⟩ := mem_map.mp hs
  obtain ⟨coin, hcoin, rfl⟩ := mem_map.mp hscript
  have hdecl := haccepted.not_declaration hcoin
  rcases haccepted.checkInput_of_mem hcoin with rfl | ⟨i, txin, hcheck⟩
  · rw [readScript, hdecl, show parseSupervisionRecordScript Coin.null.out.scriptPubKey = none by rfl]
    trivial
  · rw [checkSupervisedSpend, if_neg (by simp [hactive, hsupervised])] at hcheck
    obtain ⟨⟨⟩, hspend, -⟩ := bind_eq_ok.mp hcheck
    obtain ⟨⟨⟩, hspend⟩ := rejectAs_eq_ok.mp hspend
    exact spendable_of_checkSupervisionRecordSpend hspend hdecl

end Blocks

end Sequentia
