import Sequentia.Supervision.Chain
import Sequentia.Supervision.Mempool

/-!
# What the registry asks of an entry

An entry passes the supervision part of the input checks if the registry allows the spends,
the records and the outputs. A registry that frees targets and supervises more assets keeps
allowing what it allowed, with the exception of hidden outputs in assets that are new to it.
-/

namespace Sequentia

open Std Checks KeyedMap List

/-- What is left after a removal: no entry that was named or that spends an output of one, and
the parents of every entry are still there. -/
theorem removeRecursive_spec {pool : CTxMemPool} {txids : List Uint256} {tx : CTransaction}
    (htx : tx ∈ pool.removeRecursive txids) :
    tx ∈ pool ∧ tx.txid ∉ txids ∧ ∀ txin ∈ tx.vin, txin.prevout.hash ∉ txids ∧
      ∀ t ∈ pool, t.txid = txin.prevout.hash → t ∈ pool.removeRecursive txids := by
  have hsub : (pool.removeRecursive txids).Sublist pool := Replay.passes_sublist _ _ _
  have hstuck : CTxMemPool.dropStep (Replay.passes CTxMemPool.dropStep pool.length txids pool).1
      tx = none := Replay.passes_stuck (Nat.le_refl _) tx htx
  -- The names are among what is dropped, and so is every entry that is gone.
  obtain ⟨hnamed, hgone⟩ :
      txids ⊆ (Replay.passes CTxMemPool.dropStep pool.length txids pool).1 ∧
        ∀ t ∈ pool, t ∈ pool.removeRecursive txids ∨
          t.txid ∈ (Replay.passes CTxMemPool.dropStep pool.length txids pool).1 := by
    refine Replay.passes_invariant
      (fun dropped left => txids ⊆ dropped ∧ ∀ t ∈ pool, t ∈ left ∨ t.txid ∈ dropped)
      (fun dropped l l' hperm h => ⟨h.1, fun t ht => (h.2 t ht).imp_left hperm.mem_iff.mp⟩)
      (fun dropped m left dropped' h hstep => ?_) ⟨List.Subset.refl _, fun t ht => Or.inl ht⟩
    rw [CTxMemPool.dropStep] at hstep
    split at hstep
    · cases hstep
      refine ⟨fun t ht => mem_cons_of_mem _ (h.1 ht), fun t ht => ?_⟩
      rcases h.2 t ht with hleft | hdropped
      · rcases mem_cons.mp hleft with rfl | hleft
        · exact Or.inr mem_cons_self
        · exact Or.inl hleft
      · exact Or.inr (mem_cons_of_mem _ hdropped)
    · cases hstep
  rw [CTxMemPool.dropStep] at hstuck
  split at hstuck
  · cases hstuck
  · next hkept =>
    simp only [Bool.or_eq_true, contains_iff_mem, any_eq_true, not_or, not_exists,
      not_and] at hkept
    refine ⟨hsub.subset htx, fun h => hkept.1 (hnamed h), fun txin htxin =>
      ⟨fun h => hkept.2 txin htxin (hnamed h), fun t ht heq => ?_⟩⟩
    exact (hgone t ht).resolve_right fun h => hkept.2 txin htxin (heq ▸ h)

/-- What is left after a block: no transaction of the block and none that spends one of its
inputs; parents that are gone are in the block. -/
theorem removeForBlock_spec {pool : CTxMemPool} {vtx : List CTransaction} {tx : CTransaction}
    (htx : tx ∈ pool.removeForBlock vtx) :
    tx ∈ pool ∧ (∀ t ∈ vtx, t.txid ≠ tx.txid ∧
        ∀ txin ∈ tx.vin, ∀ txin' ∈ t.vin, txin.prevout ≠ txin'.prevout) ∧
      ∀ txin ∈ tx.vin, ∀ t ∈ pool, t.txid = txin.prevout.hash →
        t ∈ pool.removeForBlock vtx ∨ t.txid ∈ vtx.map CTransaction.txid := by
  induction vtx generalizing pool with
  | nil => exact ⟨htx, fun t ht => (not_mem_nil ht).elim, fun _ _ t ht _ => Or.inl ht⟩
  | cons b vtx ih =>
    rw [CTxMemPool.removeForBlock, foldl_cons] at htx ⊢
    obtain ⟨hmem, hothers, hparents⟩ := ih htx
    obtain ⟨hfiltered, hconflict, hclosed⟩ := removeRecursive_spec hmem
    obtain ⟨hpool, hne⟩ := mem_filter.mp hfiltered
    refine ⟨hpool, forall_mem_cons.mpr ⟨⟨fun h => ?_, fun txin htxin txin' htxin' heq => ?_⟩,
      hothers⟩, fun txin htxin t ht heq => ?_⟩
    · simp [h] at hne
    · refine hconflict (mem_map_of_mem (mem_filter.mpr ⟨hfiltered, ?_⟩))
      rw [Bool.and_eq_true]
      refine ⟨hne, any_eq_true.mpr ⟨txin, htxin, ?_⟩⟩
      rw [contains_iff_mem, heq]
      exact mem_map_of_mem htxin'
    · by_cases hblock : t.txid = b.txid
      · exact Or.inr (by rw [hblock]; exact mem_cons_self)
      · have hkept := (hclosed txin htxin).2 t
          (mem_filter.mpr ⟨ht, by simpa using hblock⟩) heq
        exact (hparents txin htxin t hkept heq).imp_right (mem_cons_of_mem _)

/-- The supervision rules on an entry that spends the given outputs. -/
structure PassesSupervision (env : ChainEnv) (r : SupervisionRegistry) (tx : CTransaction)
    (outs : List CTxOut) : Prop where
  spends : r.isEmpty = false → ∀ p ∈ tx.vin.zip outs, p.1.isPegin = false →
    invalidatesSpend env r p.1 p.2 = false
  declaration : ∃ declaration, supervisionFromTx tx = .ok declaration ∧
    ∀ decl ∈ declaration, ∃ entropy, checkSupervisedIssuance env.crypto decl tx = .ok entropy
  records : checkSupervisionRecords env.crypto r tx = .ok ()
  reissuance : ∀ txin ∈ tx.vin, reissuesSupervised env r txin = true →
    txin.assetIssuance.nAmount.isExplicit = true
  /-- Where a supervised asset moves, nothing is hidden. -/
  explicit : ((∃ p ∈ tx.vin.zip outs, p.1.isPegin = false ∧
      ∃ a ∈ r, p.2.nAsset = .explicit a) ∨ ∃ txin ∈ tx.vin, reissuesSupervised env r txin = true) →
    ∀ out ∈ tx.vout, out.nAsset.isExplicit = true ∧ out.nValue.isExplicit = true

theorem anyFrozen_of_isFrozen {r : SupervisionRegistry} {asset : CAsset} {target : Uint256}
    (hfrozen : r.isFrozen asset target = true) : r.anyFrozen = true := by
  unfold SupervisionRegistry.isFrozen at hfrozen
  split at hfrozen
  · cases hfrozen
  · next entry hentry =>
    refine any_eq_true.mpr ⟨(asset, entry),
      ExtTreeMap.mem_toList_iff_getElem?_eq_some.mpr hentry, ?_⟩
    rw [Bool.not_eq_true', ExtTreeMap.isEmpty_eq_false_iff]
    intro hempty
    have hnone : entry.frozen = ∅ := hempty
    simp [hnone] at hfrozen

variable {env : ChainEnv} {r r' : SupervisionRegistry} {tx : CTransaction}

/-- What a registry that allows a spend says about it. -/
theorem invalidatesSpend_eq_false {txin : CTxIn} {out : CTxOut} :
    invalidatesSpend env r txin out = false ↔
      checkSupervisionRecordSpend env.crypto r txin out = .ok () ∧
        ∀ a, out.nAsset = .explicit a →
          r.isFrozen a (supervisionTargetHash env.crypto out.scriptPubKey) = true →
            isSingleOwnerSpend txin out.scriptPubKey = false := by
  rw [invalidatesSpend, Bool.or_eq_false_iff]
  refine and_congr ?_ ?_
  · cases checkSupervisionRecordSpend env.crypto r txin out <;> simp [Except.isOk, Except.toBool]
  · cases out.nAsset with
    | explicit asset =>
      cases r.isFrozen asset (supervisionTargetHash env.crypto out.scriptPubKey) <;> simp
    | _ => simp

theorem checkSupervisedSpend_iff {height i : ℕ} {txin : CTxIn} {coin : Coin}
    (hactive : env.params.supervisionActive height = true) :
    checkSupervisedSpend env r height i txin coin = .ok () ↔
      (r.isEmpty = false → invalidatesSpend env r txin coin.out = false) := by
  rw [checkSupervisedSpend]
  cases hempty : r.isEmpty with
  | true => simp
  | false =>
    simp only [hactive, Bool.not_true, Bool.or_self, Bool.false_eq_true, if_false, bind_eq_ok,
      forall_const]
    unfold invalidatesSpend
    cases hspend : checkSupervisionRecordSpend env.crypto r txin coin.out with
    | error err => simp [rejectAs, Except.isOk, Except.toBool]
    | ok u =>
      cases hasset : coin.out.nAsset with
      | explicit asset =>
        have hfrozen : r.isFrozen asset
            (supervisionTargetHash env.crypto coin.out.scriptPubKey) = true →
              r.anyFrozen = true := anyFrozen_of_isFrozen
        cases hone : isSingleOwnerSpend txin coin.out.scriptPubKey <;>
          cases htarget : r.isFrozen asset
            (supervisionTargetHash env.crypto coin.out.scriptPubKey) <;>
          simp_all [rejectAs, Except.isOk, Except.toBool]
      | _ => simp [rejectAs, Except.isOk, Except.toBool]

theorem touchesSupervised_iff {spent : List Coin} :
    touchesSupervised env r tx spent = true ↔
      (∃ p ∈ tx.vin.zip (spent.map Coin.out), p.1.isPegin = false ∧
        ∃ a ∈ r, p.2.nAsset = .explicit a) ∨
      ∃ txin ∈ tx.vin, reissuesSupervised env r txin = true := by
  have hspends : ∀ (txin : CTxIn) (coin : Coin), spendsSupervised r txin coin = true ↔
      txin.isPegin = false ∧ ∃ a ∈ r, coin.out.nAsset = .explicit a := by
    intro txin coin
    unfold spendsSupervised
    cases hasset : coin.out.nAsset with
    | explicit a => simp [isSupervised_iff]
    | _ => simp
  rw [touchesSupervised, Bool.or_eq_true, any_eq_true, any_eq_true]
  refine or_congr ⟨?_, ?_⟩ Iff.rfl
  · rintro ⟨p, hp, hsupervised⟩
    obtain ⟨hpegin, a, ha, hasset⟩ := (hspends _ _).mp hsupervised
    refine ⟨(p.1, p.2.out), ?_, hpegin, a, ha, hasset⟩
    rw [zip_map_right]
    exact mem_map.mpr ⟨p, hp, rfl⟩
  · rintro ⟨p, hp, hpegin, a, ha, hasset⟩
    rw [zip_map_right] at hp
    obtain ⟨q, hq, rfl⟩ := mem_map.mp hp
    exact ⟨q, hq, (hspends _ _).mpr ⟨hpegin, a, ha, hasset⟩⟩

/-- The supervision part of the input checks passes exactly if supervision is not active or the
entry passes the rules. -/
theorem checkSupervisionPart_iff {height : ℕ} {spent : List Coin} :
    checkSupervisionPart env r height tx spent = .ok () ↔
      (env.params.supervisionActive height = true →
        PassesSupervision env r tx (spent.map Coin.out)) := by
  have hpart : checkSupervisionPart env r height tx spent = .ok () ↔
      (∀ p ∈ (tx.vin.zip spent).zipIdx, p.1.1.isPegin = false →
        checkSupervisedSpend env r height p.2 p.1.1 p.1.2 = .ok ()) ∧
      ∃ supervision, checkSupervision env r height tx spent = .ok supervision := by
    rw [checkSupervisionPart, bind_eq_ok]
    constructor
    · rintro ⟨⟨⟩, hspends, hcheck⟩
      obtain ⟨supervision, hcheck, -⟩ := bind_eq_ok.mp hcheck
      refine ⟨fun p hp hpegin => ?_, supervision, hcheck⟩
      have hspend := forM_eq_ok.mp hspends p hp
      rwa [if_neg (by simp [hpegin])] at hspend
    · rintro ⟨hspends, supervision, hcheck⟩
      refine ⟨(), forM_eq_ok.mpr fun p hp => ?_, bind_eq_ok.mpr ⟨supervision, hcheck, rfl⟩⟩
      split
      · rfl
      · next hpegin => exact hspends p hp (by simpa using hpegin)
  rw [hpart]
  by_cases hactive : env.params.supervisionActive height = true
  · simp only [hactive, forall_const]
    constructor
    · rintro ⟨hspends, supervision, hcheck⟩
      obtain ⟨declaration, htx, -⟩ := supervisedTx_of_checkSupervision hactive hcheck
      refine ⟨fun hempty p hp hpegin => ?_, ⟨declaration, htx.fromTx, htx.issuance⟩, htx.records,
        htx.reissuance, fun htouches => htx.explicit (touchesSupervised_iff.mpr htouches)⟩
      rw [zip_map_right] at hp
      obtain ⟨q, hq, rfl⟩ := mem_map.mp hp
      obtain ⟨i, hi⟩ := mem_iff_getElem?.mp hq
      exact (checkSupervisedSpend_iff hactive).mp
        (hspends _ (mk_mem_zipIdx_iff_getElem?.mpr hi) hpegin) hempty
    · intro hpasses
      obtain ⟨declaration, hfrom, hissuance⟩ := hpasses.declaration
      refine ⟨fun p hp hpegin => (checkSupervisedSpend_iff hactive).mpr fun hempty => ?_,
        declaration.map SupervisionDeclaration.descriptor, ?_⟩
      · refine hpasses.spends hempty (p.1.1, p.1.2.out) ?_ hpegin
        rw [zip_map_right]
        exact mem_map.mpr ⟨p.1, (mem_zipIdx' hp).2 ▸ getElem_mem _, rfl⟩
      · rw [checkSupervision, if_neg (by simp [hactive]), hfrom]
        simp only [bind_eq_ok, ite_error_eq_ok]
        refine ⟨⟨⟩, forM_eq_ok.mpr fun decl hdecl => rejectAs_eq_ok.mpr
          (hissuance decl (by simpa using hdecl)), ⟨⟩, rejectAs_eq_ok.mpr ⟨_, hpasses.records⟩,
          fun hany => ?_, fun hany => ?_, trivial⟩
        · obtain ⟨txin, htxin, hblinded⟩ := any_eq_true.mp hany
          rw [Bool.and_eq_true] at hblinded
          simp [hpasses.reissuance txin htxin hblinded.1] at hblinded
        · rw [Bool.and_eq_true] at hany
          obtain ⟨out, hout, hhidden⟩ := any_eq_true.mp hany.2
          have hexplicit := hpasses.explicit (touchesSupervised_iff.mp hany.1) out hout
          simp [hexplicit] at hhidden
  · have hspends : ∀ i txin coin, checkSupervisedSpend env r height i txin coin = .ok () :=
      fun i txin coin => if_pos (by simp [hactive])
    refine iff_of_true ⟨fun p _ _ => hspends _ _ _, none, if_pos (by simp [hactive])⟩ ?_
    exact fun h => absurd h hactive

/-- The entry has the same terms and keys, and freezes no other target. -/
structure SupervisionEntry.Eases (e e' : SupervisionEntry) : Prop where
  descriptor : e'.descriptor = e.descriptor
  key : ∀ operationalRole, e'.key operationalRole = e.key operationalRole
  frozen : ∀ target ∈ e'.frozen, target ∈ e.frozen

/-- The entry is eased, or it is that of a declared asset and freezes nothing. -/
def SupervisionRegistry.Widens (r r' : SupervisionRegistry) (declared : List CAsset) : Prop :=
  ∀ a, (r[a]? = none ∧ r'[a]? = none) ∨
    (∃ e e', r[a]? = some e ∧ r'[a]? = some e' ∧ e.Eases e') ∨
    (a ∈ declared ∧ r[a]? = none ∧ ∃ e', r'[a]? = some e' ∧ e'.frozen = ∅)

/-- The transaction spends an output in the asset, or reissues it. -/
def MovesAsset (env : ChainEnv) (tx : CTransaction) (outs : List CTxOut) (a : CAsset) : Prop :=
  (∃ p ∈ tx.vin.zip outs, p.1.isPegin = false ∧ p.2.nAsset = .explicit a) ∨
    ∃ txin ∈ tx.vin, txin.isReissuance = true ∧
      calculateAsset env.crypto txin.assetIssuance.assetEntropy = a

/-- The transaction hides neither an output nor an amount that it reissues of the asset. -/
def HidesNothing (env : ChainEnv) (tx : CTransaction) (a : CAsset) : Prop :=
  (∀ out ∈ tx.vout, out.nAsset.isExplicit = true ∧ out.nValue.isExplicit = true) ∧
    ∀ txin ∈ tx.vin, txin.isReissuance = true →
      calculateAsset env.crypto txin.assetIssuance.assetEntropy = a →
        txin.assetIssuance.nAmount.isExplicit = true

variable {outs : List CTxOut} {declared : List CAsset}

/-- An entry that passes, and whose spends and records another registry allows, passes there if
it hides nothing of the assets that are new. -/
theorem PassesSupervision.of_mem (hpasses : PassesSupervision env r tx outs)
    (hspends : r'.isEmpty = false → ∀ p ∈ tx.vin.zip outs, p.1.isPegin = false →
      invalidatesSpend env r' p.1 p.2 = false)
    (hrecords : checkSupervisionRecords env.crypto r' tx = .ok ())
    (hmem : ∀ a ∈ r', a ∈ r ∨ a ∈ declared)
    (hclear : ∀ a ∈ declared, MovesAsset env tx outs a → HidesNothing env tx a) :
    PassesSupervision env r' tx outs := by
  have hreissues : ∀ txin, reissuesSupervised env r' txin = true →
      reissuesSupervised env r txin = true ∨ (txin.isReissuance = true ∧
        calculateAsset env.crypto txin.assetIssuance.assetEntropy ∈ declared) := by
    intro txin h
    rw [reissuesSupervised, Bool.and_eq_true] at h
    refine (hmem _ (isSupervised_iff.mp h.2)).imp (fun ha => ?_) fun ha => ⟨h.1, ha⟩
    rw [reissuesSupervised, h.1, isSupervised_iff.mpr ha]
    rfl
  refine ⟨hspends, hpasses.declaration, hrecords, fun txin htxin h => ?_, fun h => ?_⟩
  · rcases hreissues txin h with h | ⟨h, ha⟩
    · exact hpasses.reissuance txin htxin h
    · exact (hclear _ ha (Or.inr ⟨txin, htxin, h, rfl⟩)).2 txin htxin h rfl
  · rcases h with ⟨p, hp, hpegin, a, ha, hasset⟩ | ⟨txin, htxin, h⟩
    · rcases hmem a ha with ha | ha
      · exact hpasses.explicit (Or.inl ⟨p, hp, hpegin, a, ha, hasset⟩)
      · exact (hclear a ha (Or.inl ⟨p, hp, hpegin, hasset⟩)).1
    · rcases hreissues txin h with h | ⟨h, ha⟩
      · exact hpasses.explicit (Or.inr ⟨txin, htxin, h⟩)
      · exact (hclear _ ha (Or.inr ⟨txin, htxin, h, rfl⟩)).1

namespace SupervisionRegistry.Widens

variable (hwidens : r.Widens r' declared)

include hwidens

theorem mem {a : CAsset} (ha : a ∈ r') : a ∈ r ∨ a ∈ declared := by
  rw [ExtTreeMap.mem_iff_isSome_getElem?] at ha ⊢
  rcases hwidens a with ⟨-, h⟩ | ⟨e, e', he, -, -⟩ | ⟨hdeclared, -⟩
  · rw [h] at ha
    cases ha
  · rw [he]
    exact Or.inl rfl
  · exact Or.inr hdeclared

theorem isFrozen {a : CAsset} {target : Uint256} (hfrozen : r'.isFrozen a target = true) :
    r.isFrozen a target = true := by
  unfold SupervisionRegistry.isFrozen at hfrozen ⊢
  rcases hwidens a with ⟨-, h⟩ | ⟨e, e', he, he', heases⟩ | ⟨-, -, e', he', hempty⟩
  · rw [h] at hfrozen
    cases hfrozen
  · rw [he'] at hfrozen
    rw [he]
    simp only [Bool.or_eq_true, ← ExtTreeMap.mem_iff_contains] at hfrozen ⊢
    exact hfrozen.imp (heases.frozen _) (heases.frozen _)
  · rw [he'] at hfrozen
    simp [hempty] at hfrozen

theorem reads_eq {a : CAsset} (ha : a ∈ r) :
    r'.isSupervised a = r.isSupervised a ∧ (∀ role, r'.currentKey a role = r.currentKey a role) ∧
      r'.pauseAllowed a = r.pauseAllowed a := by
  rw [ExtTreeMap.mem_iff_isSome_getElem?] at ha
  rcases hwidens a with ⟨h, -⟩ | ⟨e, e', he, he', heases⟩ | ⟨-, h, -⟩
  · rw [h] at ha
    cases ha
  · refine ⟨?_, fun role => ?_, ?_⟩
    · have hmem : a ∈ r' := ExtTreeMap.mem_iff_isSome_getElem?.mpr (by rw [he']; rfl)
      rw [isSupervised_iff.mpr hmem,
        isSupervised_iff.mpr (ExtTreeMap.mem_iff_isSome_getElem?.mpr ha)]
    · rw [SupervisionRegistry.currentKey, SupervisionRegistry.currentKey, he, he', Option.map_some,
        Option.map_some, heases.key]
    · simp only [SupervisionRegistry.pauseAllowed, he, he', heases.descriptor]
  · rw [h] at ha
    cases ha

theorem checkSupervisionRecordSpend {txin : CTxIn} {out : CTxOut}
    (hcheck : checkSupervisionRecordSpend env.crypto r txin out = .ok ()) :
    Sequentia.checkSupervisionRecordSpend env.crypto r' txin out = .ok () := by
  cases hrecord : parseSupervisionRecordScript out.scriptPubKey with
  | none => rw [Sequentia.checkSupervisionRecordSpend, hrecord]
  | some record =>
    have ha : record.asset ∈ r := by
      rw [Sequentia.checkSupervisionRecordSpend, hrecord] at hcheck
      simp only [ite_error_eq_ok] at hcheck
      have hkey := hcheck.2
      split at hkey
      · cases hkey
      · next operational hsome =>
        obtain ⟨entry, hentry, -⟩ := Option.map_eq_some_iff.mp hsome
        exact ExtTreeMap.mem_iff_isSome_getElem?.mpr (by rw [hentry]; rfl)
    unfold Sequentia.checkSupervisionRecordSpend at hcheck ⊢
    rw [hrecord] at hcheck ⊢
    dsimp only at hcheck ⊢
    rwa [(hwidens.reads_eq ha).2.1 true]

theorem checkSupervisionRecords (hcheck : checkSupervisionRecords env.crypto r tx = .ok ()) :
    Sequentia.checkSupervisionRecords env.crypto r' tx = .ok () := by
  unfold Sequentia.checkSupervisionRecords at hcheck ⊢
  split at hcheck
  · cases hcheck
  · next first _ _ =>
    refine forM_eq_ok.mpr fun out hout => ?_
    have hout := forM_eq_ok.mp hcheck out hout
    cases hrecord : parseSupervisionRecordScript out.scriptPubKey with
    | none => rw [checkSupervisionRecord, hrecord]
    | some record =>
      unfold checkSupervisionRecord at hout ⊢
      rw [hrecord] at hout ⊢
      dsimp only at hout ⊢
      have ha : record.asset ∈ r := by
        rw [ite_error_eq_ok] at hout
        exact isSupervised_iff.mp (by simpa using hout.1)
      obtain ⟨hsupervised, hkey, hpause⟩ := hwidens.reads_eq ha
      unfold checkRotation at hout ⊢
      simpa only [hsupervised, hkey, hpause] using hout

/-- A registry that allows more keeps allowing an entry that hides nothing of the new assets.
If nothing was supervised, records could be spent that a registry refuses. -/
theorem passes (hpasses : PassesSupervision env r tx outs)
    (hfirst : r.isEmpty = true → declared ≠ [] → ∀ p ∈ tx.vin.zip outs, p.1.isPegin = false →
      parseSupervisionRecordScript p.2.scriptPubKey = none)
    (hclear : ∀ a ∈ declared, MovesAsset env tx outs a → HidesNothing env tx a) :
    PassesSupervision env r' tx outs := by
  refine hpasses.of_mem (fun hempty' p hp hpegin => ?_)
    (hwidens.checkSupervisionRecords hpasses.records) (fun a => hwidens.mem) hclear
  rw [invalidatesSpend_eq_false]
  by_cases hempty : r.isEmpty = true
  · have hnone : r = ∅ := ExtTreeMap.isEmpty_iff.mp hempty
    refine ⟨?_, fun a _ hfrozen => ?_⟩
    · have hne : declared ≠ [] := by
        rintro rfl
        refine ExtTreeMap.isEmpty_eq_false_iff.mp hempty' (ExtTreeMap.ext_getElem? fun a => ?_)
        have hnot : a ∉ r' := fun ha => by simpa [hnone] using hwidens.mem ha
        rw [ExtTreeMap.mem_iff_isSome_getElem?, Option.not_isSome_iff_eq_none] at hnot
        rw [hnot, ExtTreeMap.getElem?_empty]
      rw [Sequentia.checkSupervisionRecordSpend, hfirst hempty hne p hp hpegin]
    · have := hwidens.isFrozen hfrozen
      simp [SupervisionRegistry.isFrozen, hnone] at this
  · obtain ⟨hspend, hfrozen⟩ := invalidatesSpend_eq_false.mp
      (hpasses.spends (by simpa using hempty) p hp hpegin)
    exact ⟨hwidens.checkSupervisionRecordSpend hspend,
      fun a hasset h => hfrozen a hasset (hwidens.isFrozen h)⟩

end SupervisionRegistry.Widens

end Sequentia
