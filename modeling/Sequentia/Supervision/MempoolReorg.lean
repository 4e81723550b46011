import Sequentia.Supervision.Clear
import Sequentia.Supervision.MempoolTip

/-!
# Entries across reorganisations

Nothing is looked at when a block is disconnected, so an entry stays that a rotation, an
unfreeze or a declaration in the block had made valid. When the reorganisation is over, the
transactions of the disconnected blocks are checked again, and what depends on one that fails
goes. Along runs without such blocks, and without entries that hide what a block declares, every
entry passes the supervision part of the input checks.
-/

namespace Sequentia

open Std Checks KeyedMap List

variable {env : ChainEnv} {names : Uint256 → CTransaction} {s s' : MempoolState}

theorem disconnectTip_passes (htracked : s.Tracked names) (hpasses : s.Passes env names)
    (hclean : DisconnectsCleanly s) (hdisconnect : disconnectTip env s = some s') :
    s'.Tracked names ∧ s'.Passes env names := by
  unfold disconnectTip at hdisconnect
  split at hdisconnect
  · cases hdisconnect
  · next before block undo history hhistory =>
    cases hdisconnect
    have hhead := htracked.history
    rw [hhistory] at hhead
    obtain ⟨hheight, hcoins, hnamed, hbefore, hrest⟩ := hhead
    have hconnected := connected_of_connectCoins hcoins
    have hcleanHead := hclean (before, block, undo) (by rw [hhistory]; rfl)
    obtain ⟨hdeclared, hrotates, hspent⟩ := hcleanHead
    constructor
    · refine ⟨htracked.pool, fun tx htx => ?_, hbefore, ?_, fun tx htx txin htxin hpegin => ?_,
        htracked.spendable⟩
      · exact (mem_append.mp htx).elim (hnamed tx) (htracked.disconnectpool tx)
      · cases history with
        | nil => trivial
        | cons p history => exact hrest
      · rcases htracked.available tx htx txin htxin hpegin with hpool | ⟨coin, hcoin⟩ | ⟨t, ht, heq⟩
        · exact Or.inl hpool
        · have hmem := hconnected.delta.subset (mem_append_left _
            (ExtTreeMap.mem_toList_iff_getElem?_eq_some.mpr hcoin))
          rcases mem_append.mp hmem with hold | hcreated
          · exact Or.inr (Or.inl ⟨coin, ExtTreeMap.mem_toList_iff_getElem?_eq_some.mp hold⟩)
          · obtain ⟨-, t, ht, heq⟩ := outputOf_of_created hnamed hcreated
            exact Or.inr (Or.inr ⟨t, mem_append_left _ ht, heq⟩)
        · exact Or.inr (Or.inr ⟨t, mem_append_right _ ht, heq⟩)
    · intro hactive tx htx
      dsimp only at hactive htx ⊢
      have hactive' : env.params.supervisionActive s.chain.height = true := by rwa [hheight]
      have hold := hpasses (supervisionActive_mono (Nat.le_succ _) hactive') tx htx
      rw [if_pos hactive']
      exact (widens_revert hdeclared hrotates hspent).passes hold
        (fun _ hne => absurd rfl hne) (fun a ha => (not_mem_nil ha).elim)

/-- What is left when the mempool has been brought up to date passes. -/
theorem updateMempoolForReorg_passes (htracked : s.Tracked names) (hpasses : s.Passes env names)
    (policy stale : CTransaction → Bool) :
    (updateMempoolForReorg env s policy stale).Tracked names ∧
      (updateMempoolForReorg env s policy stale).Passes env names := by
  -- Transaction after transaction joins the mempool, or its descendants leave it.
  have hloop : ∀ (pending : List CTransaction) (pool : CTxMemPool),
      ({ s with pool, disconnectpool := pending } : MempoolState).Tracked names →
      ({ s with pool, disconnectpool := pending } : MempoolState).Passes env names →
      ({ s with
        pool := pending.foldl (fun (pool : CTxMemPool) tx =>
          if policy tx && acceptToMemoryPool env { s with pool } tx then pool ++ [tx]
          else pool.removeRecursive [tx.txid]) pool
        disconnectpool := [] } : MempoolState).Tracked names ∧
      ({ s with
        pool := pending.foldl (fun (pool : CTxMemPool) tx =>
          if policy tx && acceptToMemoryPool env { s with pool } tx then pool ++ [tx]
          else pool.removeRecursive [tx.txid]) pool
        disconnectpool := [] } : MempoolState).Passes env names := by
    intro pending
    induction pending with
    | nil => exact fun pool htracked hpasses => ⟨htracked, hpasses⟩
    | cons tx pending ih =>
      intro pool htracked hpasses
      rw [foldl_cons]
      split
      · next haccept =>
        rw [Bool.and_eq_true] at haccept
        have haccept' : acceptToMemoryPool env { s with pool, disconnectpool := tx :: pending } tx =
          true := haccept.2
        have hname := htracked.disconnectpool tx mem_cons_self
        refine ih _ (htracked.accept hname haccept' (List.Subset.refl _)
          (subset_cons_self _ _)) fun hactive t ht => ?_
        rcases mem_append.mp ht with ht | ht
        · exact hpasses hactive t ht
        · rw [mem_singleton.mp ht]
          exact (accepted_of_acceptToMemoryPool haccept' htracked).2 hactive
      · have hremoved := htracked.removeRecursive [tx.txid]
        refine ih _ ⟨hremoved.pool, fun t ht => hremoved.disconnectpool t
          (mem_cons_of_mem _ ht), hremoved.coins, hremoved.history, ?_, hremoved.spendable⟩
          fun hactive t ht => hpasses hactive t (removeRecursive_spec ht).1
        intro t ht txin htxin hpegin
        rcases hremoved.available t ht txin htxin hpegin with hpool | hcoin | ⟨u, hu, heq⟩
        · exact Or.inl hpool
        · exact Or.inr (Or.inl hcoin)
        · rcases mem_cons.mp hu with rfl | hu
          · have hnot := ((removeRecursive_spec ht).2.2 txin htxin).1
            exact absurd (mem_singleton.mpr heq.symm) hnot
          · exact Or.inr (Or.inr ⟨u, hu, heq⟩)
  obtain ⟨hloopTracked, hloopPasses⟩ := hloop s.disconnectpool s.pool htracked hpasses
  exact ⟨hloopTracked.removeRecursive _,
    fun hactive tx htx => hloopPasses hactive tx (removeRecursive_spec htx).1⟩

/-- Along a run in which entries hide nothing of the assets that blocks declare, supervision
does not begin over a mempool with entries, and only blocks are disconnected that neither
declare nor rotate nor unfreeze, no entry of the mempool is rejected by the supervision part of
the input checks. -/
theorem mempool_not_rejected {env : ChainEnv} {names : Uint256 → CTransaction} {s : MempoolState}
    (hrun : MempoolRun env names (KeepsClean env names) s) :
    ∀ tx ∈ s.pool, s.rejects env tx = false := by
  have hinv : s.Tracked names ∧ s.Passes env names := by
    induction hrun with
    | start hcoins =>
      exact ⟨⟨fun tx htx => (not_mem_nil htx).elim, fun tx htx => (not_mem_nil htx).elim,
        hcoins, trivial, fun tx htx => (not_mem_nil htx).elim,
        fun tx htx => (not_mem_nil htx).elim⟩, fun _ tx htx => (not_mem_nil htx).elim⟩
    | @event s s' event hrun hclean hstep ih =>
      obtain ⟨htracked, hpasses⟩ := ih
      cases event with
      | accept tx =>
        rw [MempoolState.step] at hstep
        obtain ⟨haccept, ⟨⟩⟩ := Option.ite_none_right_eq_some.mp hstep
        rw [Bool.and_eq_true] at haccept
        have hpending : s.disconnectpool = [] := isEmpty_iff.mp haccept.1
        refine ⟨htracked.accept hclean haccept.2 (by simp [hpending]) (List.Subset.refl _),
          fun hactive t ht => ?_⟩
        rcases mem_append.mp ht with ht | ht
        · exact hpasses hactive t ht
        · rw [mem_singleton.mp ht]
          exact (accepted_of_acceptToMemoryPool haccept.2 htracked).2 hactive
      | remove txids =>
        cases hstep
        exact ⟨htracked.removeRecursive txids,
          fun hactive tx htx => hpasses hactive tx (removeRecursive_spec htx).1⟩
      | connect block =>
        rw [MempoolState.step] at hstep
        cases hconnect : connectTip env s block with
        | error err =>
          rw [hconnect] at hstep
          cases hstep
        | ok s₁ =>
          rw [hconnect] at hstep
          cases hstep
          exact connectTip_passes htracked hpasses hclean hconnect
      | disconnect => exact disconnectTip_passes htracked hpasses hclean hstep
      | update policy stale =>
        cases hstep
        exact updateMempoolForReorg_passes htracked hpasses policy stale
  exact fun tx htx => hinv.1.not_rejects hinv.2 htx

/-- The transaction that moves the sample asset in the clear. -/
def clearTx : CTransaction where
  txid := 26
  vin := [{ prevout := ⟨20, 1⟩ }]
  vout := [⟨.explicit sampleAsset, .explicit 100, openScript⟩]

def sampleNames (txid : Uint256) : CTransaction :=
  if txid = 20 then issuanceTx
  else if txid = 25 then hidingTx
  else if txid = 26 then clearTx
  else if txid = 30 then emptyCoinbase 30
  else if txid = 8 then
    { txid, vin := [], vout := [⟨.explicit 1, .explicit 5, inertRecord⟩] }
  else { txid, vin := [], vout := [⟨.explicit 1, .explicit 10, openScript⟩] }

theorem named_supervisedStart : CCoinsView.Named sampleNames supervisedStart.coins := by
  have hnamed : ∀ e ∈ supervisedStart.coins.toList,
      outputOf sampleNames e.1 = some e.2.out := by decide +kernel
  exact fun o coin hcoin =>
    hnamed (o, coin) (ExtTreeMap.mem_toList_iff_getElem?_eq_some.mpr hcoin)

/-- The transactions of an event are named, the hardening is in force wherever supervision is,
and declared assets are new. -/
def KeepsNames (env : ChainEnv) (names : Uint256 → CTransaction) (s : MempoolState) :
    MempoolEvent → Prop
  | .accept tx => names tx.txid = tx
  | .connect block => (∀ tx ∈ block.vtx, names tx.txid = tx) ∧
      env.HardenedAt (s.chain.height + 1) ∧ s.chain.NewDeclarations block
  | _ => True

def waitingWith (pool : CTxMemPool) : MempoolState := ⟨supervisedStart, [], pool, []⟩

theorem MempoolRun.accept_waitingWith {env : ChainEnv} {names : Uint256 → CTransaction}
    {Admits : MempoolState → MempoolEvent → Prop} {pool : CTxMemPool}
    (hrun : MempoolRun env names Admits (waitingWith pool)) (tx : CTransaction)
    (hadmits : Admits (waitingWith pool) (.accept tx))
    (haccept : acceptToMemoryPool env (waitingWith pool) tx = true) :
    MempoolRun env names Admits (waitingWith (pool ++ [tx])) := by
  refine hrun.event hadmits ?_
  rw [MempoolState.step, haccept]
  rfl

/-- An issuance and a child that hides the asset wait in the mempool. The issuance is confirmed,
which makes the asset supervised, and the child stays. -/
theorem hidden_child_stays : ∃ s,
    MempoolRun hiddenEnv sampleNames (KeepsNames hiddenEnv sampleNames) s ∧
      s.disconnectpool = [] ∧ hidingTx ∈ s.pool ∧ s.rejects hiddenEnv hidingTx = true := by
  have hstart : MempoolRun hiddenEnv sampleNames (KeepsNames hiddenEnv sampleNames)
      (waitingWith []) := .start named_supervisedStart
  have hissuance := hstart.accept_waitingWith issuanceTx rfl (by decide +kernel)
  have hhiding := hissuance.accept_waitingWith hidingTx rfl (by decide +kernel)
  have hkeeps : KeepsNames hiddenEnv sampleNames (waitingWith [issuanceTx, hidingTx])
      (.connect issuanceBlock) :=
    ⟨by decide +kernel, hardenedAt_sampleEnv _, newDeclarations_issuanceBlock⟩
  have hconnect : (match (waitingWith [issuanceTx, hidingTx]).step hiddenEnv
        (.connect issuanceBlock) with
      | some s => s.disconnectpool.isEmpty && s.pool.contains hidingTx &&
        s.rejects hiddenEnv hidingTx
      | none => false) = true := by decide +kernel
  split at hconnect
  · next s hstep =>
    simp only [Bool.and_eq_true, List.isEmpty_iff, List.contains_iff_mem] at hconnect
    obtain ⟨⟨hpending, hmem⟩, hrejects⟩ := hconnect
    exact ⟨s, hhiding.event hkeeps hstep, hpending, hmem, hrejects⟩
  · cases hconnect

/-- A child in the clear stays, and it is valid. -/
theorem clear_child_not_rejected : ∃ s,
    MempoolRun hiddenEnv sampleNames (KeepsClean hiddenEnv sampleNames) s ∧
      sampleAsset ∈ s.chain.registry ∧ clearTx ∈ s.pool ∧ s.rejects hiddenEnv clearTx = false := by
  have hstart : MempoolRun hiddenEnv sampleNames (KeepsClean hiddenEnv sampleNames)
      (waitingWith []) := .start named_supervisedStart
  have hissuance := hstart.accept_waitingWith issuanceTx rfl (by decide +kernel)
  have hclear := hissuance.accept_waitingWith clearTx rfl (by decide +kernel)
  have hkeeps : KeepsClean hiddenEnv sampleNames (waitingWith [issuanceTx, clearTx])
      (.connect issuanceBlock) :=
    { named := by decide +kernel
      hardened := hardenedAt_sampleEnv _
      new := newDeclarations_issuanceBlock
      boundary := fun _ => Or.inl (by decide)
      settled := fun _ => rfl
      first := fun _ _ => by decide +kernel
      clear := fun tx htx a _ _ => by
        have hclear : ∀ tx ∈ [issuanceTx, clearTx],
            (∀ out ∈ tx.vout, out.nAsset.isExplicit = true ∧ out.nValue.isExplicit = true) ∧
              ∀ txin ∈ tx.vin, txin.isReissuance = false := by decide +kernel
        exact ⟨(hclear tx htx).1, fun txin htxin hreissuance =>
          absurd hreissuance (by simp [(hclear tx htx).2 txin htxin])⟩ }
  have hconnect : (match (waitingWith [issuanceTx, clearTx]).step hiddenEnv
        (.connect issuanceBlock) with
      | some s => s.chain.registry.contains sampleAsset && s.pool.contains clearTx
      | none => false) = true := by decide +kernel
  split at hconnect
  · next s hstep =>
    rw [Bool.and_eq_true, contains_iff_mem] at hconnect
    exact ⟨s, hclear.event hkeeps hstep, ExtTreeMap.mem_iff_contains.mpr hconnect.1, hconnect.2,
      mempool_not_rejected (hclear.event hkeeps hstep) clearTx hconnect.2⟩
  · cases hconnect

end Sequentia
