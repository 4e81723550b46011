import Sequentia.Fees.Repricing
import Sequentia.Lib.Runs

/-!
# Fees over the life of the mempool

Transactions are admitted, replaced, mined, evicted and added back after a reorganisation, the
operator prioritises them and changes the exchange rates. The module runs these events in any
order. The cached fees stay exact, in the range admission enforces and free of overflow as long as
rate changes are saved and keep every entry in that range, admission lets in no fee that is worth
nothing, and the values with the deltas add up to a 64-bit number. The code itself enforces none
of these conditions.
-/

namespace Sequentia

variable {Txid : Type} [DecidableEq Txid]

namespace FeePool

variable (G : TxGraph Txid) (s : FeePool Txid)

/-- A transaction is admitted: `PreChecks` bounds the value of its fee, and what would descend
from it is not in the mempool, as it would have had no input to spend. -/
def accept (x : Txid) : Option (FeePool Txid) :=
  if x ∉ s.mapTx ∧ G.feeValue s.rates x ≤ G.maxMoney ∧ ∀ z ∈ s.mapTx, x ∉ G.ancestors z then
    some (s.addUnchecked G x (G.feeValue s.rates x))
  else none

/-- `MaybeUpdateMempoolForReorg` for one transaction of the disconnected blocks, oldest first: it
is admitted again, or what depends on it is removed. It descends from nothing in the mempool but
other transactions of those blocks, which are already back, and they do not descend from it. -/
def readd (tx : Txid × Bool) : Option (FeePool Txid) :=
  let x := tx.1
  if tx.2 then
    if x ∉ s.mapTx ∧ x ∉ s.vHashUpdate ∧ G.feeValue s.rates x ≤ G.maxMoney ∧
        (∀ y ∈ s.mapTx, y ∈ G.ancestors x → y ∈ s.vHashUpdate) ∧
        ∀ z ∈ s.mapTx, x ∈ G.ancestors z → z ∉ s.vHashUpdate then
      some ({ s with
        vHashUpdate := x :: s.vHashUpdate
        unlinked := x :: s.unlinked }.addUnchecked G x (G.feeValue s.rates x))
    else none
  else some (s.removeRecursive G {x})

/-- `MaybeUpdateMempoolForReorg`: the transactions with whether each was admitted again, and those
that exceed a limit in the end. -/
def maybeUpdateMempoolForReorg (txs : List (Txid × Bool)) (descendantsToRemove : List Txid) :
    Option (FeePool Txid) :=
  (txs.foldlM (readd G) s).map (updateTransactionsFromBlock G · descendantsToRemove)

end FeePool

/-- What happens to the mempool. -/
inductive PoolEvent (Txid : Type)
  | accept (x : Txid)
  | removeRecursive (roots : Finset Txid)
  | removeConflict (x : Txid)
  | removeForBlock (x : Txid)
  | prioritiseTransaction (x : Txid) (feeDelta : ℤ)
  | setFeeExchangeRates (rates : ExchangeRateMap) (hashes : List Txid) (saved : Bool)
  | reorg (txs : List (Txid × Bool)) (descendantsToRemove : List Txid)

/-- The mempool from its start on. `RecomputeFees` visits every entry once. -/
def feeMachine (G : TxGraph Txid) : Machine (FeePool Txid) (PoolEvent Txid) where
  init s := s.mapTx = ∅ ∧ s.totalFee = 0 ∧ s.vHashUpdate = [] ∧ s.unlinked = []
  next s
    | .accept x => s.accept G x
    | .removeRecursive roots => some (s.removeRecursive G roots)
    | .removeConflict x => some (s.removeConflict G x)
    | .removeForBlock x => some (s.removeForBlock G x)
    | .prioritiseTransaction x feeDelta => some (s.prioritiseTransaction G x feeDelta)
    | .setFeeExchangeRates rates hashes saved =>
      if hashes.toFinset = s.mapTx then some (s.setFeeExchangeRates G rates hashes saved) else none
    | .reorg txs descendantsToRemove => s.maybeUpdateMempoolForReorg G txs descendantsToRemove

namespace FeePool

variable {G : TxGraph Txid} {s : FeePool Txid} {bound : ℤ}

variable {t : FeePool Txid} {txs : List (Txid × Bool)}

/-- An admitted transaction that meets the condition keeps a mempool sound. -/
theorem Sound.accept {x : Txid} (hs : s.Sound G bound) (hpos : 0 < G.feeValue s.rates x)
    (hroom : bound + (G.feeValue s.rates x + |s.mapDeltas x|) ≤ int64Max)
    (hstep : s.accept G x = some t) :
    t.Sound G (bound + (G.feeValue s.rates x + |s.mapDeltas x|)) ∧
      t.unlinked = s.unlinked ∧ t.vHashUpdate = s.vHashUpdate := by
  unfold FeePool.accept at hstep
  split at hstep
  · next hguard =>
    obtain rfl := Option.some.inj hstep
    obtain ⟨hx, hle, hdesc⟩ := hguard
    exact ⟨hs.addUnchecked hx (fun z hz h => hdesc z hz h.1) hpos hle hroom, rfl, rfl⟩
  · cases hstep

/-- What adding a transaction back takes of the budget. -/
def readdCost (G : TxGraph Txid) (rates : ExchangeRateMap) (mapDeltas : Txid → ℤ)
    (tx : Txid × Bool) : ℤ :=
  if tx.2 then G.feeValue rates tx.1 + |mapDeltas tx.1| else 0

omit [DecidableEq Txid] in
theorem readdCost_nonneg (rates : ExchangeRateMap) (mapDeltas : Txid → ℤ) (tx : Txid × Bool) :
    0 ≤ readdCost G rates mapDeltas tx := by
  unfold readdCost
  split
  · exact add_nonneg (feeValue_nonneg rates tx.1) (abs_nonneg _)
  · exact le_rfl

/-- One transaction of the disconnected blocks. -/
theorem Sound.readd {tx : Txid × Bool} (hs : s.Sound G bound) (hlinks : s.unlinked = s.vHashUpdate)
    (hnodup : s.vHashUpdate.Nodup) (hpos : tx.2 = true → 0 < G.feeValue s.rates tx.1)
    (hroom : bound + readdCost G s.rates s.mapDeltas tx ≤ int64Max)
    (hstep : s.readd G tx = some t) :
    t.Sound G (bound + readdCost G s.rates s.mapDeltas tx) ∧ t.unlinked = t.vHashUpdate ∧
      t.vHashUpdate.Nodup ∧ t.rates = s.rates ∧ t.mapDeltas = s.mapDeltas := by
  obtain ⟨x, accepted⟩ := tx
  cases accepted with
  | false =>
    obtain rfl := Option.some.inj hstep
    simp only [readdCost, Bool.false_eq_true, if_false, add_zero]
    exact ⟨hs.removeRecursive hlinks {x}, hlinks, hnodup, rfl, rfl⟩
  | true =>
    simp only [FeePool.readd, if_true] at hstep
    split at hstep
    · next hguard =>
      obtain rfl := Option.some.inj hstep
      obtain ⟨hx, hnew, hle, -, hdesc⟩ := hguard
      -- The transaction is not an entry yet, so its links do not matter to the sums.
      have hlinked : ({ s with vHashUpdate := x :: s.vHashUpdate, unlinked := x :: s.unlinked } :
          FeePool Txid).Consistent G := by
        refine hs.consistent.relink _ _ fun y hy z hz => ?_
        have hyx : y ≠ x := ne_of_mem_of_not_mem hy hx
        have hzx : z ≠ x := ne_of_mem_of_not_mem hz hx
        simp [TxGraph.Linked, hyx, hzx]
      have hs' : ({ s with vHashUpdate := x :: s.vHashUpdate, unlinked := x :: s.unlinked } :
          FeePool Txid).Sound G bound := { hs with consistent := hlinked }
      refine ⟨hs'.addUnchecked hx (fun z hz h => ?_) (hpos rfl) hle hroom,
        congrArg (x :: ·) hlinks, List.nodup_cons.mpr ⟨hnew, hnodup⟩, rfl, rfl⟩
      rcases List.mem_cons.mp (h.2 List.mem_cons_self) with rfl | hmem
      · exact hx hz
      · exact hdesc z hz h.1 hmem
    · cases hstep

/-- All transactions of the disconnected blocks. -/
theorem Sound.readds (hs : s.Sound G bound) (hlinks : s.unlinked = s.vHashUpdate)
    (hnodup : s.vHashUpdate.Nodup) (hpos : ∀ tx ∈ txs, tx.2 = true → 0 < G.feeValue s.rates tx.1)
    (hroom : bound + (txs.map (readdCost G s.rates s.mapDeltas)).sum ≤ int64Max)
    (hrun : txs.foldlM (FeePool.readd G) s = some t) :
    t.Sound G int64Max ∧ t.unlinked = t.vHashUpdate ∧ t.vHashUpdate.Nodup := by
  induction txs generalizing s bound with
  | nil =>
    cases hrun
    rw [List.map_nil, List.sum_nil, add_zero] at hroom
    exact ⟨{ hs with budget_le := hs.budget_le.trans hroom }, hlinks, hnodup⟩
  | cons tx txs ih =>
    rw [List.foldlM_cons] at hrun
    obtain ⟨u, hstep, hrest⟩ := Option.bind_eq_some_iff.mp hrun
    rw [List.map_cons, List.sum_cons, ← add_assoc] at hroom
    have hrestNonneg : 0 ≤ (txs.map (readdCost G s.rates s.mapDeltas)).sum :=
      List.sum_nonneg fun cost hcost => by
        obtain ⟨tx, -, rfl⟩ := List.mem_map.mp hcost
        exact readdCost_nonneg _ _ tx
    obtain ⟨hu, hlinks', hnodup', hrates, hdeltas⟩ := hs.readd hlinks hnodup
      (hpos tx List.mem_cons_self) (by omega) hstep
    refine ih hu hlinks' hnodup' (fun tx' htx' => ?_) ?_ hrest
    · rw [hrates]
      exact hpos tx' (List.mem_cons_of_mem tx htx')
    · rw [hrates, hdeltas]
      exact hroom

/-- Linking changes no value. -/
theorem reduced_updateForDescendants (x : Txid) : Reduced s (s.updateForDescendants G x) := by
  unfold FeePool.updateForDescendants
  by_cases hx : x ∈ s.mapTx
  · simp only [if_pos hx]
    refine ⟨Finset.Subset.refl _, fun z => ?_, rfl, rfl⟩
    simp only [modify, FeeEntry.updateAncestorState, FeeEntry.updateDescendantState]
    repeat' split
    all_goals rfl
  · simp only [if_neg hx]
    exact ⟨Finset.Subset.refl _, fun z => rfl, rfl, rfl⟩

/-- When all re-added transactions have been linked, none waits any more. -/
theorem Sound.link {unlinked : List Txid} (hs : s.Sound G bound)
    (hunlinked : s.unlinked = unlinked) (hnodup : unlinked.Nodup) :
    (unlinked.foldl (FeePool.updateForDescendants G) s).Sound G bound ∧
      (unlinked.foldl (FeePool.updateForDescendants G) s).unlinked = [] := by
  induction unlinked generalizing s with
  | nil => exact ⟨hs, hunlinked⟩
  | cons x unlinked ih =>
    obtain ⟨_, hnodup'⟩ := List.nodup_cons.mp hnodup
    have hx : x ∈ s.unlinked := hunlinked ▸ List.mem_cons_self
    refine ih (hs.reduced (reduced_updateForDescendants x)
      (hs.consistent.updateForDescendants hx (hunlinked ▸ hnodup))) ?_ hnodup'
    show s.unlinked.erase x = unlinked
    rw [hunlinked, List.erase_cons_head]

theorem Sound.maybeUpdateMempoolForReorg {descendantsToRemove : List Txid} (hs : s.Sound G bound)
    (hupdate : s.vHashUpdate = []) (hunlinked : s.unlinked = [])
    (hpos : ∀ tx ∈ txs, tx.2 = true → 0 < G.feeValue s.rates tx.1)
    (hroom : bound + (txs.map (readdCost G s.rates s.mapDeltas)).sum ≤ int64Max)
    (hstep : s.maybeUpdateMempoolForReorg G txs descendantsToRemove = some t) :
    t.Sound G int64Max ∧ t.vHashUpdate = [] ∧ t.unlinked = [] := by
  obtain ⟨u, hrun, rfl⟩ := Option.map_eq_some_iff.mp hstep
  obtain ⟨hu, hlinks, hnodup⟩ := hs.readds (hunlinked.trans hupdate.symm)
    (hupdate ▸ List.nodup_nil) hpos hroom hrun
  obtain ⟨hlinked, hnone⟩ := hu.link hlinks hnodup
  have hreset := hlinked.consistent.relink []
    (u.vHashUpdate.foldl (FeePool.updateForDescendants G) u).unlinked fun y _ z _ => by
      simp [TxGraph.Linked, hnone]
  obtain ⟨hreduced, hsums, -, hunlinked', hupdate'⟩ :=
    evict_spec hreset hnone descendantsToRemove
  have hsound : ({ u.vHashUpdate.foldl (FeePool.updateForDescendants G) u with
      vHashUpdate := [] } : FeePool Txid).Sound G int64Max :=
    { hlinked with consistent := hreset }
  exact ⟨hsound.reduced hreduced hsums, hupdate', hunlinked'.trans hnone⟩

end FeePool

open FeePool

/-- The condition on an event: admission lets in only fees that are worth something; a rate change
is saved, or does not matter to any entry, and leaves every entry in the range of admission; and
the values with the deltas keep within a 64-bit number. -/
def FeesTame (G : TxGraph Txid) (s : FeePool Txid) : PoolEvent Txid → Prop
  | .accept x => 0 < G.feeValue s.rates x ∧
    s.budget + (G.feeValue s.rates x + |s.mapDeltas x|) ≤ int64Max
  | .prioritiseTransaction x feeDelta =>
    x ∈ s.mapTx → s.budget - |s.mapDeltas x| + |s.mapDeltas x + feeDelta| ≤ int64Max
  | .setFeeExchangeRates rates _ saved =>
    if saved then (∀ x ∈ s.mapTx, G.feeValue rates x ≤ G.maxMoney) ∧
      s.repricedBudget G rates ≤ int64Max
    else ∀ x ∈ s.mapTx, G.feeValue rates x = G.feeValue s.rates x
  | .reorg txs _ => (∀ tx ∈ txs, tx.2 = true → 0 < G.feeValue s.rates tx.1) ∧
    s.budget + (txs.map (readdCost G s.rates s.mapDeltas)).sum ≤ int64Max
  | _ => True

/-- The invariant of runs. -/
structure FeesInv (G : TxGraph Txid) (s : FeePool Txid) : Prop where
  sound : s.Sound G int64Max
  vHashUpdate : s.vHashUpdate = []
  unlinked : s.unlinked = []

/-- It holds of the empty mempool. -/
theorem FeesInv.init {G : TxGraph Txid} {s : FeePool Txid} (hinit : (feeMachine G).init s) :
    FeesInv G s := by
  obtain ⟨hempty, htotal, hupdate, hunlinked⟩ := hinit
  have hnone : ∀ x, x ∉ s.mapTx := by simp [hempty]
  refine ⟨⟨⟨?_, ?_, ?_, ?_⟩, ?_, ?_, ?_, ?_⟩, hupdate, hunlinked⟩
  all_goals try exact fun x hx => absurd hx (hnone x)
  · rw [htotal, hempty, Finset.sum_empty]
  · unfold budget
    rw [hempty, Finset.sum_empty]
    decide

/-- Every event that meets the condition keeps it. -/
theorem FeesInv.step {G : TxGraph Txid} {s t : FeePool Txid} {e : PoolEvent Txid}
    (hs : FeesInv G s) (htame : FeesTame G s e) (hstep : (feeMachine G).next s e = some t) :
    FeesInv G t := by
  have hlinks : s.unlinked = s.vHashUpdate := hs.unlinked.trans hs.vHashUpdate.symm
  have hexact : s.Sound G s.budget := { hs.sound with budget_le := le_rfl }
  cases e with
  | accept x =>
    obtain ⟨hsound, hunlinked, hupdate⟩ := hexact.accept htame.1 htame.2 hstep
    exact ⟨{ hsound with budget_le := hsound.budget_le.trans htame.2 },
      hupdate.trans hs.vHashUpdate, hunlinked.trans hs.unlinked⟩
  | removeRecursive roots =>
    obtain rfl := Option.some.inj hstep
    exact ⟨hs.sound.removeRecursive hlinks roots, hs.vHashUpdate, hs.unlinked⟩
  | removeConflict x =>
    obtain rfl := Option.some.inj hstep
    exact ⟨hs.sound.removeConflict hlinks, hs.vHashUpdate, hs.unlinked⟩
  | removeForBlock x =>
    obtain rfl := Option.some.inj hstep
    refine ⟨hs.sound.removeForBlock, ?_, ?_⟩
    · unfold FeePool.removeForBlock
      split <;> exact hs.vHashUpdate
    · unfold FeePool.removeForBlock
      split <;> exact hs.unlinked
  | prioritiseTransaction x feeDelta =>
    obtain rfl := Option.some.inj hstep
    refine ⟨hs.sound.prioritiseTransaction le_rfl htame, ?_, ?_⟩
    · rw [prioritiseTransaction_frame]
      exact hs.vHashUpdate
    · rw [prioritiseTransaction_frame]
      exact hs.unlinked
  | setFeeExchangeRates rates hashes saved =>
    obtain ⟨hguard, hset⟩ := Option.ite_none_right_eq_some.mp hstep
    obtain rfl := Option.some.inj hset
    cases saved with
    | true =>
      obtain ⟨hsound, hunlinked, hupdate⟩ :=
        hs.sound.recomputeFees hlinks htame.1 htame.2 hguard
      exact ⟨hsound, hupdate.trans hs.vHashUpdate, hunlinked.trans hs.unlinked⟩
    | false =>
      have hsame : ∀ x ∈ s.mapTx, G.feeValue rates x = G.feeValue s.rates x := htame
      exact ⟨⟨⟨hs.sound.consistent.modified, hs.sound.consistent.withAncestors,
        hs.sound.consistent.withDescendants, hs.sound.consistent.total⟩,
        fun x hx => (hs.sound.value x hx).trans (hsame x hx).symm, hs.sound.pos, hs.sound.le,
        hs.sound.budget_le⟩, hs.vHashUpdate, hs.unlinked⟩
  | reorg txs descendantsToRemove =>
    obtain ⟨hsound, hupdate, hunlinked⟩ := hexact.maybeUpdateMempoolForReorg hs.vHashUpdate
      hs.unlinked htame.1 htame.2 hstep
    exact ⟨hsound, hupdate, hunlinked⟩

/-- In every state a run reaches whose events meet the condition, the cached fees are exact; and
no total overflows between the rounds of a pass over the entries either. -/
theorem mempool_fees_exact (G : TxGraph Txid) (s : FeePool Txid)
    (hreach : (feeMachine G).Reachable (FeesTame G) s) :
    s.FeesExact G ∧ ∀ rates hashes, FeesTame G s (.setFeeExchangeRates rates hashes true) →
      ∀ k, ((hashes.take k).foldl (recomputeFee G) { s with rates }).TotalsFit := by
  have hinv : FeesInv G s := hreach.invariant (fun s hs => .init hs)
    fun s e t hs htame hstep => hs.step htame hstep
  refine ⟨hinv.sound.feesExact le_rfl hinv.unlinked, fun rates hashes htame k => ?_⟩
  exact hinv.sound.fits_foldl htame.2 (hashes.take k)

/-- Two transactions that each pay a million atoms of one asset, the second a child of the
first. -/
def parentAndChild : TxGraph ℕ where
  maxMoney := 2100000000000000
  maxMoney_le := by decide
  fee _ := 1000000
  feeAsset _ := 1
  ancestors x := if x = 1 then {0} else ∅
  fee_pos _ := by decide
  fee_le _ := by decide
  trans := by
    intro x y z hxy hyz
    split at hyz
    · rw [Finset.mem_singleton.mp hyz] at hxy
      simp at hxy
    · simp at hyz
  irrefl := by
    intro x hx
    split at hx
    · next hone =>
      rw [Finset.mem_singleton, hone] at hx
      cases hx
    · simp at hx

def emptyPool (rate : CAssetExchangeRate) : FeePool ℕ where
  rates _ := some rate
  mapTx := ∅
  entry _ := .ofValue 0
  mapDeltas _ := 0
  totalFee := 0
  vHashUpdate := []
  unlinked := []

/-- Parent and child are admitted, the parent is prioritised and the asset doubles: the child's
total with its ancestor is that of both new values and the delta. -/
theorem mempool_fees_exact_doubled : ∃ s, (s.FeesExact parentAndChild ∧
        ∀ rates hashes, FeesTame parentAndChild s (.setFeeExchangeRates rates hashes true) →
          ∀ k, ((hashes.take k).foldl (recomputeFee parentAndChild) { s with rates }).TotalsFit) ∧
      s.mapTx = {0, 1} ∧ (s.entry 1).nModFeesWithAncestors = 4000500 ∧ s.totalFee = 4000000 := by
  have hstart : (feeMachine parentAndChild).Reachable (FeesTame parentAndChild)
      (emptyPool ⟨100000000, by decide⟩) := .init ⟨rfl, rfl, rfl, rfl⟩
  have hparent := hstart.next (PoolEvent.accept (0 : ℕ))
    (And.intro (by decide +kernel) (by decide +kernel)) rfl
  have hchild := hparent.next (PoolEvent.accept (1 : ℕ))
    (And.intro (by decide +kernel) (by decide +kernel)) rfl
  have hdelta := hchild.next (PoolEvent.prioritiseTransaction (0 : ℕ) 500)
    (fun _ => by decide +kernel) rfl
  have hdoubled := hdelta.next
    (PoolEvent.setFeeExchangeRates (fun _ => some ⟨200000000, by decide⟩) [(0 : ℕ), 1] true)
    (And.intro (by decide +kernel) (by decide +kernel)) rfl
  exact ⟨_, mempool_fees_exact parentAndChild _ hdoubled, by decide +kernel, by decide +kernel,
    by decide +kernel⟩

/-- After one transaction is admitted, the operator raises the rate of its fee asset: the entry
stays, at a value that admission would refuse. -/
theorem mempool_fees_rate_rise : ∃ s, (feeMachine parentAndChild).Reachable (fun _ _ => True) s ∧
      ¬ s.FeesExact parentAndChild := by
  have hrun : ∃ s, (feeMachine parentAndChild).run (emptyPool ⟨100000000, by decide⟩) [.accept 0,
      .setFeeExchangeRates (fun _ => some ⟨2 ^ 62, by decide⟩) [0] true] = some s ∧
      0 ∈ s.mapTx ∧ 2100000000000000 < (s.entry 0).nFeeValue :=
    ⟨_, rfl, by decide +kernel, by decide +kernel⟩
  obtain ⟨s, hrun, hmem, hvalue⟩ := hrun
  refine ⟨s, Machine.reachable_run ⟨rfl, rfl, rfl, rfl⟩ hrun, fun hexact => ?_⟩
  exact absurd (hexact.inRange 0 hmem).2 (not_le.mpr hvalue)

end Sequentia
