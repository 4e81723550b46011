import Sequentia.Fees.SoundFees

/-!
# A pass over all fees at new rates

`RecomputeFees` visits the entries one after another: each takes the value of its fee at the new
rates and passes the difference on to its relatives, except that worthless ones keep their old
values and are evicted when the pass is over. The module follows the pass round by round.
-/

namespace Sequentia

open List

variable {Txid : Type} [DecidableEq Txid]

namespace FeePool

variable {G : TxGraph Txid} {s : FeePool Txid} {bound : ℤ} {rates : ExchangeRateMap}

/-- The state of `RecomputeFees` after the transactions of `done`: they have their new values
unless they are worthless, and the sums are exact. -/
structure Repriced (G : TxGraph Txid) (s : FeePool Txid) (done : List Txid) (t : FeePool Txid) :
    Prop where
  frame : t.rates = s.rates ∧ t.mapTx = s.mapTx ∧ t.mapDeltas = s.mapDeltas ∧
    t.vHashUpdate = s.vHashUpdate ∧ t.unlinked = s.unlinked
  consistent : t.Consistent G
  value : ∀ x, (t.entry x).nFeeValue =
    if x ∈ s.mapTx ∧ x ∈ done ∧ ¬ s.Worthless G x then G.feeValue s.rates x
    else (s.entry x).nFeeValue

/-- What a round of `RecomputeFees` leaves as it is. -/
theorem recomputeFee_frame (x : Txid) :
    (s.recomputeFee G x).rates = s.rates ∧ (s.recomputeFee G x).mapTx = s.mapTx ∧
      (s.recomputeFee G x).mapDeltas = s.mapDeltas ∧
      (s.recomputeFee G x).vHashUpdate = s.vHashUpdate ∧
      (s.recomputeFee G x).unlinked = s.unlinked := by
  unfold FeePool.recomputeFee
  dsimp only
  repeat' split
  all_goals exact ⟨rfl, rfl, rfl, rfl, rfl⟩

/-- The values after a round of `RecomputeFees`. -/
theorem nFeeValue_recomputeFee (x z : Txid) :
    ((s.recomputeFee G x).entry z).nFeeValue =
      if z = x ∧ x ∈ s.mapTx ∧ ¬ s.Worthless G x then G.feeValue s.rates x
      else (s.entry z).nFeeValue := by
  fun_cases FeePool.recomputeFee G s x
  case case2 hx _ hworthless _ _ _ _ =>
    simp only [hx, hworthless, not_false_eq_true, and_true]
    rw [nFeeValue_updateRelatives]
    show ((s.modify {x} _).entry z).nFeeValue = _
    by_cases hz : z = x
    · rw [hz, entry_modify_self, if_pos rfl]
      rfl
    · rw [entry_modify_of_ne _ hz, if_neg hz]
  case case3 hx _ hworthless _ hsame =>
    simp only [hx, hworthless, not_false_eq_true, and_true]
    by_cases hz : z = x
    · rw [if_pos hz, hz]
      omega
    · rw [if_neg hz]
  all_goals simp [*]

/-- One round of the pass. -/
theorem Repriced.step {t : FeePool Txid} {done : List Txid} {x : Txid}
    (ht : Repriced G s done t)
    (hfits : x ∈ s.mapTx → |G.feeValue s.rates x + s.mapDeltas x| ≤ int64Max) :
    Repriced G s (x :: done) (t.recomputeFee G x) := by
  obtain ⟨hrates, hmap, hdeltas, hupdate, hunlinked⟩ := ht.frame
  have hworthless : t.Worthless G x ↔ s.Worthless G x := by
    unfold Worthless
    rw [hrates]
  refine ⟨?_, ?_, fun z => ?_⟩
  · obtain ⟨hrates', hmap', hdeltas', hupdate', hunlinked'⟩ := recomputeFee_frame (G := G) (s := t) x
    exact ⟨hrates'.trans hrates, hmap'.trans hmap, hdeltas'.trans hdeltas,
      hupdate'.trans hupdate, hunlinked'.trans hunlinked⟩
  · refine ht.consistent.recomputeFee fun hx => ?_
    rw [hmap] at hx
    have hfits := abs_le.mp (hfits hx)
    have hmodified := ht.consistent.modified x (hmap ▸ hx)
    rw [hdeltas] at hmodified
    rw [hrates]
    exact saturatingAdd_eq (by omega) (by omega)
  · rw [nFeeValue_recomputeFee, ht.value, hmap, hrates]
    simp only [hworthless]
    by_cases hz : z = x
    · subst hz
      by_cases hx : z ∈ s.mapTx ∧ ¬ s.Worthless G z
      · simp [hx]
      · simp only [mem_cons, true_or, true_and, hx, if_false]
        rw [if_neg fun h => hx ⟨h.1, h.2.2⟩]
    · simp [hz]

/-- The pass up to any point. -/
theorem repriced_foldl (hs : s.Consistent G) (hashes : List Txid)
    (hfits : ∀ x ∈ s.mapTx, |G.feeValue s.rates x + s.mapDeltas x| ≤ int64Max) :
    Repriced G s hashes.reverse (hashes.foldl (recomputeFee G) s) := by
  suffices hrun : ∀ (t : FeePool Txid) (done : List Txid), Repriced G s done t →
      Repriced G s (hashes.reverse ++ done) (hashes.foldl (recomputeFee G) t) by
    have hall := hrun s [] ⟨⟨rfl, rfl, rfl, rfl, rfl⟩, hs, fun x => by simp⟩
    rwa [append_nil] at hall
  induction hashes with
  | nil => exact fun t done ht => ht
  | cons x hashes ih =>
    intro t done ht
    have hrest := ih (t.recomputeFee G x) (x :: done) (ht.step (hfits x))
    rwa [reverse_cons, append_assoc]

omit [DecidableEq Txid] in
theorem feeValue_nonneg (rates : ExchangeRateMap) (x : Txid) : 0 ≤ G.feeValue rates x := by
  unfold TxGraph.feeValue
  cases hlisted : rates (G.feeAsset x) with
  | none => simp [convertAmountToValue, hlisted]
  | some rate =>
    by_cases hrate : 0 < rate.scaledValue
    · have hfee := (G.fee_pos x).le
      rw [convertAmountToValue_eq hlisted hrate hfee ((G.fee_le x).trans G.maxMoney_le)]
      exact le_min (by decide) (Int.ediv_nonneg (by positivity) (by decide))
    · simp [convertAmountToValue, hlisted, not_lt.mp hrate]

/-- What the larger of the old and the new values and the deltas add up to. -/
def repricedBudget (G : TxGraph Txid) (s : FeePool Txid) (rates : ExchangeRateMap) : ℤ :=
  ∑ x ∈ s.mapTx, (max (s.entry x).nFeeValue (G.feeValue rates x) + |s.mapDeltas x|)

theorem Repriced.bounds {t : FeePool Txid} {done : List Txid} (ht : Repriced G s done t)
    (hpos : ∀ x ∈ s.mapTx, 0 < (s.entry x).nFeeValue) :
    (∀ x ∈ t.mapTx, 0 < (t.entry x).nFeeValue) ∧ t.budget ≤ s.repricedBudget G s.rates := by
  obtain ⟨-, hmap, hdeltas, -, -⟩ := ht.frame
  constructor
  · intro x hx
    rw [ht.value]
    split
    · next h =>
      have hpriced := h.2.2
      unfold Worthless at hpriced
      have := G.fee_pos x
      omega
    · exact hpos x (hmap ▸ hx)
  · unfold budget repricedBudget
    rw [hmap, hdeltas]
    refine Finset.sum_le_sum fun x _ => ?_
    rw [ht.value]
    split <;> omega

omit [DecidableEq Txid] in
theorem abs_feeValue_add_le (hpos : ∀ x ∈ s.mapTx, 0 < (s.entry x).nFeeValue)
    (hroom : s.repricedBudget G rates ≤ int64Max) :
    ∀ x ∈ s.mapTx, |G.feeValue rates x + s.mapDeltas x| ≤ int64Max := by
  intro x hx
  have hone : max (s.entry x).nFeeValue (G.feeValue rates x) + |s.mapDeltas x| ≤
      s.repricedBudget G rates :=
    Finset.single_le_sum
      (f := fun x => max (s.entry x).nFeeValue (G.feeValue rates x) + |s.mapDeltas x|)
      (fun y hy => add_nonneg (le_max_of_le_left (hpos y hy).le) (abs_nonneg _)) hx
  have hadd := abs_add_le (G.feeValue rates x) (s.mapDeltas x)
  rw [abs_of_nonneg (feeValue_nonneg rates x)] at hadd
  omega

theorem Sound.fits_foldl (hs : s.Sound G bound)
    (hroom : s.repricedBudget G rates ≤ int64Max) (hashes : List Txid) :
    (hashes.foldl (recomputeFee G) { s with rates }).TotalsFit := by
  have hconsistent : ({ s with rates } : FeePool Txid).Consistent G :=
    ⟨hs.consistent.modified, hs.consistent.withAncestors, hs.consistent.withDescendants,
      hs.consistent.total⟩
  have hpass := repriced_foldl hconsistent hashes
    (abs_feeValue_add_le (s := { s with rates }) hs.pos hroom)
  obtain ⟨hpos, hbudget⟩ := hpass.bounds hs.pos
  exact hpass.consistent.totalsFit (fun x hx => (hpos x hx).le) (hbudget.trans hroom)

/-- A saved rate change that keeps every fee in range and that the budget has room for keeps a
mempool sound. -/
theorem Sound.recomputeFees {hashes : List Txid}
    (hs : s.Sound G bound) (hlinks : s.unlinked = s.vHashUpdate)
    (hle : ∀ x ∈ s.mapTx, G.feeValue rates x ≤ G.maxMoney)
    (hroom : s.repricedBudget G rates ≤ int64Max) (hall : hashes.toFinset = s.mapTx) :
    ({ s with rates }.recomputeFees G hashes).Sound G int64Max ∧
      ({ s with rates }.recomputeFees G hashes).unlinked = s.unlinked ∧
      ({ s with rates }.recomputeFees G hashes).vHashUpdate = s.vHashUpdate := by
  have hconsistent : ({ s with rates } : FeePool Txid).Consistent G :=
    ⟨hs.consistent.modified, hs.consistent.withAncestors, hs.consistent.withDescendants,
      hs.consistent.total⟩
  have hpass := repriced_foldl hconsistent hashes
    (abs_feeValue_add_le (s := { s with rates }) hs.pos hroom)
  obtain ⟨hpos, hbudget⟩ := hpass.bounds hs.pos
  obtain ⟨hrates, hmap, hdeltas, hupdate, hunlinked⟩ := hpass.frame
  obtain ⟨hreduced, hsums, hgone, hunlinked', hupdate'⟩ := evict_spec hpass.consistent
    (hunlinked.trans (hlinks.trans hupdate.symm))
    (hashes.filter fun x => x ∈ s.mapTx ∧ ({ s with rates } : FeePool Txid).Worthless G x)
  -- What is left has been visited and was not worthless, so it has its new value.
  have hnew : ∀ x ∈ ({ s with rates }.recomputeFees G hashes).mapTx,
      x ∈ s.mapTx ∧ (({ s with rates }.recomputeFees G hashes).entry x).nFeeValue =
        G.feeValue rates x := by
    intro x hx
    have hmem : x ∈ s.mapTx := hmap ▸ hreduced.mapTx hx
    have hvisited : x ∈ hashes := mem_toFinset.mp (hall ▸ hmem)
    have hworth : ¬ ({ s with rates } : FeePool Txid).Worthless G x := by
      intro hworthless
      refine hgone x (mem_filter.mpr ⟨hvisited, ?_⟩) hx
      exact decide_eq_true ⟨hmem, hworthless⟩
    refine ⟨hmem, (hreduced.value x).trans ?_⟩
    rw [hpass.value, if_pos ⟨hmem, mem_reverse.mpr hvisited, hworth⟩]
  refine ⟨⟨hsums, fun x hx => ?_, fun x hx => ?_, fun x hx => ?_, ?_⟩,
    hunlinked'.trans hunlinked, hupdate'.trans hupdate⟩
  · rw [(hnew x hx).2]
    exact congrArg (G.feeValue · x) (hreduced.rates.trans hrates).symm
  · exact (hreduced.value x).symm ▸ hpos x (hreduced.mapTx hx)
  · rw [(hnew x hx).2]
    exact hle x (hnew x hx).1
  · refine le_trans ?_ (hbudget.trans hroom)
    unfold budget FeePool.recomputeFees
    simp only [hreduced.value, hreduced.mapDeltas]
    exact Finset.sum_le_sum_of_subset_of_nonneg hreduced.mapTx
      fun x hx _ => add_nonneg (hpos x hx).le (abs_nonneg _)

end FeePool

end Sequentia
