import Sequentia.Fees.MempoolFees

/-!
# The cached fee totals stay exact

Each operation of the mempool moves cached totals by differences, and the loops it runs for that
follow the links between entries. The module shows operation by operation that the totals remain
the sums over the linked entries, also while transactions of disconnected blocks are being added
back and their earlier children are not linked to them yet.
-/

namespace Sequentia

open Finset

namespace FeePool

variable {Txid : Type} [DecidableEq Txid] {G : TxGraph Txid} {s : FeePool Txid}

/-- An addition whose result is a 64-bit number does not saturate. -/
theorem saturatingAdd_eq {i j : ℤ} (hle : i + j ≤ int64Max) (hge : -int64Max - 1 ≤ i + j) :
    saturatingAdd i j = i + j := by
  unfold saturatingAdd
  rw [if_neg (by omega), if_neg (by omega)]

omit [DecidableEq Txid] in
/-- No transaction is linked above itself. -/
theorem not_linked_self (x : Txid) : ¬ G.Linked s x x := fun h => G.irrefl x h.1

/-- The modified fee of one entry has moved by `d`, and so have the totals it is part of. -/
structure Shifted (G : TxGraph Txid) (s s' : FeePool Txid) (x : Txid) (d : ℤ) : Prop where
  mapTx : s'.mapTx = s.mapTx
  linked : ∀ y z, G.Linked s' y z ↔ G.Linked s y z
  self : (s'.entry x).modifiedFee = (s.entry x).modifiedFee + d
  other : ∀ z, z ≠ x → (s'.entry z).modifiedFee = (s.entry z).modifiedFee ∧
    (s'.entry z).nFeeValue = (s.entry z).nFeeValue
  withAncestors : ∀ z ∈ s.mapTx, (s'.entry z).nModFeesWithAncestors =
    (s.entry z).nModFeesWithAncestors + if x = z ∨ G.Linked s x z then d else 0
  withDescendants : ∀ z ∈ s.mapTx, (s'.entry z).nModFeesWithDescendants =
    (s.entry z).nModFeesWithDescendants + if x = z ∨ G.Linked s z x then d else 0

variable {x z : Txid} {d v : ℤ}

theorem Consistent.shifted {s' : FeePool Txid} (hs : s.Consistent G) (hx : x ∈ s.mapTx)
    (hshift : Shifted G s s' x d)
    (hself : (s'.entry x).modifiedFee = (s'.entry x).nFeeValue + s'.mapDeltas x)
    (hdeltas : ∀ z, z ≠ x → s'.mapDeltas z = s.mapDeltas z)
    (htotal : s'.totalFee = s.totalFee + ((s'.entry x).nFeeValue - (s.entry x).nFeeValue)) :
    s'.Consistent G := by
  have hother : ∀ z ∈ s.mapTx, z ≠ x → (s'.entry z).modifiedFee = (s.entry z).modifiedFee :=
    fun z _ hz => (hshift.other z hz).1
  refine ⟨fun z hz => ?_, fun z hz => ?_, fun z hz => ?_, ?_⟩
  · rw [hshift.mapTx] at hz
    by_cases hzx : z = x
    · rw [hzx, hself]
    · rw [(hshift.other z hzx).1, (hshift.other z hzx).2, hdeltas z hzx, hs.modified z hz]
  · rw [hshift.mapTx] at hz ⊢
    simp only [hshift.linked]
    rw [FilteredSums.sum_change hx hshift.self hother, hshift.withAncestors z hz,
      hs.withAncestors z hz]
  · rw [hshift.mapTx] at hz ⊢
    simp only [hshift.linked]
    rw [FilteredSums.sum_change hx hshift.self hother, hshift.withDescendants z hz,
      hs.withDescendants z hz]
  · have hvalues := FilteredSums.sum_change (p := fun _ => True) (z := x) hx
      (f := fun z => (s.entry z).nFeeValue) (g := fun z => (s'.entry z).nFeeValue)
      (d := (s'.entry x).nFeeValue - (s.entry x).nFeeValue) (by omega)
      fun z _ hz => (hshift.other z hz).2
    simp only [filter_true, if_true] at hvalues
    rw [hshift.mapTx, hvalues, htotal, hs.total]

theorem shifted_updateRelatives {t : FeePool Txid} (hmap : t.mapTx = s.mapTx)
    (hunlinked : t.unlinked = s.unlinked) (hupdate : t.vHashUpdate = s.vHashUpdate)
    (hother : ∀ z, z ≠ x → t.entry z = s.entry z)
    (hmodified : (t.entry x).modifiedFee = (s.entry x).modifiedFee + d)
    (hanc : (t.entry x).nModFeesWithAncestors = (s.entry x).nModFeesWithAncestors + d)
    (hdesc : (t.entry x).nModFeesWithDescendants = (s.entry x).nModFeesWithDescendants + d) :
    Shifted G s (t.updateRelatives G x d) x d := by
  have hlinked : ∀ y z, G.Linked t y z ↔ G.Linked s y z := by
    intro y z
    simp only [TxGraph.Linked, hunlinked, hupdate]
  have hentry : ∀ z, (t.updateRelatives G x d).entry z =
      if z ∈ t.mapTx ∧ G.Linked s x z then
        ((t.modify (G.calculateMemPoolAncestors t x) (.updateDescendantState d)).entry
          z).updateAncestorState d
      else (t.modify (G.calculateMemPoolAncestors t x) (.updateDescendantState d)).entry z := by
    intro z
    refine if_congr ?_ rfl rfl
    simp only [TxGraph.calculateDescendants, mem_erase, mem_filter,
      mem_singleton, exists_eq_left, hlinked]
    constructor
    · rintro ⟨hne, hz, h | h⟩
      · exact absurd h hne
      · exact ⟨hz, h⟩
    · rintro ⟨hz, h⟩
      exact ⟨fun hzx => not_linked_self x (hzx ▸ h), hz, .inr h⟩
  have hbefore : ∀ z, (t.modify (G.calculateMemPoolAncestors t x)
      (.updateDescendantState d)).entry z =
      if z ∈ t.mapTx ∧ G.Linked s z x then (t.entry z).updateDescendantState d
      else t.entry z := by
    intro z
    refine if_congr ?_ rfl rfl
    simp only [TxGraph.calculateMemPoolAncestors, mem_filter, hlinked]
  have hself : (t.updateRelatives G x d).entry x = t.entry x := by
    rw [hentry, if_neg (fun h => not_linked_self x h.2), hbefore,
      if_neg (fun h => not_linked_self x h.2)]
  refine ⟨hmap, hlinked, ?_, fun z hz => ?_, fun z hz => ?_, fun z hz => ?_⟩
  · rw [hself, hmodified]
  · rw [hentry, hbefore, hother z hz]
    constructor <;> split <;> split <;> rfl
  · by_cases hzx : x = z
    · subst hzx
      rw [hself, hanc, if_pos (.inl rfl)]
    · rw [hentry, hbefore, hother z (Ne.symm hzx), hmap]
      simp only [hz, true_and, hzx, false_or]
      split <;> split <;> simp [FeeEntry.updateAncestorState, FeeEntry.updateDescendantState]
  · by_cases hzx : x = z
    · subst hzx
      rw [hself, hdesc, if_pos (.inl rfl)]
    · rw [hentry, hbefore, hother z (Ne.symm hzx), hmap]
      simp only [hz, true_and, hzx, false_or]
      split <;> split <;> simp [FeeEntry.updateAncestorState, FeeEntry.updateDescendantState]

theorem nFeeValue_updateRelatives (x z : Txid) (d : ℤ) :
    ((s.updateRelatives G x d).entry z).nFeeValue = (s.entry z).nFeeValue := by
  simp only [FeePool.updateRelatives, modify, FeeEntry.updateAncestorState,
    FeeEntry.updateDescendantState]
  repeat' split
  all_goals rfl

/-- The sums stay exact where an entry is changed, and the change passed on to its relatives. -/
theorem Consistent.updateRelatives {t : FeePool Txid} (hs : s.Consistent G) (hx : x ∈ s.mapTx)
    (hmap : t.mapTx = s.mapTx) (hunlinked : t.unlinked = s.unlinked)
    (hupdate : t.vHashUpdate = s.vHashUpdate) (hother : ∀ z, z ≠ x → t.entry z = s.entry z)
    (hmodified : (t.entry x).modifiedFee = (s.entry x).modifiedFee + d)
    (hanc : (t.entry x).nModFeesWithAncestors = (s.entry x).nModFeesWithAncestors + d)
    (hdesc : (t.entry x).nModFeesWithDescendants = (s.entry x).nModFeesWithDescendants + d)
    (hself : (t.entry x).modifiedFee = (t.entry x).nFeeValue + t.mapDeltas x)
    (hdeltas : ∀ z, z ≠ x → t.mapDeltas z = s.mapDeltas z)
    (htotal : t.totalFee = s.totalFee + ((t.entry x).nFeeValue - (s.entry x).nFeeValue)) :
    (t.updateRelatives G x d).Consistent G := by
  have hshift : Shifted G s (t.updateRelatives G x d) x d :=
    shifted_updateRelatives hmap hunlinked hupdate hother hmodified hanc hdesc
  refine hs.shifted hx hshift ?_ hdeltas ?_
  · rw [hshift.self, ← hmodified, hself, nFeeValue_updateRelatives]
    rfl
  · rw [nFeeValue_updateRelatives]
    exact htotal

/-- The entry that `modify` changes alone. -/
theorem entry_modify_self (x : Txid) (update : FeeEntry → FeeEntry) :
    (s.modify {x} update).entry x = update (s.entry x) :=
  if_pos (mem_singleton_self x)

theorem entry_modify_of_ne (update : FeeEntry → FeeEntry) (hne : z ≠ x) :
    (s.modify {x} update).entry z = s.entry z :=
  if_neg fun h => hne (mem_singleton.mp h)

/-- `PrioritiseTransaction` of an entry keeps the sums exact unless it saturates. -/
theorem Consistent.prioritiseTransaction (hs : s.Consistent G) (hx : x ∈ s.mapTx)
    (hdelta : saturatingAdd (s.mapDeltas x) d = s.mapDeltas x + d)
    (hfee : saturatingAdd (s.entry x).modifiedFee d = (s.entry x).modifiedFee + d) :
    (s.prioritiseTransaction G x d).Consistent G := by
  unfold FeePool.prioritiseTransaction
  rw [if_pos hx]
  refine hs.updateRelatives hx rfl rfl rfl (fun z hz => entry_modify_of_ne _ hz) ?_ ?_ ?_ ?_
    (fun z hz => Function.update_of_ne hz _ _) ?_
  · rw [entry_modify_self]
    exact hfee
  · rw [entry_modify_self]
    rfl
  · rw [entry_modify_self]
    rfl
  · rw [entry_modify_self]
    have hmodified := hs.modified x hx
    simp only [modify, FeeEntry.updateModifiedFee, Function.update_self, hdelta, hfee]
    omega
  · rw [entry_modify_self]
    simp [modify, FeeEntry.updateModifiedFee]

/-- A round of `RecomputeFees` keeps the sums exact unless it saturates. -/
theorem Consistent.recomputeFee (hs : s.Consistent G) (hfee : x ∈ s.mapTx →
      saturatingAdd (s.entry x).modifiedFee (G.feeValue s.rates x - (s.entry x).nFeeValue) =
        (s.entry x).modifiedFee + (G.feeValue s.rates x - (s.entry x).nFeeValue)) :
    (s.recomputeFee G x).Consistent G := by
  unfold FeePool.recomputeFee
  by_cases hx : x ∈ s.mapTx
  · rw [if_pos hx]
    dsimp only
    split
    · exact hs
    · split
      · refine hs.updateRelatives hx rfl rfl rfl (fun z hz => entry_modify_of_ne _ hz) ?_ ?_ ?_ ?_
          (fun z _ => rfl) ?_
        · show ((s.modify {x} _).entry x).modifiedFee = _
          rw [entry_modify_self]
          exact hfee hx
        · show ((s.modify {x} _).entry x).nModFeesWithAncestors = _
          rw [entry_modify_self]
          rfl
        · show ((s.modify {x} _).entry x).nModFeesWithDescendants = _
          rw [entry_modify_self]
          rfl
        · show ((s.modify {x} _).entry x).modifiedFee =
            ((s.modify {x} _).entry x).nFeeValue + s.mapDeltas x
          rw [entry_modify_self]
          have hmodified := hs.modified x hx
          simp only [FeeEntry.updateFeeValue, hfee hx]
          omega
        · show s.totalFee + _ = s.totalFee + (((s.modify {x} _).entry x).nFeeValue - _)
          rw [entry_modify_self]
          rfl
      · exact hs
  · rw [if_neg hx]
    exact hs

/-- The entry `addUnchecked` makes, unless the delta saturates. -/
theorem entry_addUnchecked_self (hfee : saturatingAdd v (s.mapDeltas x) = v + s.mapDeltas x) :
    (s.addUnchecked G x v).entry x =
      ⟨v, v + s.mapDeltas x, v + s.mapDeltas x + ∑ y ∈ s.mapTx with G.Linked s y x,
        (s.entry y).modifiedFee, v + s.mapDeltas x⟩ := by
  have hold : ∀ (set : Finset Txid) (fee : ℤ) (y : Txid),
      ((s.modify set (.updateDescendantState fee)).entry y).modifiedFee =
        (s.entry y).modifiedFee := by
    intro set fee y
    simp only [modify]
    split <;> rfl
  simp only [FeePool.addUnchecked, Function.update_self, hold]
  by_cases hdelta : s.mapDeltas x = 0
  · simp [hdelta, FeeEntry.ofValue, FeeEntry.updateAncestorState,
      TxGraph.calculateMemPoolAncestors]
  · simp [hdelta, FeeEntry.ofValue, FeeEntry.updateAncestorState, FeeEntry.updateModifiedFee, hfee,
      TxGraph.calculateMemPoolAncestors]

theorem entry_addUnchecked_of_ne (hz : z ≠ x)
    (hfee : saturatingAdd v (s.mapDeltas x) = v + s.mapDeltas x) :
    (s.addUnchecked G x v).entry z =
      if z ∈ s.mapTx ∧ G.Linked s z x then
        (s.entry z).updateDescendantState (v + s.mapDeltas x)
      else s.entry z := by
  have hnew : (if s.mapDeltas x ≠ 0 then (FeeEntry.ofValue v).updateModifiedFee (s.mapDeltas x)
      else FeeEntry.ofValue v).modifiedFee = v + s.mapDeltas x := by
    split
    · exact hfee
    · next hdelta =>
      rw [not_not.mp hdelta, add_zero]
      rfl
  simp only [FeePool.addUnchecked, Function.update_of_ne hz, hnew]
  exact if_congr mem_filter rfl rfl

/-- `addUnchecked` of a transaction no entry is linked below keeps the sums exact unless the
delta saturates. -/
theorem Consistent.addUnchecked (hs : s.Consistent G) (hx : x ∉ s.mapTx)
    (hdesc : ∀ z ∈ s.mapTx, ¬ G.Linked s x z)
    (hfee : saturatingAdd v (s.mapDeltas x) = v + s.mapDeltas x) :
    (s.addUnchecked G x v).Consistent G := by
  have hne : ∀ z ∈ s.mapTx, z ≠ x := fun z hz hzx => hx (hzx ▸ hz)
  have hself := entry_addUnchecked_self (G := G) hfee
  have hother : ∀ z ∈ s.mapTx, ((s.addUnchecked G x v).entry z).modifiedFee =
      (s.entry z).modifiedFee ∧
      ((s.addUnchecked G x v).entry z).nFeeValue = (s.entry z).nFeeValue ∧
      ((s.addUnchecked G x v).entry z).nModFeesWithAncestors =
        (s.entry z).nModFeesWithAncestors ∧
      ((s.addUnchecked G x v).entry z).nModFeesWithDescendants =
        (if x = z ∨ G.Linked s z x then v + s.mapDeltas x else 0) +
          (s.entry z).nModFeesWithDescendants := by
    intro z hz
    rw [entry_addUnchecked_of_ne (hne z hz) hfee]
    simp only [hz, true_and, (hne z hz).symm, false_or]
    split <;> simp [FeeEntry.updateDescendantState, add_comm]
  have hold : ∀ (p : Txid → Prop) [DecidablePred p],
      ∑ y ∈ s.mapTx with p y, ((s.addUnchecked G x v).entry y).modifiedFee =
        ∑ y ∈ s.mapTx with p y, (s.entry y).modifiedFee :=
    fun p _ => FilteredSums.sum_congr fun y hy => (hother y hy).1
  have hmem : ∀ z ∈ (s.addUnchecked G x v).mapTx, z = x ∨ z ∈ s.mapTx :=
    fun z hz => mem_insert.mp hz
  refine ⟨fun z hz => ?_, fun z hz => ?_, fun z hz => ?_, ?_⟩
  · rcases hmem z hz with rfl | hz
    · rw [hself]
      rfl
    · rw [(hother z hz).1, (hother z hz).2.1]
      exact hs.modified z hz
  · show _ = ∑ y ∈ insert x s.mapTx with y = z ∨ G.Linked s y z, _
    rw [FilteredSums.sum_insert hx, hold]
    rcases hmem z hz with rfl | hz
    · rw [hself, if_pos (.inl rfl)]
      have hsame : {y ∈ s.mapTx | y = z ∨ G.Linked s y z} = {y ∈ s.mapTx | G.Linked s y z} :=
        filter_congr fun y hy => or_iff_right (hne y hy)
      rw [hsame]
    · have hxz : ¬ (x = z ∨ G.Linked s x z) := not_or.mpr ⟨(hne z hz).symm, hdesc z hz⟩
      rw [(hother z hz).2.2.1, if_neg hxz, zero_add, hs.withAncestors z hz]
  · show _ = ∑ y ∈ insert x s.mapTx with y = z ∨ G.Linked s z y, _
    rw [FilteredSums.sum_insert hx, hold]
    rcases hmem z hz with rfl | hz
    · have hnone : ∑ y ∈ s.mapTx with y = z ∨ G.Linked s z y, (s.entry y).modifiedFee = 0 :=
        FilteredSums.sum_eq_zero fun y hy => not_or.mpr ⟨hne y hy, hdesc y hy⟩
      rw [hself, if_pos (.inl rfl), hnone, add_zero]
    · rw [(hother z hz).2.2.2, hself, hs.withDescendants z hz]
  · show s.totalFee + v = ∑ y ∈ insert x s.mapTx, _
    rw [sum_insert hx, hself, hs.total, add_comm]
    exact congrArg _ (sum_congr rfl fun y hy => (hother y hy).2.1.symm)

/-- `RemoveStaged` keeps the sums exact where it updates descendants or removes them as well. -/
theorem Consistent.removeStaged {stage : Finset Txid} {updateDescendants : Bool}
    (hs : s.Consistent G) (hsub : stage ⊆ s.mapTx)
    (hclosed : updateDescendants = true ∨
      ∀ y ∈ stage, ∀ z ∈ s.mapTx, G.Linked s y z → z ∈ stage) :
    (s.removeStaged G stage updateDescendants).Consistent G := by
  have hself : ∀ {z : Txid}, z ∉ stage → ∀ {p : Txid → Prop} [DecidablePred p],
      ∑ y ∈ stage with y = z ∨ p y, (s.entry y).modifiedFee =
        ∑ y ∈ stage with p y, (s.entry y).modifiedFee := by
    intro z hz p _
    refine sum_congr (filter_congr fun y hy => ?_) fun _ _ => rfl
    exact or_iff_right fun h => hz (h ▸ hy)
  have hmodified : ∀ z, ((s.removeStaged G stage updateDescendants).entry z).modifiedFee =
      (s.entry z).modifiedFee := by
    intro z
    cases updateDescendants <;> rfl
  have hvalue : ∀ z, ((s.removeStaged G stage updateDescendants).entry z).nFeeValue =
      (s.entry z).nFeeValue := by
    intro z
    cases updateDescendants <;> rfl
  refine ⟨fun z hz => ?_, fun z hz => ?_, fun z hz => ?_, ?_⟩
  · rw [hmodified, hvalue]
    exact hs.modified z (mem_sdiff.mp hz).1
  · obtain ⟨hz, hstage⟩ := mem_sdiff.mp hz
    simp only [hmodified]
    show _ = ∑ y ∈ s.mapTx \ stage with y = z ∨ G.Linked s y z, _
    rw [FilteredSums.sum_sdiff hsub, ← hs.withAncestors z hz, hself hstage]
    rcases hclosed with rfl | hclosed
    · show _ + -_ = _
      omega
    · have hnone : ∑ y ∈ stage with G.Linked s y z, (s.entry y).modifiedFee = 0 :=
        FilteredSums.sum_eq_zero fun y hy hlinked => hstage (hclosed y hy z hz hlinked)
      rw [hnone]
      cases updateDescendants with
      | false => exact (sub_zero _).symm
      | true =>
        show _ + -_ = _
        rw [hnone]
        omega
  · obtain ⟨hz, hstage⟩ := mem_sdiff.mp hz
    simp only [hmodified]
    show _ = ∑ y ∈ s.mapTx \ stage with y = z ∨ G.Linked s z y, _
    rw [FilteredSums.sum_sdiff hsub, ← hs.withDescendants z hz, hself hstage]
    cases updateDescendants <;> exact (sub_eq_add_neg _ _).symm
  · simp only [hvalue]
    show s.totalFee - _ = ∑ y ∈ s.mapTx \ stage, _
    rw [sum_sdiff_eq_sub hsub, hs.total]

/-- Removing transactions with all their descendants keeps the sums exact. -/
theorem Consistent.removeRecursive {roots : Finset Txid} (hs : s.Consistent G)
    (hlinks : s.unlinked = s.vHashUpdate) : (s.removeRecursive G roots).Consistent G := by
  refine hs.removeStaged (filter_subset _ _) (.inr fun y hy z hz hlinked => ?_)
  obtain ⟨_, x, hx, rfl | hxy⟩ := mem_filter.mp hy
  · exact mem_filter.mpr ⟨hz, y, hx, .inr hlinked⟩
  · exact mem_filter.mpr ⟨hz, x, hx, .inr
      ⟨G.trans hxy.1 hlinked.1, fun hunlinked => hlinked.2 (hlinks ▸ hxy.2 hunlinked)⟩⟩

/-- The sums depend on the links between entries only. -/
theorem Consistent.relink (hs : s.Consistent G) (vHashUpdate unlinked : List Txid)
    (hlinked : ∀ y ∈ s.mapTx, ∀ z ∈ s.mapTx,
      G.Linked { s with vHashUpdate, unlinked } y z ↔ G.Linked s y z) :
    ({ s with vHashUpdate, unlinked } : FeePool Txid).Consistent G := by
  refine ⟨hs.modified, fun z hz => ?_, fun z hz => ?_, hs.total⟩
  · rw [filter_congr fun y hy => or_congr_right (hlinked y hy z hz)]
    exact hs.withAncestors z hz
  · rw [filter_congr fun y hy => or_congr_right (hlinked z hz y hy)]
    exact hs.withDescendants z hz

/-- What linking a re-added transaction does to an entry. -/
theorem entry_updateForDescendants (x z : Txid) (hz : z ∈ s.mapTx) :
    (s.updateForDescendants G x).entry z =
      ⟨(s.entry z).nFeeValue, (s.entry z).modifiedFee,
        (s.entry z).nModFeesWithAncestors +
          (if x ∈ s.mapTx ∧ x ∈ G.ancestors z ∧ z ∉ s.vHashUpdate then (s.entry x).modifiedFee
          else 0),
        (s.entry z).nModFeesWithDescendants +
          (if z = x then ∑ y ∈ s.mapTx with x ∈ G.ancestors y ∧ y ∉ s.vHashUpdate,
            (s.entry y).modifiedFee else 0)⟩ := by
  by_cases hx : x ∈ s.mapTx
  · by_cases hzx : z = x
    · subst hzx
      simp [FeePool.updateForDescendants, modify, FeeEntry.updateDescendantState, hx, G.irrefl z]
    · by_cases hd : x ∈ G.ancestors z ∧ z ∉ s.vHashUpdate
      · simp [FeePool.updateForDescendants, modify, FeeEntry.updateAncestorState, hx, hz, hzx, hd]
      · simp [FeePool.updateForDescendants, modify, hx, hzx, hd]
  · have hzx : z ≠ x := fun h => hx (h ▸ hz)
    simp [FeePool.updateForDescendants, hx, hzx]

/-- Linking a re-added transaction keeps the sums exact, over the links there are then. -/
theorem Consistent.updateForDescendants (hs : s.Consistent G) (hx : x ∈ s.unlinked)
    (hnodup : s.unlinked.Nodup) : (s.updateForDescendants G x).Consistent G := by
  have hmap : (s.updateForDescendants G x).mapTx = s.mapTx := by
    unfold FeePool.updateForDescendants
    by_cases hx : x ∈ s.mapTx
    · simp [hx, modify]
    · simp [hx]
  have hrest : (s.updateForDescendants G x).mapDeltas = s.mapDeltas ∧
      (s.updateForDescendants G x).totalFee = s.totalFee ∧
      (s.updateForDescendants G x).vHashUpdate = s.vHashUpdate := by
    unfold FeePool.updateForDescendants
    by_cases hx : x ∈ s.mapTx
    · simp [hx, modify]
    · simp [hx]
  have hlinked : ∀ y z, G.Linked (s.updateForDescendants G x) y z ↔
      G.Linked s y z ∨ (y = x ∧ x ∈ G.ancestors z ∧ z ∉ s.vHashUpdate) := by
    intro y z
    have hunlinked : (s.updateForDescendants G x).unlinked = s.unlinked.erase x := rfl
    unfold TxGraph.Linked
    rw [hunlinked, hrest.2.2, hnodup.mem_erase_iff]
    by_cases hyx : y = x
    · subst hyx
      by_cases hz : z ∈ s.vHashUpdate <;> simp [hz, hx]
    · simp [hyx]
  have hapart : ∀ {z : Txid}, x ∈ G.ancestors z → z ∉ s.vHashUpdate →
      ¬ (x = z ∨ G.Linked s x z) := by
    rintro z hanc hz (rfl | h)
    · exact G.irrefl x hanc
    · exact hz (h.2 hx)
  have hmodified : ∀ y ∈ s.mapTx, ((s.updateForDescendants G x).entry y).modifiedFee =
      (s.entry y).modifiedFee := by
    intro y hy
    rw [entry_updateForDescendants x y hy]
  refine ⟨fun z hz => ?_, fun z hz => ?_, fun z hz => ?_, ?_⟩
  · rw [hmap] at hz
    rw [entry_updateForDescendants x z hz, hrest.1]
    exact hs.modified z hz
  · rw [hmap] at hz ⊢
    rw [FilteredSums.sum_congr hmodified, FilteredSums.sum_or (p := fun y => y = z ∨ G.Linked s y z)
      (q := fun y => y = x ∧ x ∈ G.ancestors z ∧ z ∉ s.vHashUpdate)
      (fun y _ => by rw [hlinked, or_assoc]) ?_, ← hs.withAncestors z hz,
      FilteredSums.sum_single fun y _ h => h.1, entry_updateForDescendants x z hz]
    · simp only [true_and]
    · rintro y _ h ⟨rfl, hanc, hv⟩
      exact hapart hanc hv h
  · rw [hmap] at hz ⊢
    rw [FilteredSums.sum_congr hmodified, FilteredSums.sum_or (p := fun y => y = z ∨ G.Linked s z y)
      (q := fun y => z = x ∧ x ∈ G.ancestors y ∧ y ∉ s.vHashUpdate)
      (fun y _ => by rw [hlinked, or_assoc]) ?_, ← hs.withDescendants z hz,
      entry_updateForDescendants x z hz]
    · by_cases hzx : z = x <;> simp [hzx]
    · rintro y _ h ⟨rfl, hanc, hv⟩
      exact hapart hanc hv (h.imp_left Eq.symm)
  · rw [hmap, hrest.2.1, hs.total]
    refine sum_congr rfl fun y hy => ?_
    rw [entry_updateForDescendants x y hy]

end FeePool

end Sequentia
