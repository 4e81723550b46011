import Sequentia.Lib.Slots
import Mathlib.Data.List.Perm.Subperm

/-!
# Batches of record changes

The events of one slot in a batch have one of five shapes, because at most one record of
the slot exists before and at most one is created. Going through the shapes shows that a
table follows the records under the order condition, and that undoing a batch restores
the table exactly when the condition holds.
-/

set_option linter.unusedSectionVars false

namespace Slots

open List

variable {ι κ ν η : Type*} [DecidableEq κ] [DecidableEq ν]

/-- A record is removed after one with the same slot and content was created. -/
def Late (a b : Event ι κ ν η) : Prop :=
  ∃ N E, a = .created N ∧ b = .spent E ∧ E.key = N.key ∧ E.content = N.content

/-- The order condition for the events of one slot. -/
structure SafeAt (R : List (Entry ι κ ν η)) (F : List (Event ι κ ν η)) : Prop where
  /-- The record of a slot that is written anew is removed. -/
  replaced : ∀ N ∈ createdOf F, ∀ E ∈ R, E ∈ spentOf F
  /-- It is not removed too late. -/
  noLate : F.Pairwise fun a b => ¬ Late a b

/-- The records `R` before and `R'` after the events `F`, for one slot. -/
structure BatchAt (R R' : List (Entry ι κ ν η)) (F : List (Event ι κ ν η)) : Prop where
  length_old : R.length ≤ 1
  length_created : (createdOf F).length ≤ 1
  length_spent : (spentOf F).length ≤ 1
  /-- It is the one from before. -/
  spent_old : ∀ e ∈ spentOf F, e ∈ R
  /-- The slot's share of the change. -/
  delta : (R' ++ spentOf F).Perm (R ++ createdOf F)
  /-- All events are about one slot. -/
  sameKey : ∃ k, ∀ ev ∈ F, ev.entry.key = k

variable {F : List (Event ι κ ν η)} {R R' old new : List (Entry ι κ ν η)} {b : List (Step ι κ ν η)}
  {t : κ → Option (ν × η)}

/-- With at most one removal and one creation there are five shapes. -/
theorem events_cases (hcreated : (createdOf F).length ≤ 1) (hspent : (spentOf F).length ≤ 1) :
    F = [] ∨ (∃ E, F = [.spent E]) ∨ (∃ N, F = [.created N]) ∨
      (∃ E N, F = [.spent E, .created N]) ∨ ∃ E N, F = [.created N, .spent E] := by
  rcases F with _ | ⟨a, _ | ⟨b, _ | ⟨c, F⟩⟩⟩
  · simp
  · cases a <;> simp
  · cases a <;> cases b <;> simp_all [createdOf, spentOf]
  · cases a <;> cases b <;> cases c <;> simp [createdOf, spentOf] at hcreated hspent

private theorem eq_singleton {E : Entry ι κ ν η} (hlength : R.length ≤ 1) (hmem : E ∈ R) :
    R = [E] := by
  obtain ⟨x, rfl⟩ := length_eq_one_iff.mp
    (Nat.le_antisymm hlength (length_pos_of_mem hmem))
  rw [mem_singleton.mp hmem]

private theorem delta_singleton {E N : Entry ι κ ν η} (hdelta : (R' ++ [E]).Perm [E, N]) :
    R' = [N] := by
  have hperm : (E :: R').Perm [E, N] := (perm_append_singleton E R').symm.trans hdelta
  exact perm_singleton.mp ((perm_cons E).mp hperm)

/-- A slot follows its records when the order condition holds. -/
theorem BatchAt.applySlot_eq (hbatch : BatchAt R R' F) (hsafe : SafeAt R F) :
    F.foldl Event.applySlot (slotOf R) = slotOf R' ∧ R'.length ≤ 1 := by
  obtain ⟨hold, hcreated, hspent, hspentOld, hdelta, k, hkey⟩ := hbatch
  rcases events_cases hcreated hspent with rfl | ⟨E, rfl⟩ | ⟨N, rfl⟩ | ⟨E, N, rfl⟩ | ⟨E, N, rfl⟩
  · have hperm : R'.Perm R := by simpa [spentOf, createdOf] using hdelta
    have hlength := hperm.length_eq
    refine ⟨?_, hlength ▸ hold⟩
    rcases R with _ | ⟨E, _ | ⟨E', R⟩⟩
    · simp [perm_nil.mp hperm]
    · simp [perm_singleton.mp hperm]
    · simp at hold
  · obtain rfl := eq_singleton hold (hspentOld E (by simp [spentOf]))
    have hnil : R' = [] := by
      simpa [spentOf, createdOf] using hdelta.length_eq
    simp [hnil, slotOf, Event.applySlot, dropSlot]
  · rcases R with _ | ⟨E, R⟩
    · have hperm : R'.Perm [N] := by simpa [spentOf, createdOf] using hdelta
      simp [perm_singleton.mp hperm, slotOf, Event.applySlot]
    · have := hsafe.replaced N (by simp [createdOf]) E (by simp)
      simp [spentOf] at this
  · obtain rfl := eq_singleton hold (hspentOld E (by simp [spentOf]))
    have hnew : R' = [N] := delta_singleton (by simpa [spentOf, createdOf] using hdelta)
    simp [hnew, slotOf, Event.applySlot]
  · obtain rfl := eq_singleton hold (hspentOld E (by simp [spentOf]))
    have hnew : R' = [N] := delta_singleton (by simpa [spentOf, createdOf] using hdelta)
    have hkeys : E.key = N.key := by simp_all [Event.entry]
    have hcontent : N.content ≠ E.content := by
      intro hcontent
      have hlate := hsafe.noLate
      simp only [pairwise_cons, mem_singleton, forall_eq] at hlate
      exact hlate.1 ⟨N, E, rfl, rfl, hkeys, hcontent.symm⟩
    simp [hnew, slotOf, Event.applySlot, dropSlot, hcontent]

/-- Undoing restores a slot exactly when the order condition holds. -/
theorem BatchAt.revertSlot_iff (hbatch : BatchAt R R' F) :
    F.reverse.foldl Event.revertSlot (F.foldl Event.applySlot (slotOf R)) = slotOf R ↔
      SafeAt R F := by
  obtain ⟨hold, hcreated, hspent, hspentOld, hdelta, k, hkey⟩ := hbatch
  rcases events_cases hcreated hspent with rfl | ⟨E, rfl⟩ | ⟨N, rfl⟩ | ⟨E, N, rfl⟩ | ⟨E, N, rfl⟩
  · exact iff_of_true rfl ⟨by simp [createdOf], List.Pairwise.nil⟩
  · obtain rfl := eq_singleton hold (hspentOld E (by simp [spentOf]))
    exact iff_of_true rfl ⟨by simp [createdOf], pairwise_singleton _ _⟩
  · rcases R with _ | ⟨E, R⟩
    · refine iff_of_true ?_ ⟨by simp, pairwise_singleton _ _⟩
      simp [slotOf, Event.applySlot, Event.revertSlot, dropSlot]
    · refine iff_of_false ?_ fun hsafe => ?_
      · simp [slotOf, Event.applySlot, Event.revertSlot, dropSlot]
      · have := hsafe.replaced N (by simp [createdOf]) E (by simp)
        simp [spentOf] at this
  · obtain rfl := eq_singleton hold (hspentOld E (by simp [spentOf]))
    refine iff_of_true ?_ ⟨by simp [spentOf], ?_⟩
    · simp [slotOf, Event.revertSlot]
    · simp [Late]
  · obtain rfl := eq_singleton hold (hspentOld E (by simp [spentOf]))
    have hkeys : E.key = N.key := by simp_all [Event.entry]
    by_cases hcontent : E.content = N.content
    · refine iff_of_false ?_ fun hsafe => ?_
      · simp [slotOf, Event.revertSlot, dropSlot, hcontent]
      · have hlate := hsafe.noLate
        simp only [pairwise_cons, mem_singleton, forall_eq] at hlate
        exact hlate.1 ⟨N, E, rfl, rfl, hkeys, hcontent⟩
    · refine iff_of_true ?_ ⟨by simp [spentOf], ?_⟩
      · simp [slotOf, Event.revertSlot, dropSlot, hcontent]
      · simp [Late, hcontent]

/-- The record an event removes. -/
def Event.spent? : Event ι κ ν η → Option (Entry ι κ ν η)
  | .spent e => some e
  | .created _ => none

def Event.created? : Event ι κ ν η → Option (Entry ι κ ν η)
  | .spent _ => none
  | .created e => some e

theorem spentOf_eq (F : List (Event ι κ ν η)) : spentOf F = F.filterMap Event.spent? := by
  induction F with
  | nil => rfl
  | cons ev F ih => cases ev <;> simp [spentOf, filterMap_cons, Event.spent?, ih]

theorem createdOf_eq (F : List (Event ι κ ν η)) : createdOf F = F.filterMap Event.created? := by
  induction F with
  | nil => rfl
  | cons ev F ih => cases ev <;> simp [createdOf, filterMap_cons, Event.created?, ih]

theorem spentOf_events (b : List (Step ι κ ν η)) : spentOf (events b) = spentAll b := by
  simp [spentOf_eq, events, spentAll, filterMap_flatMap, Function.comp_def, Event.spent?]

theorem createdOf_events (b : List (Step ι κ ν η)) : createdOf (events b) = createdAll b := by
  simp [createdOf_eq, events, createdAll, filterMap_flatMap, Function.comp_def,
    Event.created?]

theorem spentOf_eventsAt (F : List (Event ι κ ν η)) (k : κ) :
    spentOf (eventsAt F k) = recordsAt (spentOf F) k := by
  induction F with
  | nil => rfl
  | cons ev F ih =>
    rw [eventsAt_cons]
    by_cases hkey : ev.entry.key = k <;> cases ev <;>
      simp_all [spentOf, recordsAt_cons, Event.entry]

theorem createdOf_eventsAt (F : List (Event ι κ ν η)) (k : κ) :
    createdOf (eventsAt F k) = recordsAt (createdOf F) k := by
  induction F with
  | nil => rfl
  | cons ev F ih =>
    rw [eventsAt_cons]
    by_cases hkey : ev.entry.key = k <;> cases ev <;>
      simp_all [createdOf, recordsAt_cons, Event.entry]

/-- The share of a batch that falls on one slot. -/
theorem Batch.at (hbatch : Batch old new b) (k : κ) :
    BatchAt (recordsAt old k) (recordsAt new k) (eventsAt (events b) k) := by
  have hspent : spentOf (eventsAt (events b) k) = recordsAt (spentAll b) k := by
    rw [spentOf_eventsAt, spentOf_events]
  have hcreated : createdOf (eventsAt (events b) k) = recordsAt (createdAll b) k := by
    rw [createdOf_eventsAt, createdOf_events]
  have hspentOld : ∀ e ∈ recordsAt (spentAll b) k, e ∈ recordsAt old k := by
    intro e he
    simp only [recordsAt, mem_filter] at he ⊢
    have hmem := hbatch.delta.subset (mem_append_right new he.1)
    exact ⟨(mem_append.mp hmem).resolve_right (hbatch.spent_old e he.1), he.2⟩
  have hnodup : (recordsAt (spentAll b) k).Nodup :=
    ((hbatch.delta.nodup_iff.mpr hbatch.nodup).of_append_right).filter _
  refine ⟨hbatch.unique_old k, ?_, ?_, ?_, ?_, k, ?_⟩
  · exact hcreated ▸ hbatch.unique_created k
  · rw [hspent]
    exact Nat.le_trans (hnodup.subperm hspentOld).length_le (hbatch.unique_old k)
  · exact hspent ▸ hspentOld
  · rw [hspent, hcreated]
    simpa only [recordsAt, filter_append] using hbatch.delta.filter _
  · intro ev hev
    simpa [eventsAt] using (mem_filter.mp hev).2

/-- The order condition holds exactly when it holds for every slot. -/
theorem safe_iff_forall_at :
    Safe old b ↔ ∀ k, SafeAt (recordsAt old k) (eventsAt (events b) k) := by
  have hstep : (events b).Pairwise (fun a b => ¬ Late a b) ↔ b.Pairwise NotLate := by
    rw [events, pairwise_flatMap]
    constructor
    · rintro ⟨-, hb⟩
      refine hb.imp fun h N hN E hE hkey hcontent => ?_
      exact h (.created N) (by simp [hN]) (.spent E) (by simp [hE]) ⟨N, E, rfl, rfl, hkey, hcontent⟩
    · intro hb
      refine ⟨fun s _ => ?_, hb.imp ?_⟩
      · rw [pairwise_append, pairwise_map, pairwise_map]
        refine ⟨pairwise_of_forall fun _ _ => ?_, pairwise_of_forall fun _ _ => ?_, ?_⟩
        · simp [Late]
        · simp [Late]
        · rintro _ hx y _ ⟨N, E, rfl, -⟩
          simp at hx
      · rintro s s' h x hx y hy ⟨N, E, rfl, rfl, hkey, hcontent⟩
        simp only [mem_append, mem_map, reduceCtorEq, and_false, exists_false,
          false_or, or_false, Event.spent.injEq, Event.created.injEq, exists_eq_right] at hx hy
        exact h N hx E hy hkey hcontent
  constructor
  · intro hsafe k
    refine ⟨?_, (hstep.mpr hsafe.noLate).filter _⟩
    rw [createdOf_eventsAt, createdOf_events, spentOf_eventsAt, spentOf_events]
    intro N hN E hE
    simp only [recordsAt, mem_filter, decide_eq_true_eq] at hN hE ⊢
    exact ⟨hsafe.replaced N hN.1 E hE.1 (hE.2.trans hN.2.symm), hE.2⟩
  · intro hsafe
    refine ⟨?_, hstep.mp ?_⟩
    · intro N hN E hE hkey
      have hmem := (hsafe N.key).replaced N (by
        rw [createdOf_eventsAt, createdOf_events]
        simpa [recordsAt] using hN) E (by simpa [recordsAt] using ⟨hE, hkey⟩)
      rw [spentOf_eventsAt, spentOf_events] at hmem
      exact (mem_filter.mp hmem).1
    · rw [pairwise_iff_forall_sublist]
      rintro x y hsub ⟨N, E, rfl, rfl, hkey, hcontent⟩
      have hfilter := hsub.filter (fun ev => decide (ev.entry.key = N.key))
      have hpair : List.filter (fun ev => decide (ev.entry.key = N.key))
          [Event.created N, Event.spent E] = [.created N, .spent E] := by
        simp [Event.entry, hkey]
      rw [hpair] at hfilter
      exact (pairwise_iff_forall_sublist.mp (hsafe N.key).noLate) hfilter
        ⟨N, E, rfl, rfl, hkey, hcontent⟩

theorem eventsAt_map {f : Entry ι κ ν η → Event ι κ ν η} (hkey : ∀ E, (f E).entry = E)
    (l : List (Entry ι κ ν η)) (k : κ) : eventsAt (l.map f) k = (recordsAt l k).map f := by
  simp [eventsAt, recordsAt, filter_map, Function.comp_def, hkey]

private theorem reverse_eq_self {α : Type*} {l : List α} (hlength : l.length ≤ 1) :
    l.reverse = l := by
  rcases l with _ | ⟨x, _ | ⟨y, l⟩⟩
  · rfl
  · rfl
  · simp at hlength

theorem Batch.undoEvents_at (hbatch : Batch old new b) (k : κ) :
    eventsAt (undoEvents b) k = (eventsAt (events b) k).reverse := by
  have hat := hbatch.at k
  have hsteps : ∀ f : Step ι κ ν η → List (Entry ι κ ν η), ∀ s ∈ b,
      (recordsAt (b.flatMap f) k).length ≤ 1 → (recordsAt (f s) k).length ≤ 1 := by
    intro f s hs hlength
    have hsub : (f s).Sublist (b.flatMap f) :=
      flatMap_def ▸ sublist_flatten_of_mem (mem_map_of_mem hs)
    exact Nat.le_trans (hsub.filter _).length_le hlength
  simp only [undoEvents, events, eventsAt, filter_flatMap, reverse_flatMap]
  refine flatMap_congr fun s hs => ?_
  have hs' : s ∈ b := mem_reverse.mp hs
  have hspent : (recordsAt s.spent k).length ≤ 1 := by
    refine hsteps Step.spent s hs' ?_
    simpa only [spentOf_eventsAt, spentOf_events, spentAll] using hat.length_spent
  have hcreated : (recordsAt s.created k).length ≤ 1 :=
    hsteps Step.created s hs' (hbatch.unique_created k)
  change eventsAt (s.created.map .created ++ s.spent.map .spent) k =
    (eventsAt (s.spent.map .spent ++ s.created.map .created) k).reverse
  simp only [eventsAt, filter_append, reverse_append]
  change eventsAt (s.created.map .created) k ++ eventsAt (s.spent.map .spent) k =
    (eventsAt (s.created.map .created) k).reverse ++ (eventsAt (s.spent.map .spent) k).reverse
  rw [eventsAt_map fun _ => rfl, eventsAt_map fun _ => rfl, reverse_eq_self (by simpa using hcreated),
    reverse_eq_self (by simpa using hspent)]

/-- A table follows the records through a batch that satisfies the order condition. -/
theorem Batch.represents_applySteps (hbatch : Batch old new b) (hsafe : Safe old b)
    (hrep : Represents t old) : Represents (applySteps t b) new ∧ UniqueKeys new := by
  have hat := fun k => (hbatch.at k).applySlot_eq (safe_iff_forall_at.mp hsafe k)
  refine ⟨fun k => ?_, fun k => (hat k).2⟩
  rw [applySteps_eq_foldl, foldl_apply_at, hrep k]
  exact (hat k).1

/-- Undoing a batch restores the table exactly when the order condition holds. -/
theorem Batch.revertSteps_applySteps_iff (hbatch : Batch old new b) (hrep : Represents t old) :
    revertSteps (applySteps t b) b = t ↔ Safe old b := by
  rw [safe_iff_forall_at, funext_iff]
  refine forall_congr' fun k => ?_
  rw [← (hbatch.at k).revertSlot_iff, revertSteps_eq_foldl, foldl_revert_at,
    applySteps_eq_foldl, foldl_apply_at, hbatch.undoEvents_at, ← hrep k]

end Slots
