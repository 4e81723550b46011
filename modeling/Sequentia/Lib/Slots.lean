import Mathlib.Data.List.Perm.Basic
import Mathlib.Data.List.Nodup
import Mathlib.Tactic.Common

/-!
# Slots that hold one record for each key

A table keeps, for every key, the content of the record in force. A new record
overwrites its slot; a record that is removed clears its slot only while the slot still
holds its content. Such a table follows a set of records only if no key is touched twice
in the wrong order. This file finds the exact condition, for a batch of steps that each
remove some records and then create others, and for the undo of such a batch.
-/

set_option linter.unusedSectionVars false

namespace Slots

open List

/-- A record: what identifies it, its key, its content, and data that rides along. -/
structure Entry (ι κ ν η : Type*) where
  /-- The identity of the record. -/
  id : ι
  key : κ
  /-- What removal compares. -/
  content : ν
  /-- What the slot stores beside the content. -/
  stamp : η
  deriving DecidableEq

/-- One step of a batch: the records it removes, then the records it creates. -/
structure Step (ι κ ν η : Type*) where
  spent : List (Entry ι κ ν η)
  created : List (Entry ι κ ν η)

/-- A single removal or creation. -/
inductive Event (ι κ ν η : Type*) where
  | spent (e : Entry ι κ ν η)
  | created (e : Entry ι κ ν η)

section Tables

variable {ι κ ν η : Type*} [DecidableEq κ] [DecidableEq ν]

/-- Clear a slot that still holds the content of the removed record. -/
def dropSlot (x : Option (ν × η)) (e : Entry ι κ ν η) : Option (ν × η) :=
  if x.map Prod.fst = some e.content then none else x

/-- Write a record into its slot. -/
def put (t : κ → Option (ν × η)) (e : Entry ι κ ν η) : κ → Option (ν × η) :=
  fun k => if e.key = k then some (e.content, e.stamp) else t k

/-- Remove a record from its slot. -/
def drop (t : κ → Option (ν × η)) (e : Entry ι κ ν η) : κ → Option (ν × η) :=
  fun k => if e.key = k then dropSlot (t k) e else t k

def applySteps (t : κ → Option (ν × η)) (b : List (Step ι κ ν η)) : κ → Option (ν × η) :=
  b.foldl (fun t s => s.created.foldl put (s.spent.foldl drop t)) t

/-- Undo a batch, last step first: each step takes back what it created, then restores
what it removed. -/
def revertSteps (t : κ → Option (ν × η)) (b : List (Step ι κ ν η)) : κ → Option (ν × η) :=
  b.reverse.foldl (fun t s => s.spent.foldl put (s.created.foldl drop t)) t

/-- What a table stores for a slot with the given records. -/
def slotOf (l : List (Entry ι κ ν η)) : Option (ν × η) :=
  l.head?.map fun e => (e.content, e.stamp)

def recordsAt (l : List (Entry ι κ ν η)) (k : κ) : List (Entry ι κ ν η) :=
  l.filter fun e => e.key = k

/-- The table holds exactly the given records. -/
def Represents (t : κ → Option (ν × η)) (l : List (Entry ι κ ν η)) : Prop :=
  ∀ k, t k = slotOf (recordsAt l k)

/-- No two records share a slot. -/
def UniqueKeys (l : List (Entry ι κ ν η)) : Prop :=
  ∀ k, (recordsAt l k).length ≤ 1

/-- All records a batch removes. -/
def spentAll (b : List (Step ι κ ν η)) : List (Entry ι κ ν η) := b.flatMap Step.spent

/-- All records a batch creates. -/
def createdAll (b : List (Step ι κ ν η)) : List (Entry ι κ ν η) := b.flatMap Step.created

/-- The records in force before and after a batch, and what the batch may do to them:
it removes no record it creates, and creates no two records of one slot. -/
structure Batch (old new : List (Entry ι κ ν η)) (b : List (Step ι κ ν η)) : Prop where
  unique_old : UniqueKeys old
  unique_created : UniqueKeys (createdAll b)
  nodup : (old ++ createdAll b).Nodup
  delta : (new ++ spentAll b).Perm (old ++ createdAll b)
  /-- Only records from before the batch are removed. -/
  spent_old : ∀ e ∈ spentAll b, e ∉ createdAll b

/-- The later step removes no record with the content of one that the earlier creates. -/
def NotLate (s s' : Step ι κ ν η) : Prop :=
  ∀ N ∈ s.created, ∀ E ∈ s'.spent, E.key = N.key → E.content ≠ N.content

instance (s s' : Step ι κ ν η) : Decidable (NotLate s s') := by
  unfold NotLate
  infer_instance

/-- The order condition: a record whose slot is written anew is removed by the batch, and
not after the new one is written if the two have the same content. -/
structure Safe (old : List (Entry ι κ ν η)) (b : List (Step ι κ ν η)) : Prop where
  /-- A record whose slot is written anew is removed. -/
  replaced : ∀ N ∈ createdAll b, ∀ E ∈ old, E.key = N.key → E ∈ spentAll b
  /-- No record is removed after one of the same content was created. -/
  noLate : b.Pairwise NotLate

variable {l l' : List (Entry ι κ ν η)}

/-- Records with distinct keys are unambiguous. -/
theorem uniqueKeys_of_nodup (hnodup : (l.map Entry.key).Nodup) : UniqueKeys l := by
  intro k
  have hsub : ((recordsAt l k).map Entry.key).Nodup := (filter_sublist.map _).nodup hnodup
  rcases hrec : recordsAt l k with _ | ⟨E, _ | ⟨E', rest⟩⟩
  · simp
  · simp
  · have hkey : ∀ x ∈ recordsAt l k, x.key = k := fun x hx => by
      simpa using (mem_filter.mp hx).2
    rw [hrec] at hsub hkey
    simp [hkey E (by simp), hkey E' (by simp)] at hsub

/-- Two records of an unambiguous list with one key are the same. -/
theorem eq_of_uniqueKeys (hunique : UniqueKeys l) {E E' : Entry ι κ ν η} (hE : E ∈ l) (hE' : E' ∈ l)
    (hkey : E.key = E'.key) : E = E' := by
  have hmem : E ∈ recordsAt l E'.key := mem_filter.mpr ⟨hE, by simpa using hkey⟩
  have hmem' : E' ∈ recordsAt l E'.key := mem_filter.mpr ⟨hE', by simp⟩
  have hlength := hunique E'.key
  rcases hrec : recordsAt l E'.key with _ | ⟨x, _ | ⟨y, rest⟩⟩
  · simp [hrec] at hmem
  · rw [hrec] at hmem hmem'
    rw [mem_singleton.mp hmem, mem_singleton.mp hmem']
  · simp [hrec] at hlength

/-- Being unambiguous does not depend on the order. -/
theorem UniqueKeys.perm (hperm : l.Perm l') (hl : UniqueKeys l) : UniqueKeys l' :=
  fun k => (hperm.filter _).length_eq ▸ hl k

/-- Nor does what the table of an unambiguous list stores. -/
theorem Represents.perm {t : κ → Option (ν × η)} (hperm : l.Perm l') (hl : UniqueKeys l)
    (hrep : Represents t l) : Represents t l' := by
  intro k
  have hat : (recordsAt l k).Perm (recordsAt l' k) := hperm.filter _
  have hlength := hl k
  rw [hrep k]
  rcases hrec : recordsAt l k with _ | ⟨E, _ | ⟨E', rest⟩⟩
  · rw [hrec] at hat
    rw [hat.nil_eq]
  · rw [hrec] at hat
    rw [perm_singleton.mp hat.symm]
  · simp [hrec] at hlength

/-- Writing the records of an unambiguous list into an empty table represents it. -/
theorem represents_foldl_put (hl : UniqueKeys l) : Represents (l.foldl put fun _ => none) l := by
  have hput : ∀ (l : List (Entry ι κ ν η)) (t : κ → Option (ν × η)) (k : κ),
      l.foldl put t k =
        ((recordsAt l k).getLast?.map fun e => (e.content, e.stamp)).or (t k) := by
    intro l
    induction l with
    | nil => intro t k; rfl
    | cons E l ih =>
      intro t k
      rw [foldl_cons, ih, put]
      simp only [recordsAt, filter_cons, decide_eq_true_eq]
      split
      · cases hlast : (l.filter fun e => decide (e.key = k)).getLast? with
        | none => simp [List.getLast?_cons, hlast]
        | some e => simp [List.getLast?_cons, hlast]
      · rfl
  intro k
  have hlength := hl k
  rw [hput, Option.or_none, slotOf]
  rcases hrec : recordsAt l k with _ | ⟨E, _ | ⟨E', rest⟩⟩
  · rfl
  · rfl
  · simp [hrec] at hlength

/-- The record an event is about. -/
def Event.entry : Event ι κ ν η → Entry ι κ ν η
  | .spent e => e
  | .created e => e

def spentOf : List (Event ι κ ν η) → List (Entry ι κ ν η)
  | [] => []
  | .spent e :: evs => e :: spentOf evs
  | .created _ :: evs => spentOf evs

def createdOf : List (Event ι κ ν η) → List (Entry ι κ ν η)
  | [] => []
  | .spent _ :: evs => createdOf evs
  | .created e :: evs => e :: createdOf evs

/-- The effect of an event on a table. -/
def Event.apply (t : κ → Option (ν × η)) : Event ι κ ν η → κ → Option (ν × η)
  | .spent e => drop t e
  | .created e => put t e

/-- The effect of undoing an event on a table. -/
def Event.revert (t : κ → Option (ν × η)) : Event ι κ ν η → κ → Option (ν × η)
  | .spent e => put t e
  | .created e => drop t e

def Event.applySlot (x : Option (ν × η)) : Event ι κ ν η → Option (ν × η)
  | .spent e => dropSlot x e
  | .created e => some (e.content, e.stamp)

def Event.revertSlot (x : Option (ν × η)) : Event ι κ ν η → Option (ν × η)
  | .spent e => some (e.content, e.stamp)
  | .created e => dropSlot x e

/-- The events of a batch, in order. -/
def events (b : List (Step ι κ ν η)) : List (Event ι κ ν η) :=
  b.flatMap fun s => s.spent.map .spent ++ s.created.map .created

def undoEvents (b : List (Step ι κ ν η)) : List (Event ι κ ν η) :=
  b.reverse.flatMap fun s => s.created.map .created ++ s.spent.map .spent

def eventsAt (evs : List (Event ι κ ν η)) (k : κ) : List (Event ι κ ν η) :=
  evs.filter fun ev => ev.entry.key = k

theorem recordsAt_cons (e : Entry ι κ ν η) (l : List (Entry ι κ ν η)) (k : κ) :
    recordsAt (e :: l) k = if e.key = k then e :: recordsAt l k else recordsAt l k := by
  simp only [recordsAt, filter_cons, decide_eq_true_eq]

theorem eventsAt_cons (ev : Event ι κ ν η) (evs : List (Event ι κ ν η)) (k : κ) :
    eventsAt (ev :: evs) k =
      if ev.entry.key = k then ev :: eventsAt evs k else eventsAt evs k := by
  simp only [eventsAt, filter_cons, decide_eq_true_eq]

theorem applySteps_eq_foldl (t : κ → Option (ν × η)) (b : List (Step ι κ ν η)) :
    applySteps t b = (events b).foldl Event.apply t := by
  simp only [applySteps, events, foldl_flatMap, foldl_append, foldl_map,
    Event.apply]

theorem revertSteps_eq_foldl (t : κ → Option (ν × η)) (b : List (Step ι κ ν η)) :
    revertSteps t b = (undoEvents b).foldl Event.revert t := by
  simp only [revertSteps, undoEvents, foldl_flatMap, foldl_append, foldl_map,
    Event.revert]

theorem foldl_apply_at (evs : List (Event ι κ ν η)) (t : κ → Option (ν × η)) (k : κ) :
    evs.foldl Event.apply t k = (eventsAt evs k).foldl Event.applySlot (t k) := by
  induction evs generalizing t with
  | nil => rfl
  | cons ev evs ih =>
    rw [foldl_cons, ih, eventsAt_cons]
    by_cases hkey : ev.entry.key = k
    · cases ev <;> simp_all [Event.apply, Event.applySlot, Event.entry, put, drop]
    · cases ev <;> simp_all [Event.apply, Event.entry, put, drop]

theorem foldl_revert_at (evs : List (Event ι κ ν η)) (t : κ → Option (ν × η)) (k : κ) :
    evs.foldl Event.revert t k = (eventsAt evs k).foldl Event.revertSlot (t k) := by
  induction evs generalizing t with
  | nil => rfl
  | cons ev evs ih =>
    rw [foldl_cons, ih, eventsAt_cons]
    by_cases hkey : ev.entry.key = k
    · cases ev <;> simp_all [Event.revert, Event.revertSlot, Event.entry, put, drop]
    · cases ev <;> simp_all [Event.revert, Event.entry, put, drop]

end Tables

theorem foldl_refines {σ τ ε : Type*} {inv : σ → Prop} {abs : σ → τ} {ok : ε → Prop}
    {f : σ → ε → σ} {g : τ → ε → τ}
    (hstep : ∀ {s e}, inv s → ok e → inv (f s e) ∧ abs (f s e) = g (abs s) e)
    {s : σ} (hs : inv s) {l : List ε} (hl : ∀ e ∈ l, ok e) :
    inv (l.foldl f s) ∧ abs (l.foldl f s) = l.foldl g (abs s) := by
  induction l generalizing s with
  | nil => exact ⟨hs, rfl⟩
  | cons e l ih =>
    rw [forall_mem_cons] at hl
    obtain ⟨hinv, habs⟩ := hstep hs hl.1
    rw [foldl_cons, foldl_cons, ← habs]
    exact ih hinv hl.2

end Slots
