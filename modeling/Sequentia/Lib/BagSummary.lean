import Mathlib.Data.List.Perm.Basic
import Mathlib.Tactic.Common

/-!
# Reversible summaries of a bag

Many pieces of derived state (totals, counters, indexes) summarise a bag of items and
are kept up to date by adding and subtracting one item at a time. This file states what
such a summary must satisfy and derives what is wanted of it: it can be rebuilt from the
items in any order, it follows a batch of additions and removals, and undoing the batch
restores it exactly.
-/

/-- A summary of a bag of items: `Rep s l` says that `s` summarises the items of `l`,
for the bags that are `Ok` to summarise. -/
structure BagSummary (σ ι : Type*) where
  /-- The summary of the empty bag. -/
  empty : σ
  /-- Take in one more item. -/
  add : σ → ι → σ
  /-- Give up one item. -/
  sub : σ → ι → σ
  Ok : List ι → Prop
  /-- The summary matches the bag. -/
  Rep : σ → List ι → Prop
  /-- Being summarisable does not depend on the order. -/
  ok_perm : ∀ {l l'}, l.Perm l' → Ok l → Ok l'
  /-- Removing an item keeps a bag summarisable. -/
  ok_tail : ∀ {i l}, Ok (i :: l) → Ok l
  rep_empty : Rep empty []
  rep_perm : ∀ {s l l'}, Ok l → l.Perm l' → Rep s l → Rep s l'
  rep_add : ∀ {s i l}, Ok (i :: l) → Rep s l → Rep (add s i) (i :: l)
  rep_sub : ∀ {s i l}, Ok (i :: l) → Rep s (i :: l) → Rep (sub s i) l
  /-- A bag has one summary. -/
  rep_unique : ∀ {s s' l}, Rep s l → Rep s' l → s = s'

namespace BagSummary

variable {σ ι : Type*} (B : BagSummary σ ι)

/-- A part of a summarisable bag is summarisable. -/
theorem ok_of_append {l l' : List ι} (hok : B.Ok (l ++ l')) : B.Ok l' := by
  induction l with
  | nil => exact hok
  | cons i l ih => exact ih (B.ok_tail hok)

theorem rep_foldl_add {s : σ} {l items : List ι} (hok : B.Ok (l ++ items)) (hrep : B.Rep s l) :
    B.Rep (items.foldl B.add s) (l ++ items) := by
  induction items generalizing s l with
  | nil => simpa using hrep
  | cons i items ih =>
    have hperm : (l ++ i :: items).Perm ((i :: l) ++ items) := List.perm_middle
    have hok' : B.Ok ((i :: l) ++ items) := B.ok_perm hperm hok
    have hok_cons : B.Ok (i :: l) :=
      B.ok_of_append (B.ok_perm List.perm_append_comm hok')
    exact B.rep_perm hok' hperm.symm (ih hok' (B.rep_add hok_cons hrep))

/-- Subtracting items one by one follows the bag. -/
theorem rep_foldl_sub {s : σ} {l items : List ι} (hok : B.Ok (l ++ items))
    (hrep : B.Rep s (l ++ items)) : B.Rep (items.foldl B.sub s) l := by
  induction items generalizing s with
  | nil => simpa using hrep
  | cons i items ih =>
    have hperm : (l ++ i :: items).Perm (i :: (l ++ items)) := List.perm_middle
    have hok' : B.Ok (i :: (l ++ items)) := B.ok_perm hperm hok
    exact ih (B.ok_tail hok') (B.rep_sub hok' (B.rep_perm hok hperm hrep))

section Batch

variable {B} {s : σ} {old new created spent : List ι}

theorem rep_batch (hok : B.Ok (old ++ created))
    (hdelta : (new ++ spent).Perm (old ++ created)) (hrep : B.Rep s old) :
    B.Rep (spent.foldl B.sub (created.foldl B.add s)) new :=
  B.rep_foldl_sub (B.ok_perm hdelta.symm hok)
    (B.rep_perm hok hdelta.symm (B.rep_foldl_add hok hrep))

theorem revert_batch (hok : B.Ok (old ++ created))
    (hdelta : (new ++ spent).Perm (old ++ created)) (hrep : B.Rep s old) :
    created.foldl B.sub (spent.foldl B.add (spent.foldl B.sub (created.foldl B.add s))) = s :=
  B.rep_unique
    (rep_batch (B.ok_perm hdelta.symm hok) hdelta.symm (rep_batch hok hdelta hrep)) hrep

end Batch

end BagSummary
