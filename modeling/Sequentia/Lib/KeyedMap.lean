import Std.Data.ExtTreeMap.Lemmas
import Mathlib.Data.List.Perm.Basic
import Mathlib.Data.List.Nodup
import Mathlib.Data.Nat.Notation

/-!
# Ordered maps, counters and maps of maps

Extensional tree maps stand for `std::map`. This file states their lookup lemmas with
equality of keys, describes the entry list after an insertion and a removal, and adds
the two patterns that keyed state is built from: counters that are incremented in
place, and maps of maps whose rows disappear when they become empty.
-/

set_option linter.unusedSectionVars false

namespace KeyedMap

open Std List ExtTreeMap

section Lookup

variable {κ ν : Type*} [Ord κ] [TransOrd κ] [LawfulEqOrd κ] [DecidableEq κ] (m : ExtTreeMap κ ν)

/-- Looking up after an insertion. -/
theorem getElem?_insert_eq (k a : κ) (v : ν) :
    (m.insert k v)[a]? = if k = a then some v else m[a]? := by
  simp only [ExtTreeMap.getElem?_insert, LawfulEqOrd.compare_eq_iff_eq]

/-- Looking up after a removal. -/
theorem getElem?_erase_eq (k a : κ) :
    (m.erase k)[a]? = if k = a then none else m[a]? := by
  simp only [ExtTreeMap.getElem?_erase, LawfulEqOrd.compare_eq_iff_eq]

theorem nodup_keys_toList : (m.toList.map Prod.fst).Nodup := by
  rw [List.Nodup, pairwise_map]
  refine (distinct_keys_toList (t := m)).imp ?_
  intro a b hne heq
  exact hne (LawfulEqOrd.compare_eq_iff_eq.mpr heq)

theorem nodup_toList : m.toList.Nodup :=
  List.Nodup.of_map Prod.fst (nodup_keys_toList m)

/-- Inserting at an absent key adds one entry. -/
theorem toList_insert_perm {m : ExtTreeMap κ ν} {k : κ} {v : ν} (habsent : m[k]? = none) :
    (m.insert k v).toList.Perm ((k, v) :: m.toList) := by
  have hnotMem : (k, v) ∉ m.toList := by
    rw [mem_toList_iff_getElem?_eq_some, habsent]
    exact Option.some_ne_none v ∘ Eq.symm
  rw [perm_ext_iff_of_nodup (nodup_toList _)
    (nodup_cons.mpr ⟨hnotMem, nodup_toList m⟩)]
  rintro ⟨a, w⟩
  rw [mem_cons, mem_toList_iff_getElem?_eq_some,
    mem_toList_iff_getElem?_eq_some, getElem?_insert_eq]
  split
  · next heq =>
    subst heq
    simp [habsent, eq_comm]
  · next hne =>
    simp [Ne.symm hne]

/-- Removing a present key removes its entry. -/
theorem toList_erase_perm {m : ExtTreeMap κ ν} {k : κ} {v : ν} (hpresent : m[k]? = some v) :
    m.toList.Perm ((k, v) :: (m.erase k).toList) := by
  have hnotMem : (k, v) ∉ (m.erase k).toList := by
    rw [mem_toList_iff_getElem?_eq_some, getElem?_erase_eq, if_pos rfl]
    exact Option.some_ne_none v ∘ Eq.symm
  rw [perm_ext_iff_of_nodup (nodup_toList m)
    (nodup_cons.mpr ⟨hnotMem, nodup_toList _⟩)]
  rintro ⟨a, w⟩
  rw [mem_cons, mem_toList_iff_getElem?_eq_some,
    mem_toList_iff_getElem?_eq_some, getElem?_erase_eq]
  split
  · next heq =>
    subst heq
    simp [hpresent, eq_comm]
  · next hne =>
    simp [Ne.symm hne]

end Lookup

section Counters

variable {κ : Type*} [Ord κ] [TransOrd κ] [LawfulEqOrd κ] [DecidableEq κ]

/-- `m[k] += n`. -/
def addAt (m : ExtTreeMap κ ℕ) (k : κ) (n : ℕ) : ExtTreeMap κ ℕ :=
  m.insert k (m.getD k 0 + n)

/-- The entry of a counter map, which stores no zero. -/
def nonzero (n : ℕ) : Option ℕ := if n = 0 then none else some n

theorem nonzero_getD (n : ℕ) : (nonzero n).getD 0 = n := by
  unfold nonzero
  split
  · next h => simp [h]
  · rfl

theorem nonzero_of_pos {n : ℕ} (hpos : 0 < n) : nonzero n = some n := if_neg (by omega)

def Counts (m : ExtTreeMap κ ℕ) (total : κ → ℕ) : Prop := ∀ a, m[a]? = nonzero (total a)

variable {m : ExtTreeMap κ ℕ} {total : κ → ℕ}

theorem Counts.addAt (hm : Counts m total) (k : κ) {n : ℕ} (hn : 0 < n) :
    Counts (addAt m k n) fun a => (if k = a then n else 0) + total a := by
  intro a
  rw [KeyedMap.addAt, getElem?_insert_eq, getD_eq_getD_getElem?]
  by_cases heq : k = a
  · subst heq
    simp only [if_true]
    rw [hm, nonzero_getD, nonzero_of_pos (by omega), Nat.add_comm]
  · simp only [if_neg heq, Nat.zero_add, hm a]

theorem Counts.getElem?_self {k : κ} {n : ℕ} (hn : 0 < n)
    (hm : Counts m fun a => (if k = a then n else 0) + total a) : m[k]? = some (n + total k) := by
  have hk := hm k
  simp only [if_true] at hk
  rw [hk, nonzero_of_pos (by omega)]

theorem Counts.subAt {k : κ} {n : ℕ} (hm : Counts m fun a => (if k = a then n else 0) + total a) :
    Counts (if total k = 0 then m.erase k else m.insert k (total k)) total := by
  intro a
  have hother : k ≠ a → m[a]? = nonzero (total a) := fun hne => by
    simpa only [if_neg hne, Nat.zero_add] using hm a
  split
  · next hzero =>
    rw [getElem?_erase_eq]
    split
    · next heq => rw [← heq, hzero]; rfl
    · next hne => exact hother hne
  · next hpos =>
    rw [getElem?_insert_eq]
    split
    · next heq => rw [← heq, nonzero_of_pos (by omega)]
    · next hne => exact hother hne

/-- `--m[k]`, where a counter that reaches zero is erased and a missing one left alone. -/
def decAt (m : ExtTreeMap κ ℕ) (k : κ) : ExtTreeMap κ ℕ :=
  match m[k]? with
  | none => m
  | some n => if n - 1 = 0 then m.erase k else m.insert k (n - 1)

theorem Counts.decAt (hm : Counts m total) (k : κ) :
    Counts (decAt m k) fun a => total a - if k = a then 1 else 0 := by
  have hk := hm k
  unfold KeyedMap.decAt
  by_cases hzero : total k = 0
  · rw [hk, hzero, show nonzero 0 = none from rfl]
    intro a
    have hsame : total a - (if k = a then 1 else 0) = total a := by
      split
      · next heq => rw [← heq, hzero]
      · rfl
    simpa only [hsame] using hm a
  · rw [hk, nonzero_of_pos (by omega)]
    have hsplit : Counts m fun a => (if k = a then 1 else 0) +
        (total a - if k = a then 1 else 0) := by
      intro a
      have hsame : (if k = a then 1 else 0) + (total a - if k = a then 1 else 0) = total a := by
        split
        · next heq =>
          rw [← heq]
          omega
        · omega
      simpa only [hsame] using hm a
    simpa using hsplit.subAt

theorem Counts.foldl_addAt (hm : Counts m total) (l : List κ) :
    Counts (l.foldl (fun m k => KeyedMap.addAt m k 1) m) fun a =>
      total a + l.count a := by
  induction l generalizing m total with
  | nil => simpa using hm
  | cons k l ih =>
    intro a
    have hcount : (k :: l).count a = l.count a + if k = a then 1 else 0 := by
      simp [count_cons]
    rw [foldl_cons, ih (hm.addAt k Nat.one_pos) a]
    congr 1
    dsimp only
    omega

/-- Taking back every element of a list. -/
theorem Counts.foldl_decAt (hm : Counts m total) (l : List κ) :
    Counts (l.foldl KeyedMap.decAt m) fun a => total a - l.count a := by
  induction l generalizing m total with
  | nil => simpa using hm
  | cons k l ih =>
    intro a
    have hcount : (k :: l).count a = l.count a + if k = a then 1 else 0 := by
      simp [count_cons]
    rw [foldl_cons, ih (hm.decAt k) a]
    congr 1
    dsimp only
    omega

theorem counts_empty : Counts (∅ : ExtTreeMap κ ℕ) fun _ => 0 := by
  intro a
  simp [nonzero]

theorem Counts.getD_eq (hm : Counts m total) (a : κ) : m[a]?.getD 0 = total a := by
  rw [hm a, nonzero_getD]

theorem Counts.eq_iff {m' : ExtTreeMap κ ℕ} {total' : κ → ℕ} (hm : Counts m total)
    (hm' : Counts m' total') : m = m' ↔ total = total' := by
  constructor
  · rintro rfl
    funext a
    rw [← hm.getD_eq, hm'.getD_eq]
  · rintro rfl
    exact ext_getElem? fun a => (hm a).trans (hm' a).symm

end Counters

section Rows

variable {κ κ' ν : Type*} [Ord κ] [TransOrd κ] [LawfulEqOrd κ] [DecidableEq κ]
  [Ord κ'] [TransOrd κ'] [LawfulEqOrd κ']

/-- The entry at a row and a column of a map of maps. -/
def cell (m : ExtTreeMap κ (ExtTreeMap κ' ν)) (k : κ) (a : κ') : Option ν :=
  m[k]?.bind fun row => row[a]?

/-- Change a row, made empty first when it is absent: `m[k]` followed by a write. -/
def rowInsert (m : ExtTreeMap κ (ExtTreeMap κ' ν)) (k : κ)
    (f : ExtTreeMap κ' ν → ExtTreeMap κ' ν) : ExtTreeMap κ (ExtTreeMap κ' ν) :=
  m.insert k (f (m.getD k ∅))

/-- Change a row if it is present, and drop it when it becomes empty. -/
def rowUpdate (m : ExtTreeMap κ (ExtTreeMap κ' ν)) (k : κ)
    (f : ExtTreeMap κ' ν → ExtTreeMap κ' ν) : ExtTreeMap κ (ExtTreeMap κ' ν) :=
  match m[k]? with
  | none => m
  | some row => if (f row).isEmpty then m.erase k else m.insert k (f row)

def NoEmptyRow (m : ExtTreeMap κ (ExtTreeMap κ' ν)) : Prop :=
  ∀ (k : κ) (row : ExtTreeMap κ' ν), m[k]? = some row → row.isEmpty = false

/-- Reading a row that may be absent. -/
theorem getElem?_getD_row (m : ExtTreeMap κ (ExtTreeMap κ' ν)) (k : κ) (a : κ') :
    (m.getD k ∅)[a]? = cell m k a := by
  rw [getD_eq_getD_getElem?, cell]
  cases m[k]? with
  | none => simp
  | some row => rfl

theorem cell_rowInsert (m : ExtTreeMap κ (ExtTreeMap κ' ν)) (k k' : κ) (a : κ')
    (f : ExtTreeMap κ' ν → ExtTreeMap κ' ν) :
    cell (rowInsert m k f) k' a = if k = k' then (f (m.getD k ∅))[a]? else cell m k' a := by
  rw [cell, rowInsert, getElem?_insert_eq]
  split <;> rfl

theorem cell_rowUpdate (m : ExtTreeMap κ (ExtTreeMap κ' ν)) (k k' : κ) (a : κ')
    (f : ExtTreeMap κ' ν → ExtTreeMap κ' ν) :
    cell (rowUpdate m k f) k' a =
      if k = k' then m[k]?.bind (fun row => (f row)[a]?) else cell m k' a := by
  fun_cases rowUpdate m k f
  · next hrow =>
    split
    · next heq => simp [cell, ← heq, hrow]
    · rfl
  · next row hrow hempty =>
    rw [cell, getElem?_erase_eq, hrow]
    split
    · simp [isEmpty_iff.mp hempty]
    · rfl
  · next row hrow _ =>
    rw [cell, getElem?_insert_eq, hrow]
    split <;> rfl

theorem noEmptyRow_empty : NoEmptyRow (∅ : ExtTreeMap κ (ExtTreeMap κ' ν)) := by
  intro k row hrow
  simp at hrow

variable {m : ExtTreeMap κ (ExtTreeMap κ' ν)}

theorem NoEmptyRow.rowInsert (hm : NoEmptyRow m) {k : κ} {f : ExtTreeMap κ' ν → ExtTreeMap κ' ν}
    (hf : (f (m.getD k ∅)).isEmpty = false) : NoEmptyRow (KeyedMap.rowInsert m k f) := by
  intro k' row hrow
  rw [KeyedMap.rowInsert, getElem?_insert_eq] at hrow
  split at hrow
  · exact Option.some.inj hrow ▸ hf
  · exact hm k' row hrow

theorem NoEmptyRow.rowUpdate (hm : NoEmptyRow m) (k : κ) (f : ExtTreeMap κ' ν → ExtTreeMap κ' ν) :
    NoEmptyRow (KeyedMap.rowUpdate m k f) := by
  intro k' row'
  fun_cases KeyedMap.rowUpdate m k f
  · exact hm k' row'
  · rw [getElem?_erase_eq]
    split
    · exact nofun
    · exact hm k' row'
  · next hempty =>
    rw [getElem?_insert_eq]
    split
    · exact fun hrow' => Option.some.inj hrow' ▸ (Bool.not_eq_true _).mp hempty
    · exact hm k' row'

theorem ext_cell {m' : ExtTreeMap κ (ExtTreeMap κ' ν)} (hm : NoEmptyRow m) (hm' : NoEmptyRow m')
    (hcell : ∀ k a, cell m k a = cell m' k a) : m = m' := by
  have hnone : ∀ {m m' : ExtTreeMap κ (ExtTreeMap κ' ν)}, NoEmptyRow m →
      (∀ k a, cell m k a = cell m' k a) → ∀ k : κ, m'[k]? = none → m[k]? = none := by
    intro m m' hm hcell k hk
    cases hrow : m[k]? with
    | none => rfl
    | some row =>
      have hempty : row = ∅ := by
        refine ext_getElem? fun a => ?_
        have := hcell k a
        simpa [cell, hrow, hk] using this
      have := hm k row hrow
      simp [hempty] at this
  refine ext_getElem? fun k => ?_
  cases hrow : m[k]? with
  | none => exact (hnone hm' (fun k a => (hcell k a).symm) k hrow).symm
  | some row =>
    cases hrow' : m'[k]? with
    | none => exact absurd (hnone hm hcell k hrow') (by simp [hrow])
    | some row' =>
      refine congrArg some (ext_getElem? fun a => ?_)
      have := hcell k a
      simpa [cell, hrow, hrow'] using this

end Rows

end KeyedMap
