import Sequentia.Lib.SlotsBatch
import Sequentia.Stake.Registry

/-!
# Delegations and payout policies as record slots

A controller has one delegation slot, and a signer has one payout slot for every
activation height. The two layers of the registry are tables of such slots: adding a
record writes its slot and removing a record clears the slot if it still holds the
record's content.
-/

namespace Sequentia

open Std KeyedMap

/-- A delegation record: the controller is its slot, the signer its content, and the
creation height rides along. -/
abbrev DelegEntry := Slots.Entry COutPoint CPubKey CPubKey ℕ

def UtxoDeleg.table (d : UtxoDeleg) (controller : CPubKey) : Option (CPubKey × ℕ) :=
  match d.delegUtxo[controller]?, d.delegHeight[controller]? with
  | some signer, some height => some (signer, height)
  | _, _ => none

/-- Signers and heights are kept for the same controllers. -/
def UtxoDeleg.WellFormed (d : UtxoDeleg) : Prop :=
  ∀ k : CPubKey, (d.delegUtxo[k]?).isSome = (d.delegHeight[k]?).isSome

def UtxoDeleg.addEntry (d : UtxoDeleg) (e : DelegEntry) : UtxoDeleg :=
  d.add e.key e.content e.stamp

def UtxoDeleg.subEntry (d : UtxoDeleg) (e : DelegEntry) : UtxoDeleg := d.sub e.key e.content

open UtxoDeleg Slots

variable {d : UtxoDeleg}

theorem UtxoDeleg.WellFormed.addEntry (hd : d.WellFormed) (e : DelegEntry) :
    (d.addEntry e).WellFormed := by
  intro k
  simp only [UtxoDeleg.addEntry, add, getElem?_insert_eq]
  split
  · rfl
  · exact hd k

theorem UtxoDeleg.WellFormed.subEntry (hd : d.WellFormed) (e : DelegEntry) :
    (d.subEntry e).WellFormed := by
  intro k
  simp only [UtxoDeleg.subEntry, sub]
  split
  · simp only [getElem?_erase_eq]
    split
    · rfl
    · exact hd k
  · exact hd k

theorem UtxoDeleg.table_addEntry (d : UtxoDeleg) (e : DelegEntry) :
    (d.addEntry e).table = put d.table e := by
  funext k
  simp only [table, addEntry, add, getElem?_insert_eq, put]
  by_cases hk : e.key = k
  · simp [hk]
  · simp [hk]

theorem UtxoDeleg.table_subEntry (hd : d.WellFormed) (e : DelegEntry) :
    (d.subEntry e).table = drop d.table e := by
  funext k
  simp only [table, subEntry, sub, drop, dropSlot]
  by_cases hcontent : d.delegUtxo[e.key]? = some e.content
  · by_cases hk : e.key = k
    · subst hk
      have hsome := hd e.key
      rw [hcontent] at hsome
      obtain ⟨height, hheight⟩ := Option.isSome_iff_exists.mp hsome.symm
      simp [hcontent, hheight]
    · simp [hcontent, getElem?_erase_eq, hk]
  · by_cases hk : e.key = k
    · subst hk
      simp only [if_neg hcontent, if_true]
      rcases Option.eq_none_or_eq_some d.delegUtxo[e.key]? with hsigner | ⟨signer, hsigner⟩
      · simp [hsigner]
      · have hne : signer ≠ e.content := fun h => hcontent (h ▸ hsigner)
        rcases Option.eq_none_or_eq_some d.delegHeight[e.key]? with hheight | ⟨height, hheight⟩
        · simp [hsigner, hheight]
        · simp [hsigner, hheight, hne]
    · simp [hcontent, hk]

theorem UtxoDeleg.ext_table {d' : UtxoDeleg} (hd : d.WellFormed) (hd' : d'.WellFormed)
    (htable : d.table = d'.table) : d = d' := by
  have hslots : ∀ k : CPubKey,
      d.delegUtxo[k]? = d'.delegUtxo[k]? ∧ d.delegHeight[k]? = d'.delegHeight[k]? := by
    intro k
    have hk := congrFun htable k
    have h := hd k
    have h' := hd' k
    simp only [table] at hk
    cases h₁ : d.delegUtxo[k]? <;> cases h₂ : d.delegHeight[k]? <;>
      cases h₃ : d'.delegUtxo[k]? <;> cases h₄ : d'.delegHeight[k]? <;> simp_all
  have hutxo := ExtTreeMap.ext_getElem? fun k => (hslots k).1
  have hheight := ExtTreeMap.ext_getElem? fun k => (hslots k).2
  cases d
  cases d'
  simp only at hutxo hheight
  rw [hutxo, hheight]

def UtxoDeleg.applySteps (d : UtxoDeleg) (b : List (Step COutPoint CPubKey CPubKey ℕ)) :
    UtxoDeleg :=
  b.foldl (fun d s => s.created.foldl addEntry (s.spent.foldl subEntry d)) d

def UtxoDeleg.revertSteps (d : UtxoDeleg) (b : List (Step COutPoint CPubKey CPubKey ℕ)) :
    UtxoDeleg :=
  b.reverse.foldl
    (fun d s => s.spent.foldl addEntry (s.created.foldl subEntry d)) d

theorem UtxoDeleg.foldl_addEntry (hd : d.WellFormed) (l : List DelegEntry) :
    (l.foldl addEntry d).WellFormed ∧
      (l.foldl addEntry d).table = l.foldl put d.table :=
  foldl_refines (fun hd _ => ⟨hd.addEntry _, table_addEntry _ _⟩) hd
    fun _ _ => trivial

theorem UtxoDeleg.foldl_subEntry (hd : d.WellFormed) (l : List DelegEntry) :
    (l.foldl subEntry d).WellFormed ∧
      (l.foldl subEntry d).table = l.foldl drop d.table :=
  foldl_refines (fun hd _ => ⟨hd.subEntry _, table_subEntry hd _⟩) hd
    fun _ _ => trivial

theorem UtxoDeleg.table_applySteps (hd : d.WellFormed)
    (b : List (Step COutPoint CPubKey CPubKey ℕ)) :
    (d.applySteps b).WellFormed ∧ (d.applySteps b).table = Slots.applySteps d.table b := by
  refine foldl_refines (fun {d s} hd _ => ?_) hd fun _ _ => trivial
  obtain ⟨hspent, hdropped⟩ := foldl_subEntry hd s.spent
  obtain ⟨hcreated, hput⟩ := foldl_addEntry hspent s.created
  exact ⟨hcreated, hput.trans (congrArg (s.created.foldl put) hdropped)⟩

theorem UtxoDeleg.table_revertSteps (hd : d.WellFormed)
    (b : List (Step COutPoint CPubKey CPubKey ℕ)) :
    (d.revertSteps b).WellFormed ∧ (d.revertSteps b).table = Slots.revertSteps d.table b := by
  refine foldl_refines (fun {d s} hd _ => ?_) hd fun _ _ => trivial
  obtain ⟨hcreated, hdropped⟩ := foldl_subEntry hd s.created
  obtain ⟨hspent, hput⟩ := foldl_addEntry hcreated s.spent
  exact ⟨hspent, hput.trans (congrArg (s.spent.foldl put) hdropped)⟩

/-- A payout record: signer and activation height are its slot, the policy its content. -/
abbrev PayoutEntry := Slots.Entry COutPoint (CPubKey × ℕ) PosPayoutPolicy Unit

def payoutTable (m : UtxoPayout) (k : CPubKey × ℕ) : Option (PosPayoutPolicy × Unit) :=
  (cell m k.1 k.2).map fun policy => (policy, ())

def addPayoutEntry (m : UtxoPayout) (e : PayoutEntry) : UtxoPayout :=
  addUtxoPayout m e.key.1 e.content

def subPayoutEntry (m : UtxoPayout) (e : PayoutEntry) : UtxoPayout :=
  subUtxoPayout m e.key.1 e.content

theorem payoutTable_addPayoutEntry (m : UtxoPayout) {e : PayoutEntry}
    (hkey : e.key.2 = e.content.activation) :
    payoutTable (addPayoutEntry m e) = put (payoutTable m) e := by
  funext ⟨k, a⟩
  obtain ⟨id, ⟨signer, activation⟩, policy, stamp⟩ := e
  simp only at hkey
  subst hkey
  simp only [payoutTable, addPayoutEntry, addUtxoPayout, cell_rowInsert, put,
    getElem?_insert_eq, getElem?_getD_row, Prod.mk.injEq]
  by_cases hk : signer = k <;> by_cases ha : policy.activation = a <;> simp [hk, ha]

theorem payoutTable_subPayoutEntry (m : UtxoPayout) {e : PayoutEntry}
    (hkey : e.key.2 = e.content.activation) :
    payoutTable (subPayoutEntry m e) = drop (payoutTable m) e := by
  funext ⟨k, a⟩
  obtain ⟨id, ⟨signer, activation⟩, policy, stamp⟩ := e
  simp only at hkey
  subst hkey
  simp only [payoutTable, subPayoutEntry, subUtxoPayout, cell_rowUpdate, drop,
    dropSlot, Prod.mk.injEq]
  by_cases hk : signer = k
  · subst hk
    cases hrow : m[signer]? with
    | none => simp [cell, hrow]
    | some row =>
      simp only [cell, hrow, Option.bind_some]
      by_cases hpolicy : row[policy.activation]? = some policy <;>
        by_cases ha : policy.activation = a
      · subst ha
        simp [hpolicy]
      · simp [hpolicy, getElem?_erase_eq, ha]
      · subst ha
        simp [hpolicy]
      · simp [hpolicy, ha]
  · simp [hk]

theorem ext_payoutTable {m m' : UtxoPayout} (hm : NoEmptyRow m) (hm' : NoEmptyRow m')
    (htable : payoutTable m = payoutTable m') : m = m' := by
  refine ext_cell hm hm' fun k a => ?_
  have := congrFun htable (k, a)
  simp only [payoutTable] at this
  exact Option.map_injective (fun p q h => (Prod.mk.inj h).1) this

/-- The slot of a payout entry is the one its policy names. -/
def PayoutEntry.Keyed (e : PayoutEntry) : Prop := e.key.2 = e.content.activation

def applyPayoutSteps (m : UtxoPayout)
    (b : List (Step COutPoint (CPubKey × ℕ) PosPayoutPolicy Unit)) : UtxoPayout :=
  b.foldl (fun m s => s.created.foldl addPayoutEntry (s.spent.foldl subPayoutEntry m)) m

def revertPayoutSteps (m : UtxoPayout)
    (b : List (Step COutPoint (CPubKey × ℕ) PosPayoutPolicy Unit)) : UtxoPayout :=
  b.reverse.foldl (fun m s => s.spent.foldl addPayoutEntry (s.created.foldl subPayoutEntry m)) m

section Steps

variable {m : UtxoPayout} {l : List PayoutEntry}
  {b : List (Step COutPoint (CPubKey × ℕ) PosPayoutPolicy Unit)}

theorem foldl_addPayoutEntry (hm : NoEmptyRow m) (hl : ∀ e ∈ l, PayoutEntry.Keyed e) :
    NoEmptyRow (l.foldl addPayoutEntry m) ∧
      payoutTable (l.foldl addPayoutEntry m) = l.foldl put (payoutTable m) :=
  foldl_refines
    (fun hm he => ⟨hm.rowInsert (by simp), payoutTable_addPayoutEntry _ he⟩) hm hl

theorem foldl_subPayoutEntry (hm : NoEmptyRow m) (hl : ∀ e ∈ l, PayoutEntry.Keyed e) :
    NoEmptyRow (l.foldl subPayoutEntry m) ∧
      payoutTable (l.foldl subPayoutEntry m) = l.foldl drop (payoutTable m) :=
  foldl_refines
    (fun hm he => ⟨hm.rowUpdate _ _, payoutTable_subPayoutEntry _ he⟩) hm hl

variable (hm : NoEmptyRow m)
  (hb : ∀ s ∈ b, (∀ e ∈ s.spent, PayoutEntry.Keyed e) ∧ ∀ e ∈ s.created, PayoutEntry.Keyed e)

include hm hb

theorem payoutTable_applySteps : NoEmptyRow (applyPayoutSteps m b) ∧
    payoutTable (applyPayoutSteps m b) = Slots.applySteps (payoutTable m) b := by
  refine foldl_refines (fun {m s} hm hs => ?_) hm hb
  obtain ⟨hspent, hdropped⟩ := foldl_subPayoutEntry hm hs.1
  obtain ⟨hcreated, hput⟩ := foldl_addPayoutEntry hspent hs.2
  exact ⟨hcreated, hput.trans (congrArg (s.created.foldl put) hdropped)⟩

theorem payoutTable_revertSteps : NoEmptyRow (revertPayoutSteps m b) ∧
    payoutTable (revertPayoutSteps m b) = Slots.revertSteps (payoutTable m) b := by
  refine foldl_refines (fun {m s} hm hs => ?_) hm fun s hs => hb s (List.mem_reverse.mp hs)
  obtain ⟨hcreated, hdropped⟩ := foldl_subPayoutEntry hm hs.2
  obtain ⟨hspent, hput⟩ := foldl_addPayoutEntry hcreated hs.1
  exact ⟨hspent, hput.trans (congrArg (s.spent.foldl put) hdropped)⟩

end Steps

end Sequentia
