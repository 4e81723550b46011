import Sequentia.Lib.BagSummary
import Sequentia.Stake.Registry

/-!
# The pot layer summarises the pot and round outputs

The registry indexes unspent pots and rounds by pool and outpoint. An outpoint names one
output, so adding and subtracting outputs one by one follows the bag of unspent pots.
-/

namespace Sequentia

open Std KeyedMap

/-- The pot layer holds exactly the given outputs. -/
structure PotRep (m : UtxoPot) (l : List PotItem) : Prop where
  /-- No pool without pots. -/
  noEmptyRow : NoEmptyRow m
  cell_iff : ∀ k o r, cell m k o = some r ↔ ⟨k, o, r⟩ ∈ l

/-- Outputs at distinct outpoints. -/
def PotOk (l : List PotItem) : Prop := (l.map PotItem.outpoint).Nodup

variable {l : List PotItem} {i : PotItem}

theorem PotRep.unique {m m' : UtxoPot} (hrep : PotRep m l) (hrep' : PotRep m' l) : m = m' :=
  ext_cell hrep.noEmptyRow hrep'.noEmptyRow fun k o => Option.ext fun r => by
    rw [hrep.cell_iff, hrep'.cell_iff]

/-- No other output has the outpoint of the first. -/
theorem PotOk.not_mem (hok : PotOk (i :: l)) {k : CPubKey} {r : PosPotRef} :
    ⟨k, i.outpoint, r⟩ ∉ l := by
  intro hmem
  exact (List.nodup_cons.mp hok).1 (List.mem_map.mpr ⟨_, hmem, rfl⟩)

theorem PotRep.add {m : UtxoPot} (hok : PotOk (i :: l)) (hrep : PotRep m l) :
    PotRep (addUtxoPot m i) (i :: l) := by
  refine ⟨hrep.noEmptyRow.rowInsert (by simp), fun k o r => ?_⟩
  rw [addUtxoPot, cell_rowInsert]
  obtain ⟨signer, outpoint, ref⟩ := i
  simp only [List.mem_cons, PotItem.mk.injEq]
  split
  · next hk =>
    subst hk
    rw [getElem?_insert_eq, getElem?_getD_row]
    split
    · next ho =>
      subst ho
      have := hok.not_mem (k := signer) (r := r)
      simp only at this
      simp [this, eq_comm]
    · next ho => simp [hrep.cell_iff, Ne.symm ho]
  · next hk => simp [hrep.cell_iff, Ne.symm hk]

theorem PotRep.sub {m : UtxoPot} (hok : PotOk (i :: l)) (hrep : PotRep m (i :: l)) :
    PotRep (subUtxoPot m i) l := by
  refine ⟨hrep.noEmptyRow.rowUpdate _ _, fun k o r => ?_⟩
  rw [subUtxoPot, cell_rowUpdate]
  obtain ⟨signer, outpoint, ref⟩ := i
  have hcell := hrep.cell_iff k o r
  simp only [List.mem_cons, PotItem.mk.injEq] at hcell
  split
  · next hk =>
    subst hk
    have hnone := hok.not_mem (k := signer) (r := r)
    simp only at hnone
    by_cases ho : outpoint = o
    · subst ho
      cases m[signer]? with
      | none => simp [hnone]
      | some row => simp [hnone]
    · rw [cell] at hcell
      cases hrow : m[signer]? with
      | none => simpa [hrow, Ne.symm ho] using hcell
      | some row =>
        simp only [Option.bind_some, getElem?_erase_eq, if_neg ho]
        simpa [hrow, Ne.symm ho] using hcell
  · next hk => simpa [Ne.symm hk] using hcell

/-- The pot layer as a reversible summary of the pot and round outputs. -/
def potSummary : BagSummary UtxoPot PotItem where
  empty := ∅
  add := addUtxoPot
  sub := subUtxoPot
  Ok := PotOk
  Rep := PotRep
  ok_perm hperm := (hperm.map PotItem.outpoint).nodup_iff.mp
  ok_tail hok := (List.nodup_cons.mp hok).2
  rep_empty := ⟨noEmptyRow_empty, fun k o r => by simp [cell]⟩
  rep_perm _ hperm hrep := ⟨hrep.noEmptyRow, fun k o r => by rw [hrep.cell_iff, hperm.mem_iff]⟩
  rep_add := PotRep.add
  rep_sub := PotRep.sub
  rep_unique := PotRep.unique

end Sequentia
