import Mathlib.Data.List.Perm.Basic
import Mathlib.Tactic.Common

/-!
# Replaying moves that come in no order

A set of moves is replayed by carrying out whatever fits the state, pass after pass, until
a pass makes no progress. The replay completes if some invariant of the state and the moves
left is kept by every move that fits and leaves one that fits as long as moves are left. For
moves along a trail of keys such an invariant is that the moves left form the rest of the
trail; it is kept by every fitting move if no key is left in two directions.
-/

namespace Replay

open scoped List

section Passes

variable {S M : Type*} (step : S → M → Option S)

/-- One pass over the moves: those that fit are carried out, the others are kept. -/
def pass (s : S) : List M → S × List M
  | [] => (s, [])
  | m :: ms =>
    match step s m with
    | some s' => pass s' ms
    | none =>
      let (s', left) := pass s ms
      (s', m :: left)

/-- Passes until one makes no progress. -/
def passes : ℕ → S → List M → S × List M
  | 0, s, ms => (s, ms)
  | n + 1, s, ms =>
    let (s', left) := pass step s ms
    if left.length = ms.length then (s', left) else passes n s' left

variable {step}

variable (step) in
theorem length_pass_le (s : S) (ms : List M) : (pass step s ms).2.length ≤ ms.length := by
  induction ms generalizing s with
  | nil => exact Nat.le_refl 0
  | cons m ms ih =>
    rw [pass]
    split
    · next s' _ =>
      have := ih s'
      rw [List.length_cons]
      omega
    · have := ih s
      simpa using this

variable {s : S} {ms : List M} (Inv : S → List M → Prop)

/-- A pass over moves one of which fits makes progress. -/
theorem length_pass_lt (hfits : ∃ m ∈ ms, (step s m).isSome = true) :
    (pass step s ms).2.length < ms.length := by
  induction ms generalizing s with
  | nil =>
    obtain ⟨m, hm, -⟩ := hfits
    cases hm
  | cons m ms ih =>
    rw [pass]
    split
    · next s' _ =>
      have := length_pass_le step s' ms
      rw [List.length_cons]
      omega
    · next hnone =>
      obtain ⟨m', hm', hsome⟩ := hfits
      rcases List.mem_cons.mp hm' with rfl | hm'
      · rw [hnone] at hsome
        cases hsome
      · have := ih ⟨m', hm', hsome⟩
        simpa using this

/-- An invariant that fitting moves keep holds after a pass. -/
theorem pass_invariant
    (hperm : ∀ s ms ms', ms ~ ms' → Inv s ms → Inv s ms')
    (hstep : ∀ s m ms s', Inv s (m :: ms) → step s m = some s' → Inv s' ms) (kept : List M)
    (hinv : Inv s (kept ++ ms)) : Inv (pass step s ms).1 (kept ++ (pass step s ms).2) := by
  induction ms generalizing s kept with
  | nil => exact hinv
  | cons m ms ih =>
    rw [pass]
    split
    · next s' hsome => exact ih kept (hstep s m _ s' (hperm _ _ _ List.perm_middle hinv) hsome)
    · have hkept : Inv s ((kept ++ [m]) ++ ms) := by
        simpa using hinv
      simpa using ih _ hkept

/-- With an invariant that fitting moves keep and that leaves a fitting move, the replay carries
out all of the moves. -/
theorem passes_complete
    (hperm : ∀ s ms ms', ms ~ ms' → Inv s ms → Inv s ms')
    (hstep : ∀ s m ms s', Inv s (m :: ms) → step s m = some s' → Inv s' ms)
    (hprogress : ∀ s ms, Inv s ms → ms ≠ [] → ∃ m ∈ ms, (step s m).isSome = true) {n : ℕ}
    (hn : ms.length ≤ n) (hinv : Inv s ms) :
    (passes step n s ms).2 = [] ∧ Inv (passes step n s ms).1 [] := by
  induction n generalizing s ms with
  | zero =>
    obtain rfl := List.length_eq_zero_iff.mp (Nat.le_zero.mp hn)
    exact ⟨rfl, hinv⟩
  | succ n ih =>
    have hinv' : Inv (pass step s ms).1 (pass step s ms).2 :=
      pass_invariant Inv hperm hstep [] hinv
    rw [passes]
    by_cases hnil : ms = []
    · subst hnil
      exact ⟨rfl, hinv⟩
    · have hlt := length_pass_lt (hprogress s ms hinv hnil)
      dsimp only
      rw [if_neg (Nat.ne_of_lt hlt)]
      exact ih (by omega) hinv'

theorem pass_sublist (s : S) (ms : List M) : ((pass step s ms).2).Sublist ms := by
  induction ms generalizing s with
  | nil => exact List.Sublist.slnil
  | cons m ms ih =>
    rw [pass]
    split
    · exact (ih _).cons m
    · exact (ih s).cons_cons m

/-- What is left was there. -/
theorem passes_sublist (n : ℕ) (s : S) (ms : List M) : ((passes step n s ms).2).Sublist ms := by
  induction n generalizing s ms with
  | zero => exact List.Sublist.refl ms
  | succ n ih =>
    rw [passes]
    dsimp only
    split
    · exact pass_sublist s ms
    · exact (ih _ _).trans (pass_sublist s ms)

/-- A pass without progress leaves the state alone, and nothing fits. -/
theorem pass_stuck (hlength : (pass step s ms).2.length = ms.length) :
    (pass step s ms).1 = s ∧ ∀ m ∈ ms, step s m = none := by
  induction ms generalizing s with
  | nil => exact ⟨rfl, fun m hm => (List.not_mem_nil hm).elim⟩
  | cons m ms ih =>
    rw [pass] at hlength ⊢
    split at hlength
    · next s' hsome =>
      have := length_pass_le step s' ms
      rw [List.length_cons] at hlength
      omega
    · next hnone =>
      obtain ⟨hstate, hall⟩ := ih (Nat.succ.inj hlength)
      exact ⟨hstate, List.forall_mem_cons.mpr ⟨hnone, hall⟩⟩

/-- With a pass for every move the replay ends where nothing fits. -/
theorem passes_stuck {n : ℕ} (hn : ms.length ≤ n) :
    ∀ m ∈ (passes step n s ms).2, step (passes step n s ms).1 m = none := by
  induction n generalizing s ms with
  | zero =>
    obtain rfl := List.length_eq_zero_iff.mp (Nat.le_zero.mp hn)
    exact fun m hm => (List.not_mem_nil hm).elim
  | succ n ih =>
    rw [passes]
    dsimp only
    split
    · next hlength =>
      obtain ⟨hstate, hall⟩ := pass_stuck hlength
      intro m hm
      rw [hstate]
      exact hall m ((pass_sublist s ms).subset hm)
    · next hlength =>
      have := length_pass_le step s ms
      exact ih (by omega)

/-- An invariant that fitting moves keep holds at the end. -/
theorem passes_invariant
    (hperm : ∀ s ms ms', ms ~ ms' → Inv s ms → Inv s ms')
    (hstep : ∀ s m ms s', Inv s (m :: ms) → step s m = some s' → Inv s' ms) {n : ℕ}
    (hinv : Inv s ms) : Inv (passes step n s ms).1 (passes step n s ms).2 := by
  induction n generalizing s ms with
  | zero => exact hinv
  | succ n ih =>
    have hinv' : Inv (pass step s ms).1 (pass step s ms).2 :=
      pass_invariant Inv hperm hstep [] hinv
    rw [passes]
    dsimp only
    split
    · exact hinv'
    · exact ih hinv'

end Passes

section Trails

variable {κ : Type*}

/-- A list of moves that leads from one key to another. -/
inductive Trail : κ → List (κ × κ) → κ → Prop where
  /-- Nothing moves. -/
  | nil (k : κ) : Trail k [] k
  /-- The first move leaves the first key. -/
  | cons {k n e : κ} {l : List (κ × κ)} (rest : Trail n l e) : Trail k ((k, n) :: l) e

/-- No key is left in two directions. -/
def Forward (l : List (κ × κ)) : Prop := ∀ k n n', (k, n) ∈ l → (k, n') ∈ l → n = n'

/-- The moves can be ordered to lead from one key to another. -/
def Leads (k : κ) (l : List (κ × κ)) (e : κ) : Prop := ∃ t, t ~ l ∧ Trail k t e

variable {k e n : κ} {l l' : List (κ × κ)}

theorem Trail.append {e' : κ} (htrail : Trail k l e) (hrest : Trail e l' e') :
    Trail k (l ++ l') e' := by
  induction htrail with
  | nil k => exact hrest
  | cons _ ih => exact .cons (ih hrest)

theorem Leads.perm (hleads : Leads k l e) (hperm : l ~ l') : Leads k l' e := by
  obtain ⟨t, ht, htrail⟩ := hleads
  exact ⟨t, ht.trans hperm, htrail⟩

/-- Going one move further. -/
theorem Leads.snoc (hleads : Leads k l e) : Leads k (l ++ [(e, n)]) n := by
  obtain ⟨t, ht, htrail⟩ := hleads
  exact ⟨t ++ [(e, n)], ht.append_right _, htrail.append (.cons (.nil n))⟩

theorem leads_nil_iff : Leads k [] e ↔ k = e := by
  constructor
  · rintro ⟨t, ht, htrail⟩
    obtain rfl := List.perm_nil.mp ht
    cases htrail
    rfl
  · rintro rfl
    exact ⟨[], List.Perm.refl _, .nil k⟩

/-- As long as moves are left, one of them leaves the key reached. -/
theorem Leads.exists_mem (hleads : Leads k l e) (hne : l ≠ []) : ∃ n, (k, n) ∈ l := by
  obtain ⟨t, ht, htrail⟩ := hleads
  cases htrail with
  | nil => exact absurd (List.nil_perm.mp ht) hne
  | @cons _ n _ rest _ => exact ⟨n, ht.subset List.mem_cons_self⟩

/-- If no key is left in two directions, any move that leaves the first key is the first one of
a trail. -/
theorem Leads.tail (hleads : Leads k ((k, n) :: l) e) (hforward : Forward ((k, n) :: l)) :
    Leads n l e := by
  obtain ⟨t, ht, htrail⟩ := hleads
  cases htrail with
  | nil => exact absurd (List.nil_perm.mp ht) (List.cons_ne_nil _ _)
  | @cons _ n' _ rest hrest =>
    obtain rfl : n' = n := hforward k n' n (ht.subset List.mem_cons_self) List.mem_cons_self
    exact ⟨rest, ht.cons_inv, hrest⟩

theorem Forward.subset (hforward : Forward l) (hsub : l' ⊆ l) :
    Forward l' := fun k n n' hn hn' => hforward k n n' (hsub hn) (hsub hn')

end Trails

end Replay
