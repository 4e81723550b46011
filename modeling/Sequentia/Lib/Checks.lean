import Mathlib.Data.List.Basic
import Mathlib.Data.List.Forall2
import Mathlib.Tactic.Common

/-!
# Checks that end in success or a reason

A validation routine is a chain of steps in `Except`: it threads a state through a list,
or runs one check on every element, and stops at the first failure. This file inverts
success: what holds of the intermediate results of a routine that did not stop.
-/

namespace Checks

open List

universe u

variable {ε : Type*} {α β σ : Type u}

/-- Both halves of a successful chain succeeded. -/
theorem bind_eq_ok {x : Except ε α} {f : α → Except ε β} {b : β} :
    (x >>= f) = .ok b ↔ ∃ a, x = .ok a ∧ f a = .ok b := by
  cases x with
  | error e => simp [bind, Except.bind]
  | ok a => simp [bind, Except.bind]

/-- A successful guard did not fire, and what follows succeeded. -/
theorem ite_error_eq_ok {c : Prop} [Decidable c] {e : ε} {x : Except ε α} {a : α} :
    (if c then .error e else x) = .ok a ↔ ¬ c ∧ x = .ok a := by
  split <;> simp [*]

/-- A result that passes a test is a success. -/
theorem exists_ok (x : Except ε α) (test : α → Bool) (hrun : x.toOption.any test = true) :
    ∃ a, x = .ok a ∧ test a = true := by
  cases x with
  | error e => cases hrun
  | ok a => exact ⟨a, rfl, hrun⟩

variable {f : σ → α → Except ε σ} {l : List α} {s s' : σ}

/-- The invariant rule for a loop that threads a state: it speaks about the elements done
so far. -/
theorem foldlM_induction (P : List α → σ → Prop)
    (step : ∀ done s x s', P done s → f s x = .ok s' → P (done ++ [x]) s') (hinit : P [] s)
    (hrun : l.foldlM f s = .ok s') : P l s' := by
  have hgen : ∀ (l done : List α) (s : σ), P done s → l.foldlM f s = .ok s' →
      P (done ++ l) s' := by
    intro l
    induction l with
    | nil =>
      intro done s hP hrun
      cases hrun
      simpa using hP
    | cons x l ih =>
      intro done s hP hrun
      rw [foldlM_cons] at hrun
      obtain ⟨s₁, hx, hrest⟩ := bind_eq_ok.mp hrun
      simpa using ih (done ++ [x]) s₁ (step done s x s₁ hP hx) hrest
  simpa using hgen l [] s hinit hrun

/-- What every successful step of a loop implies holds of all its elements. -/
theorem foldlM_forall {Q : α → Prop} (step : ∀ s x s', f s x = .ok s' → Q x)
    (hrun : l.foldlM f s = .ok s') : ∀ x ∈ l, Q x := by
  refine foldlM_induction (fun done _ => ∀ x ∈ done, Q x) ?_ (by simp) hrun
  intro done s x s' hdone hstep y hy
  rcases mem_append.mp hy with hy | hy
  · exact hdone y hy
  · rw [mem_singleton.mp hy]
    exact step s x s' hstep

/-- A loop that collects keys and refuses a key it has collected finds them distinct. -/
theorem foldlM_nodup {κ : Type u} {f : List κ → α → Except ε (List κ)} {key? : α → Option κ}
    (step : ∀ s x s', f s x = .ok s' →
      s' = (key? x).toList ++ s ∧ ∀ k, key? x = some k → k ∉ s)
    {l s' : List _} (hrun : l.foldlM f [] = .ok s') : (l.filterMap key?).Nodup := by
  have hinv := foldlM_induction
    (fun done s => s = (done.filterMap key?).reverse ∧ (done.filterMap key?).Nodup)
    (by
      rintro done s x s' ⟨rfl, hnodup⟩ hstep
      obtain ⟨rfl, hfresh⟩ := step _ x s' hstep
      rw [filterMap_append]
      cases hkey : key? x with
      | none => simpa [hkey] using hnodup
      | some k =>
        have hk := hfresh k hkey
        rw [mem_reverse] at hk
        refine ⟨by simp [hkey], ?_⟩
        simp only [hkey, filterMap_cons, filterMap_nil]
        exact nodup_append.mpr ⟨hnodup, by simp, fun a ha b hb hab => hk (by
          rw [mem_singleton] at hb
          rwa [← hb, ← hab])⟩)
    (by simp) hrun
  exact hinv.2

/-- A loop over one element. -/
theorem foldlM_singleton {x : α} : [x].foldlM f s = f s x := by
  rw [foldlM_cons]
  cases f s x <;> rfl

/-- A loop over two lists in a row. -/
theorem foldlM_append_eq_ok {l' : List α} :
    (l ++ l').foldlM f s = .ok s' ↔
      ∃ s₁, l.foldlM f s = .ok s₁ ∧ l'.foldlM f s₁ = .ok s' := by
  rw [foldlM_append, bind_eq_ok]

/-- A loop simulates another one, element by element, if its steps succeed where those of the
other loop do, and keep the states related. -/
theorem foldlM_simulation {β τ : Type u} {ε' : Type*} {g : τ → β → Except ε' τ} {R : σ → τ → Prop}
    {S : α → β → Prop}
    (step : ∀ s t x y s', R s t → S x y → f s x = .ok s' → ∃ t', g t y = .ok t' ∧ R s' t')
    {l' : List β} (hl : List.Forall₂ S l l') {t : τ} (hst : R s t) (hrun : l.foldlM f s = .ok s') :
    ∃ t', l'.foldlM g t = .ok t' ∧ R s' t' := by
  induction hl generalizing s t with
  | nil =>
    cases hrun
    exact ⟨t, rfl, hst⟩
  | cons hS _ ih =>
    rw [foldlM_cons, bind_eq_ok] at hrun
    obtain ⟨s₁, hstep, hrest⟩ := hrun
    obtain ⟨t₁, hstep', hst₁⟩ := step _ _ _ _ _ hst hS hstep
    rw [foldlM_cons, hstep']
    exact ih hst₁ hrest

/-- A loop succeeds if, element by element, its steps do what the successful steps of another
loop do. -/
theorem foldlM_forall₂ {β : Type u} {ε' : Type*} {g : σ → β → Except ε' σ} {S : α → β → Prop}
    (step : ∀ s x y s', S x y → f s x = .ok s' → g s y = .ok s') {l' : List β}
    (hl : List.Forall₂ S l l') (hrun : l.foldlM f s = .ok s') : l'.foldlM g s = .ok s' := by
  obtain ⟨t, hrun', rfl⟩ := foldlM_simulation (R := Eq)
    (fun s t x y s' hst hS hstep => ⟨s', hst ▸ step s x y s' hS hstep, rfl⟩) hl rfl hrun
  exact hrun'

/-- The case of one list. -/
theorem foldlM_mono {g : σ → α → Except ε σ} (step : ∀ s x s', f s x = .ok s' → g s x = .ok s')
    (hrun : l.foldlM f s = .ok s') : l.foldlM g s = .ok s' :=
  foldlM_forall₂ (S := Eq) (fun s x _ s' heq hstep => heq ▸ step s x s' hstep)
    (forall₂_same.mpr fun _ _ => rfl) hrun

/-- A loop that threads nothing succeeds when every check does. -/
theorem forM_eq_ok {f : α → Except ε PUnit} : forM l f = .ok ⟨⟩ ↔ ∀ x ∈ l, f x = .ok ⟨⟩ := by
  induction l with
  | nil => simp [pure, Except.pure]
  | cons x l ih =>
    rw [forM_cons, bind_eq_ok, forall_mem_cons, ← ih]
    constructor
    · rintro ⟨⟨⟩, hx, hrest⟩
      exact ⟨hx, hrest⟩
    · rintro ⟨hx, hrest⟩
      exact ⟨⟨⟩, hx, hrest⟩

/-- Whatever stands in the second of two related lists has a partner in the first. -/
theorem exists_of_forall₂ {α β : Type*} {S : α → β → Prop} {l : List α} {l' : List β}
    (hl : List.Forall₂ S l l') {y : β} (hy : y ∈ l') : ∃ x ∈ l, S x y := by
  induction hl with
  | nil => cases hy
  | cons hS _ ih =>
    rcases mem_cons.mp hy with rfl | hy
    · exact ⟨_, mem_cons_self, hS⟩
    · obtain ⟨x, hx, hxy⟩ := ih hy
      exact ⟨x, mem_cons_of_mem _ hx, hxy⟩

/-- A loop that threads nothing succeeds if, element by element, its checks do where those of
another loop do. -/
theorem forM_forall₂ {α β : Type*} {ε' : Type*} {f : α → Except ε PUnit} {g : β → Except ε' PUnit}
    {S : α → β → Prop} (step : ∀ x y, S x y → f x = .ok ⟨⟩ → g y = .ok ⟨⟩) {l : List α}
    {l' : List β} (hl : List.Forall₂ S l l') (hrun : forM l f = .ok ⟨⟩) :
    forM l' g = .ok ⟨⟩ := by
  induction hl with
  | nil => rfl
  | cons hS _ ih =>
    rw [forM_cons, bind_eq_ok] at hrun
    obtain ⟨⟨⟩, hx, hrest⟩ := hrun
    rw [forM_cons, step _ _ hS hx]
    exact ih hrest

/-- A map that may fail succeeds element by element. -/
theorem forall₂_of_mapM {α β : Type*} {f : α → Option β} {l : List α} {l' : List β}
    (hmap : l.mapM f = some l') : List.Forall₂ (fun a b => f a = some b) l l' := by
  induction l generalizing l' with
  | nil =>
    rw [mapM_nil] at hmap
    cases hmap
    exact .nil
  | cons a l ih =>
    rw [mapM_cons] at hmap
    obtain ⟨b, hb, hrest⟩ := Option.bind_eq_some_iff.mp hmap
    obtain ⟨bs, hbs, heq⟩ := Option.bind_eq_some_iff.mp hrest
    cases heq
    exact .cons hb (ih hbs)

end Checks
