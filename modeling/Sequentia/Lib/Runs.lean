import Mathlib.Order.Basic

/-!
# Runs of a machine under a condition on its events

A machine has initial states and a partial next-state function. What a run may do is restricted by
a condition on each event and the state it happens in; an invariant has to be kept only by the
events that meet the condition.
-/

/-- Initial states, and what an event does in a state if it can happen there. -/
structure Machine (σ ε : Type*) where
  /-- The states a run may start in. -/
  init : σ → Prop
  /-- The state after an event. -/
  next : σ → ε → Option σ

namespace Machine

variable {σ ε : Type*}

/-- The states reached by runs all of whose events are allowed where they happen. -/
inductive Reachable (M : Machine σ ε) (allowed : σ → ε → Prop) : σ → Prop
  | init {s : σ} : M.init s → Reachable M allowed s
  | next {s t : σ} (e : ε) : Reachable M allowed s → allowed s e → M.next s e = some t →
      Reachable M allowed t

variable {M : Machine σ ε} {allowed : σ → ε → Prop}

theorem Reachable.invariant {I : σ → Prop} (hinit : ∀ s, M.init s → I s)
    (hnext : ∀ s e t, I s → allowed s e → M.next s e = some t → I t) {s : σ}
    (hreach : M.Reachable allowed s) : I s := by
  induction hreach with
  | init hs => exact hinit _ hs
  | next e _ hallowed hstep ih => exact hnext _ e _ ih hallowed hstep

theorem Reachable.mono {weaker : σ → ε → Prop} (hweaker : ∀ s e, allowed s e → weaker s e) {s : σ}
    (hreach : M.Reachable allowed s) : M.Reachable weaker s := by
  induction hreach with
  | init hs => exact .init hs
  | next e _ hallowed hstep ih => exact .next e ih (hweaker _ e hallowed) hstep

def run (M : Machine σ ε) (s : σ) (events : List ε) : Option σ := events.foldlM M.next s

def Allows (M : Machine σ ε) (allowed : σ → ε → Prop) : σ → List ε → Prop
  | _, [] => True
  | s, e :: events => allowed s e ∧ ∀ t, M.next s e = some t → M.Allows allowed t events

/-- Whether the events of a list are allowed can be checked by running them. -/
instance decidableAllows [∀ s e, Decidable (allowed s e)] :
    ∀ (s : σ) (events : List ε), Decidable (M.Allows allowed s events)
  | _, [] => .isTrue trivial
  | s, e :: events =>
    match h : M.next s e with
    | none => decidable_of_iff (allowed s e)
        ⟨fun hallowed => ⟨hallowed, fun t ht => by rw [h] at ht; cases ht⟩, And.left⟩
    | some t =>
      have := decidableAllows t events
      decidable_of_iff (allowed s e ∧ M.Allows allowed t events)
        ⟨fun hboth => ⟨hboth.1, fun t' ht' => by rw [h] at ht'; cases ht'; exact hboth.2⟩,
          fun hboth => ⟨hboth.1, hboth.2 t h⟩⟩

/-- A run can be given by what it is checked to end in. -/
theorem exists_run {s : σ} {events : List ε} {P : σ → Prop} [DecidablePred P]
    (hrun : (M.run s events).any (fun t => decide (P t)) = true) :
    ∃ t, M.run s events = some t ∧ P t := by
  obtain ⟨t, ht, hP⟩ := (Option.any_eq_true _ _).mp hrun
  exact ⟨t, ht, of_decide_eq_true hP⟩

theorem Reachable.run {s t : σ} {events : List ε} (hreach : M.Reachable allowed s)
    (hallows : M.Allows allowed s events) (hrun : M.run s events = some t) :
    M.Reachable allowed t := by
  induction events generalizing s with
  | nil =>
    cases hrun
    exact hreach
  | cons e events ih =>
    rw [Machine.run, List.foldlM_cons] at hrun
    obtain ⟨s', hstep, hrest⟩ := Option.bind_eq_some_iff.mp hrun
    exact ih (.next e hreach hallows.1 hstep) (hallows.2 s' hstep) hrest

theorem allows_true (s : σ) (events : List ε) : M.Allows (fun _ _ => True) s events := by
  induction events generalizing s with
  | nil => trivial
  | cons e events ih => exact ⟨trivial, fun t _ => ih t⟩

theorem reachable_run {s t : σ} {events : List ε} (hinit : M.init s)
    (hrun : M.run s events = some t) : M.Reachable (fun _ _ => True) t :=
  Reachable.run (.init hinit) (allows_true s events) hrun

end Machine
