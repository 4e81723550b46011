import Sequentia.Lib.Runs

/-!
# Steps that can be taken back

A step leaves undo data behind, with which it is taken back later. Steps are taken and taken back
in any order, the last one first. Where taking back a step restores the state it was taken in, the
state is at all times the one that the steps still standing lead to, and the last of them can be
taken back.
-/

/-- A step with its undo data, and how it is taken back. -/
structure Rewind (σ β υ : Type*) where
  /-- The state after a step, and what is kept to take it back. -/
  step : σ → β → Option (σ × υ)
  /-- The state after a step is taken back. -/
  back : σ → β → υ → Option σ

namespace Rewind

variable {σ β υ : Type*}

/-- A state with the steps that stand, the last one first. -/
structure Tip (σ β υ : Type*) where
  /-- The state at the tip. -/
  state : σ
  /-- The steps with their undo data. -/
  log : List (β × υ)

/-- A change of the tip. -/
inductive Change (β : Type*) where
  /-- One more step. -/
  | forward (b : β)
  /-- The last step is taken back. -/
  | backward

/-- Steps taken and taken back from a start. -/
def machine (R : Rewind σ β υ) (start : σ) : Machine (Tip σ β υ) (Change β) where
  init t := t = ⟨start, []⟩
  next t
    | .forward b => (R.step t.state b).map fun r => ⟨r.1, (b, r.2) :: t.log⟩
    | .backward => match t.log with
      | [] => none
      | (b, u) :: log => (R.back t.state b u).map fun s => ⟨s, log⟩

/-- The steps of a log lead from the start to a state, each allowed where it is taken. -/
inductive Traced (R : Rewind σ β υ) (allowed : σ → β → Prop) (start : σ) :
    σ → List (β × υ) → Prop
  | nil : Traced R allowed start start []
  | cons {s s' : σ} {b : β} {u : υ} {log : List (β × υ)} (hbefore : Traced R allowed start s log)
      (hallowed : allowed s b) (hstep : R.step s b = some (s', u)) :
      Traced R allowed start s' ((b, u) :: log)

variable {R : Rewind σ β υ} {allowed : σ → β → Prop} {start s : σ} {log : List (β × υ)}
  {I : σ → Prop}

theorem next_forward {t t' : Tip σ β υ} {b : β} :
    (R.machine start).next t (.forward b) = some t' ↔
      ∃ r, R.step t.state b = some r ∧ ⟨r.1, (b, r.2) :: t.log⟩ = t' :=
  Option.map_eq_some_iff

theorem next_backward {t' : Tip σ β υ} {b : β} {u : υ} :
    (R.machine start).next ⟨s, (b, u) :: log⟩ .backward = some t' ↔
      ∃ s', R.back s b u = some s' ∧ ⟨s', log⟩ = t' :=
  Option.map_eq_some_iff

/-- What every allowed step keeps holds after the steps of a log. -/
theorem Traced.invariant (hstart : I start)
    (hkeep : ∀ s b s' u, I s → allowed s b → R.step s b = some (s', u) → I s')
    (htraced : R.Traced allowed start s log) : I s := by
  induction htraced with
  | nil => exact hstart
  | cons _ hallowed hstep ih => exact hkeep _ _ _ _ ih hallowed hstep

/-- Whatever was taken back in between, the state is that of the steps that stand, and the last
one can be taken back. -/
theorem traced_of_reachable (hstart : I start)
    (hkeep : ∀ s b s' u, I s → allowed s b → R.step s b = some (s', u) → I s')
    (hback : ∀ s b s' u, I s → allowed s b → R.step s b = some (s', u) → R.back s' b u = some s)
    {t : Tip σ β υ}
    (hreach : (R.machine start).Reachable (fun t e => ∀ b, e = .forward b → allowed t.state b) t) :
    R.Traced allowed start t.state t.log ∧
      (t.log ≠ [] → ∃ t', (R.machine start).next t .backward = some t') := by
  have hrestores : ∀ {s' b u log}, R.Traced allowed start s' ((b, u) :: log) →
      ∃ s, R.back s' b u = some s ∧ R.Traced allowed start s log := by
    rintro s' b u log (_ | ⟨hbefore, hallowed, hstep⟩)
    exact ⟨_, hback _ _ _ _ (hbefore.invariant hstart hkeep) hallowed hstep, hbefore⟩
  have htraced : R.Traced allowed start t.state t.log := by
    refine hreach.invariant (I := fun t => R.Traced allowed start t.state t.log) ?_ ?_
    · rintro t rfl
      exact .nil
    · rintro ⟨state, log⟩ e t' htraced hallowed hnext
      cases e with
      | forward b =>
        obtain ⟨⟨s', u⟩, hstep, rfl⟩ := next_forward.mp hnext
        exact .cons htraced (hallowed b rfl) hstep
      | backward =>
        cases log with
        | nil => cases hnext
        | cons p log =>
          obtain ⟨s, hs, htraced'⟩ := hrestores htraced
          obtain ⟨s', hs', rfl⟩ := next_backward.mp hnext
          obtain rfl := Option.some.inj (hs.symm.trans hs')
          exact htraced'
  refine ⟨htraced, fun hne => ?_⟩
  obtain ⟨state, log⟩ := t
  cases log with
  | nil => exact absurd rfl hne
  | cons p log =>
    obtain ⟨s, hs, -⟩ := hrestores htraced
    exact ⟨⟨s, log⟩, next_backward.mpr ⟨s, hs, rfl⟩⟩

end Rewind
