import Mathlib

/-!
# Any number of workers on one state

Workers share a state, and each has a state of its own, from which its next step is read off with the answer
that the step is given. Between the steps somebody outside may change what is shared. A history lists the
events in order; a step that a worker does not have cannot be in one.

`run_induct` is the rule of invariants, for the histories that keep a condition at every event (`Along`).
-/

namespace Aurade

/-- A shared state and the workers' own states. -/
structure Crew (ι σ ρ : Type*) where
  shared : σ
  own : ι → ρ

namespace Crew

/-- A step of a worker with its answer, or a change from outside. -/
inductive Event (ι α β : Type*)
  | turn (w : ι) (answer : α)
  | outside (change : β)

variable {ι σ ρ α β : Type*} [DecidableEq ι] {step : α → ρ → σ → Option (ρ × σ)} {out : β → σ → σ}
  {d d' : Crew ι σ ρ}

/-- One event, or `none` where the worker has no such step. -/
def next (step : α → ρ → σ → Option (ρ × σ)) (out : β → σ → σ) :
    Event ι α β → Crew ι σ ρ → Option (Crew ι σ ρ)
  | .turn w a, d => (step a (d.own w) d.shared).map fun r => ⟨r.2, Function.update d.own w r.1⟩
  | .outside b, d => some { d with shared := out b d.shared }

def run (step : α → ρ → σ → Option (ρ × σ)) (out : β → σ → σ) :
    List (Event ι α β) → Crew ι σ ρ → Option (Crew ι σ ρ)
  | [], d => some d
  | e :: es, d => (next step out e d).bind (run step out es)

/-- Every event meets the condition in the state that it finds. -/
def Along (step : α → ρ → σ → Option (ρ × σ)) (out : β → σ → σ) (C : Event ι α β → Crew ι σ ρ → Prop) :
    List (Event ι α β) → Crew ι σ ρ → Prop
  | [], _ => True
  | e :: es, d => C e d ∧ ∀ d', next step out e d = some d' → Along step out C es d'

theorem next_turn {w : ι} {a : α} (h : next step out (.turn w a) d = some d') :
    ∃ r, step a (d.own w) d.shared = some r ∧ d' = ⟨r.2, Function.update d.own w r.1⟩ := by
  obtain ⟨r, hr, rfl⟩ := Option.map_eq_some_iff.1 h
  exact ⟨r, hr, rfl⟩

theorem run_cons {e : Event ι α β} {es : List (Event ι α β)} :
    run step out (e :: es) d = some d' ↔ ∃ m, next step out e d = some m ∧ run step out es m = some d' := by
  rw [run, Option.bind_eq_some_iff]

theorem along_cons {C : Event ι α β → Crew ι σ ρ → Prop} {e : Event ι α β} {es : List (Event ι α β)}
    (h : next step out e d = some d') :
    Along step out C (e :: es) d ↔ C e d ∧ Along step out C es d' := by
  rw [Along]
  refine and_congr_right fun _ => ⟨fun hall => hall d' h, fun hes m hm => ?_⟩
  obtain rfl : d' = m := Option.some.inj (h.symm.trans hm)
  exact hes

variable {P : Crew ι σ ρ → Prop} {C C' : Event ι α β → Crew ι σ ρ → Prop}

/-- **What every event keeps holds after every history.** -/
theorem run_induct (hstep : ∀ e d d', P d → C e d → next step out e d = some d' → P d')
    {es : List (Event ι α β)} (hd : P d) (hC : Along step out C es d) (h : run step out es d = some d') :
    P d' := by
  induction es generalizing d with
  | nil => exact Option.some.inj h ▸ hd
  | cons e es ih =>
    obtain ⟨m, hm, h⟩ := run_cons.1 h
    exact ih (hstep e d m hd hC.1 hm) (hC.2 m hm) h

end Crew

end Aurade
