import Mathlib.Logic.Function.Basic
import Mathlib.Tactic.Common

/-!
# Two workers on one state

Two workers share a state and each has a state of its own, from which its next step is read off. A
schedule is the list of the workers that move, in order, and `Duo.run` is what the state is after
it. A worker with no step left cannot be scheduled, so the schedules with a run are exactly the
interleavings of the two workers' steps.

* `run_cons` and `run_append` take a schedule apart, `run_induct` is the rule of invariants.
-/

namespace Aurade

/-- A shared state and the two workers' own states. -/
structure Duo (σ ρ : Type*) where
  /-- What both of them see. -/
  shared : σ
  /-- Where each of them is. -/
  own : Bool → ρ

namespace Duo

variable {σ ρ : Type*} {step : Bool → ρ → σ → Option (ρ × σ)} {d e : Duo σ ρ}

/-- One step of worker `w`, or `none` where it has none left. -/
def turn (step : Bool → ρ → σ → Option (ρ × σ)) (w : Bool) (d : Duo σ ρ) : Option (Duo σ ρ) :=
  (step w (d.own w) d.shared).map fun r => ⟨r.2, Function.update d.own w r.1⟩

/-- The steps of the workers in the order of the schedule. -/
def run (step : Bool → ρ → σ → Option (ρ × σ)) : List Bool → Duo σ ρ → Option (Duo σ ρ)
  | [], d => some d
  | w :: ws, d => (turn step w d).bind (run step ws)

theorem turn_eq_some {w : Bool} :
    turn step w d = some e ↔
      ∃ r, step w (d.own w) d.shared = some r ∧ e = ⟨r.2, Function.update d.own w r.1⟩ := by
  rw [turn, Option.map_eq_some_iff]
  simp only [eq_comm]

/-- A step of `w` leaves the other worker where it is. -/
theorem turn_own {w : Bool} (h : turn step w d = some e) :
    e.own (!w) = d.own (!w) ∧ step w (d.own w) d.shared = some (e.own w, e.shared) := by
  obtain ⟨r, hr, rfl⟩ := turn_eq_some.1 h
  constructor
  · cases w <;> rfl
  · simpa using hr

theorem run_nil : run step [] d = some e ↔ d = e := by
  rw [run, Option.some.injEq]

theorem run_cons {w : Bool} {ws : List Bool} :
    run step (w :: ws) d = some e ↔ ∃ m, turn step w d = some m ∧ run step ws m = some e := by
  rw [run, Option.bind_eq_some_iff]

theorem run_append {ws ws' : List Bool} :
    run step (ws ++ ws') d = some e ↔
      ∃ m, run step ws d = some m ∧ run step ws' m = some e := by
  induction ws generalizing d with
  | nil => simp [run]
  | cons w ws ih =>
    rw [List.cons_append, run_cons]
    constructor
    · intro h
      obtain ⟨m, hm, h⟩ := h
      obtain ⟨m', hm', h⟩ := ih.1 h
      exact ⟨m', run_cons.2 ⟨m, hm, hm'⟩, h⟩
    · intro h
      obtain ⟨m', hm', h⟩ := h
      obtain ⟨m, hm, hm'⟩ := run_cons.1 hm'
      exact ⟨m, hm, ih.2 ⟨m', hm', h⟩⟩

/-- **What every step keeps holds after every schedule.** -/
theorem run_induct {P : Duo σ ρ → Prop} (hstep : ∀ w d e, P d → turn step w d = some e → P e)
    {ws : List Bool} (hd : P d) (h : run step ws d = some e) : P e := by
  induction ws generalizing d with
  | nil => exact run_nil.1 h ▸ hd
  | cons w ws ih =>
    obtain ⟨m, hm, h⟩ := run_cons.1 h
    exact ih (hstep w d m hd hm) h

end Duo

end Aurade
