import Mathlib.Algebra.Group.Int.Defs
import Mathlib.Data.List.Basic
import Mathlib.Data.List.Infix
import Mathlib.Data.Int.Order.Basic
import Mathlib.Tactic.Common

/-!
# A cursor over a flat sequence

The reading position of a file, for programs that put one together from something else. `Seek` is a
move of it and `Seek.target` where it goes, over the integers. No position is above the last 64-bit
number: a cursor over bytes in memory refuses to go there (`Cursor.seek`), and one may as well be
held at it (`Cursor.seekHeld`); that is all they differ in (`seekHeld_eq_seek`).

`Follows seek xs p calls answers p'` is what a reader over `xs` may answer whose moves are `seek` and
whose lower layer hands out as little as it likes (a read gives some of the elements at the position,
at least one where there are any). It is a relation because a read may be short. `Follows.reads` is
what all such readers share: reads that outnumber what is left give all of it, in order.
-/

namespace Aurade

variable {α : Type}

/-- A move: to a position, or by a number of places from the position or from the end. -/
inductive Seek
  | start (n : UInt64)
  | stop (n : Int64)
  | current (n : Int64)

/-- Where a move goes, from position `pos` of `len` elements. -/
def Seek.target (len pos : ℕ) : Seek → ℤ
  | .start n => n.toNat
  | .stop n => len + n.toInt
  | .current n => pos + n.toInt

/-- What is asked of a reader: a read with room for `room` elements, of which the lower layer is
ready to hand out `more` beyond the first; or a move. -/
inductive CursorCall
  | read (room more : ℕ)
  | seek (s : Seek)

/-- The answers: the elements read; the new position; a refusal. -/
inductive CursorAnswer (α : Type)
  | got (xs : List α)
  | position (n : ℕ)
  | refused
  deriving DecidableEq

/-- The elements of an answer. -/
def CursorAnswer.elements : CursorAnswer α → List α
  | .got xs => xs
  | _ => []

/-- The move of a cursor over `len` elements, or the refusal of it. -/
def Cursor.seek (len pos : ℕ) (s : Seek) : Option ℕ :=
  if 0 ≤ s.target len pos ∧ s.target len pos < 2 ^ 64 then some (s.target len pos).toNat else none

/-- The move of a cursor that is held at the last position. -/
def Cursor.seekHeld (len pos : ℕ) (s : Seek) : Option ℕ :=
  if s.target len pos < 0 then none else some (min (s.target len pos) (2 ^ 64 - 1)).toNat

theorem Cursor.seekHeld_eq_seek {len pos : ℕ} {s : Seek} (h : s.target len pos < 2 ^ 64) :
    Cursor.seekHeld len pos s = Cursor.seek len pos s := by
  rw [seekHeld, seek]
  by_cases hneg : s.target len pos < 0
  · rw [if_pos hneg, if_neg (by omega)]
  · have hmin : min (s.target len pos) (2 ^ 64 - 1) = s.target len pos := by omega
    rw [if_neg hneg, if_pos (by omega), hmin]

variable {seek : ℕ → ℕ → Seek → Option ℕ}

/-- One call on a reader over `xs` at position `pos`, its answer and the position afterwards. -/
def Serves (seek : ℕ → ℕ → Seek → Option ℕ) (xs : List α) (pos : ℕ) :
    CursorCall → CursorAnswer α → ℕ → Prop
  | .read room _, answer, pos' => ∃ d, answer = .got d ∧ d <+: xs.drop pos ∧ d.length ≤ room ∧
      (d ≠ [] ↔ pos < xs.length ∧ 0 < room) ∧ pos' = pos + d.length
  | .seek s, answer, pos' =>
      match seek xs.length pos s with
      | some p => answer = .position p ∧ pos' = p
      | none => answer = .refused ∧ pos' = pos

theorem serves_moved {xs : List α} {pos p pos' : ℕ} {s : Seek} {answer : CursorAnswer α}
    (h : seek xs.length pos s = some p) :
    Serves seek xs pos (.seek s) answer pos' ↔ answer = .position p ∧ pos' = p := by
  simp only [Serves, h]

theorem serves_refused {xs : List α} {pos pos' : ℕ} {s : Seek} {answer : CursorAnswer α}
    (h : seek xs.length pos s = none) :
    Serves seek xs pos (.seek s) answer pos' ↔ answer = .refused ∧ pos' = pos := by
  simp only [Serves, h]

/-- A run of calls. -/
inductive Follows (seek : ℕ → ℕ → Seek → Option ℕ) (xs : List α) :
    ℕ → List CursorCall → List (CursorAnswer α) → ℕ → Prop
  | nil (pos : ℕ) : Follows seek xs pos [] [] pos
  | cons {pos mid pos' : ℕ} {call : CursorCall} {answer : CursorAnswer α} {calls : List CursorCall}
      {answers : List (CursorAnswer α)} :
      Serves seek xs pos call answer mid → Follows seek xs mid calls answers pos' →
      Follows seek xs pos (call :: calls) (answer :: answers) pos'

/-- Reads with room for something that are more than what is left: together they give what is left,
and the position is at the end. -/
theorem Follows.reads {xs : List α} {pos pos' : ℕ} {reads : List (ℕ × ℕ)}
    {answers : List (CursorAnswer α)} (hroom : ∀ r ∈ reads, 0 < r.1)
    (hmany : xs.length - pos ≤ reads.length)
    (h : Follows seek xs pos (reads.map fun r => .read r.1 r.2) answers pos') :
    answers.flatMap CursorAnswer.elements = xs.drop pos ∧ xs.length ≤ pos' := by
  induction reads generalizing pos answers with
  | nil =>
    have hend : xs.length ≤ pos := by rw [List.length_nil] at hmany; omega
    cases h with
    | nil => exact ⟨by simp [hend], hend⟩
  | cons r reads ih =>
    rw [List.map_cons] at h
    cases h with
    | cons hserves hrest =>
      obtain ⟨d, rfl, ⟨rest, hd⟩, -, hne, rfl⟩ := hserves
      have hlen := congrArg List.length hd
      rw [List.length_append, List.length_drop] at hlen
      have hleft : xs.length - (pos + d.length) ≤ reads.length := by
        rcases List.eq_nil_or_concat d with rfl | ⟨init, last, rfl⟩
        · have hend : ¬ pos < xs.length := fun hp => hne.2 ⟨hp, hroom r List.mem_cons_self⟩ rfl
          omega
        · rw [List.length_cons] at hmany
          rw [List.concat_eq_append, List.length_append, List.length_singleton]
          omega
      obtain ⟨hget, hpos⟩ := ih (fun q hq => hroom q (List.mem_cons_of_mem r hq)) hleft hrest
      have htail : xs.drop (pos + d.length) = rest := by
        rw [← List.drop_drop, ← hd, List.drop_left]
      refine ⟨?_, hpos⟩
      rw [List.flatMap_cons, hget, htail, ← hd]
      rfl

end Aurade
