import Mathlib.Data.List.Infix
import Mathlib.Tactic.Common

/-!
# Replacing one string by another

`replaceAll pat new s` replaces the occurrences of `pat` in `s` from the left, each search going on
behind the last occurrence. Where a string is put together with a pattern of two different letters
between parts that do not contain it, exactly the patterns between the parts are replaced
(`replaceAll_intercalate`).

For a letter that is doubled to stand for itself no such cut is in the string:
`replaceAll_doubled` says when taking the doubles together again gives what was doubled.
-/

namespace Aurade

variable {α : Type*}

theorem not_infix_of_append {pat u v : List α} (h : ¬pat <:+: u ++ v) : ¬pat <:+: u ∧ ¬pat <:+: v :=
  ⟨fun hu => h (hu.trans (List.prefix_append u v).isInfix),
    fun hv => h (hv.trans (List.suffix_append u v).isInfix)⟩

/-- A letter among others, put in two ways. -/
theorem flatMap_eq_intercalate {β : Type*} [DecidableEq β] (f : β → List α) (b : β) (bs : List β) :
    bs.flatMap f = (f b).intercalate ((bs.splitOn b).map fun part => part.flatMap f) := by
  have hjoin : ∀ parts : List (List β), ([b].intercalate parts).flatMap f =
      (f b).intercalate (parts.map fun part => part.flatMap f) := by
    intro parts
    induction parts with
    | nil => rfl
    | cons p parts ih =>
      cases parts with
      | nil => simp
      | cons q parts =>
        rw [List.intercalate_cons_cons, List.flatMap_append, List.flatMap_append, ih,
          List.flatMap_singleton]
        simp only [List.map_cons, List.intercalate_cons_cons]
  have hsplit := hjoin (bs.splitOn b)
  rwa [List.intercalate_splitOn] at hsplit

variable [DecidableEq α]

/-- `replace`, with so many letters left of the last occurrence. -/
def replaceFrom (pat new : List α) : ℕ → List α → List α
  | _, [] => []
  | left + 1, _ :: s => replaceFrom pat new left s
  | 0, x :: s =>
    if pat.isPrefixOf (x :: s) then new ++ replaceFrom pat new (pat.length - 1) s
    else x :: replaceFrom pat new 0 s

/-- `replace`. -/
def replaceAll (pat new s : List α) : List α := replaceFrom pat new 0 s

section

variable {pat new s : List α} {a b x : α}

@[simp] theorem replaceAll_nil : replaceAll pat new [] = [] := rfl

theorem replaceAll_cons (h : ¬pat <+: x :: s) :
    replaceAll pat new (x :: s) = x :: replaceAll pat new s := by
  rw [replaceAll, replaceFrom, if_neg (by simpa using h)]
  rfl

theorem replaceAll_pair (a b : α) (new s : List α) :
    replaceAll [a, b] new (a :: b :: s) = new ++ replaceAll [a, b] new s := by
  rw [replaceAll, replaceFrom, if_pos (by simp)]
  rfl

/-- Where the string is not there, nothing is replaced. -/
theorem replaceAll_absent (h : ¬pat <:+: s) : replaceAll pat new s = s := by
  induction s with
  | nil => rfl
  | cons x s ih =>
    have hfront : ¬pat <+: x :: s := fun hp => h hp.isInfix
    rw [replaceAll_cons hfront, ih fun hs => h (hs.trans (List.suffix_cons x s).isInfix)]

/-- The first occurrence behind a part without one. -/
theorem replaceAll_append_pair (hab : a ≠ b) (h : ¬[a, b] <:+: s) (rest : List α) :
    replaceAll [a, b] new (s ++ a :: b :: rest) = s ++ new ++ replaceAll [a, b] new rest := by
  induction s with
  | nil => exact replaceAll_pair a b new rest
  | cons x s ih =>
    have hfront : ¬[a, b] <+: x :: (s ++ a :: b :: rest) := by
      intro hp
      obtain ⟨rfl, hb⟩ := List.cons_prefix_cons.1 hp
      cases s with
      | nil => exact hab (List.cons_prefix_cons.1 hb).1.symm
      | cons y s =>
        obtain ⟨rfl, -⟩ := List.cons_prefix_cons.1 hb
        exact h (List.prefix_append [a, b] s).isInfix
    rw [List.cons_append, replaceAll_cons hfront, ih (not_infix_of_append (u := [x]) h).2]
    rfl

/-- Between parts without the pattern, it is replaced where it is put. -/
theorem replaceAll_intercalate (hab : a ≠ b) {parts : List (List α)}
    (h : ∀ s ∈ parts, ¬[a, b] <:+: s) :
    replaceAll [a, b] new ([a, b].intercalate parts) = new.intercalate parts := by
  induction parts with
  | nil => rfl
  | cons s parts ih =>
    obtain ⟨hs, hparts⟩ := List.forall_mem_cons.1 h
    cases parts with
    | nil =>
      rw [List.intercalate_singleton, List.intercalate_singleton, replaceAll_absent hs]
    | cons t parts =>
      rw [List.intercalate_cons_cons, List.intercalate_cons_cons, ← ih hparts, List.append_assoc,
        List.cons_append, List.cons_append, List.nil_append, replaceAll_append_pair hab hs]

/-! ## Doubles -/

/-- What stands for a string in which some of the letters `a` are doubled: the doubled letters are
`none`. -/
def doubled (a : α) (s : List (Option α)) : List α := s.flatMap fun x => x.elim [a, a] fun b => [b]

/-- The string itself. -/
def undoubled (a : α) (s : List (Option α)) : List α := s.map fun x => x.getD a

/-- **Taking doubles together**: right where the letters that are not doubled have no double. -/
theorem replaceAll_doubled (a : α) (s : List (Option α)) (h : ¬[a, a] <:+: s.filterMap id) :
    replaceAll [a, a] [a] (doubled a s) = undoubled a s := by
  -- one letter that is not doubled may stand before
  have hboth : ∀ s : List (Option α),
      (¬[a, a] <:+: s.filterMap id → replaceAll [a, a] [a] (doubled a s) = undoubled a s) ∧
      (¬[a, a] <:+: a :: s.filterMap id →
        replaceAll [a, a] [a] (a :: doubled a s) = a :: undoubled a s) := by
    intro s
    induction s with
    | nil =>
      refine ⟨fun _ => rfl, fun _ => ?_⟩
      have hone : ¬[a, a] <+: [a] := fun hp => absurd hp.length_le (by simp)
      exact replaceAll_cons hone
    | cons x s ih =>
      obtain ⟨ihs, iha⟩ := ih
      cases x with
      | none =>
        have hcons : doubled a (none :: s) = a :: a :: doubled a s := rfl
        rw [hcons, replaceAll_pair, replaceAll_pair]
        exact ⟨fun h => congrArg (a :: ·) (ihs h), fun h => congrArg (a :: ·) (iha h)⟩
      | some b =>
        have hcons : doubled a (some b :: s) = b :: doubled a s := rfl
        have hfilter : (some b :: s).filterMap id = b :: s.filterMap id := rfl
        rw [hcons, hfilter]
        have hplain : ¬[a, a] <:+: b :: s.filterMap id →
            replaceAll [a, a] [a] (b :: doubled a s) = b :: undoubled a s := by
          intro h
          by_cases hb : a = b
          · subst hb
            exact iha h
          · have hfront : ¬[a, a] <+: b :: doubled a s := fun hp => hb (List.cons_prefix_cons.1 hp).1
            rw [replaceAll_cons hfront, ihs (not_infix_of_append (u := [b]) h).2]
        refine ⟨hplain, fun h => ?_⟩
        have hb : a ≠ b := by
          rintro rfl
          exact h (List.prefix_append [a, a] _).isInfix
        have hfront : ¬[a, a] <+: a :: b :: doubled a s := fun hp =>
          hb (List.cons_prefix_cons.1 (List.cons_prefix_cons.1 hp).2).1
        rw [replaceAll_cons hfront, hplain (not_infix_of_append (u := [a]) h).2]
        rfl
  exact (hboth s).1 h

end

end Aurade
