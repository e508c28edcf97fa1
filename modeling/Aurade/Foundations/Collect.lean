import Mathlib.Data.List.Induction
import Mathlib.Order.Bounds.Basic
import Std.Data.ExtTreeMap

/-!
# Joining what comes under one key

Pairs are put into a map one after another; what comes under a key that is there is joined with it. What
the map holds in the end is the join of what came under each key (`joins_collect`), whatever the order was
(`collect_perm`).
-/

namespace Aurade.Collect

variable {κ α : Type*} {cmp : κ → κ → Ordering} [SemilatticeSup α]

section

variable [Std.TransCmp cmp]

/-- One pair more. -/
def put (m : Std.ExtTreeMap κ α cmp) (p : κ × α) : Std.ExtTreeMap κ α cmp :=
  m.alter p.1 fun old => some (old.elim p.2 (· ⊔ p.2))

/-- The pairs, one after another. -/
def collect (ps : List (κ × α)) : Std.ExtTreeMap κ α cmp := ps.foldl put ∅

theorem collect_concat (ps : List (κ × α)) (p : κ × α) :
    (collect (ps ++ [p]) : Std.ExtTreeMap κ α cmp) = put (collect ps) p := by
  rw [collect, List.foldl_append]
  rfl

end

/-- What a map should hold under a key: nothing where nothing came, else the join of what came. -/
def Joins (ps : List (κ × α)) (k : κ) : Option α → Prop
  | none => ∀ a, (k, a) ∉ ps
  | some a => (∃ b, (k, b) ∈ ps) ∧ IsLUB {b | (k, b) ∈ ps} a

theorem Joins.unique {ps : List (κ × α)} {k : κ} {o o' : Option α} (h : Joins ps k o)
    (h' : Joins ps k o') : o = o' := by
  cases o with
  | none =>
    cases o' with
    | none => rfl
    | some a' => exact absurd h'.1.choose_spec (h _)
  | some a =>
    cases o' with
    | none => exact absurd h.1.choose_spec (h' _)
    | some a' => rw [h.2.unique h'.2]

theorem Joins.perm {ps qs : List (κ × α)} {k : κ} {o : Option α} (h : ps.Perm qs) (ho : Joins ps k o) :
    Joins qs k o := by
  cases o with
  | none => exact fun a ha => ho a (h.mem_iff.2 ha)
  | some a => simpa only [Joins, h.mem_iff] using ho

theorem Joins.concat_ne {ps : List (κ × α)} {k : κ} {o : Option α} {p : κ × α} (hk : p.1 ≠ k)
    (h : Joins ps k o) : Joins (ps ++ [p]) k o := by
  have hmem (a : α) : (k, a) ∈ ps ++ [p] ↔ (k, a) ∈ ps := by
    rw [List.mem_append, List.mem_singleton, or_iff_left]
    rintro rfl
    exact hk rfl
  cases o with
  | none => exact fun a ha => h a ((hmem a).1 ha)
  | some a => simpa only [Joins, hmem] using h

theorem Joins.concat_eq {ps : List (κ × α)} {k : κ} {o : Option α} (b : α) (h : Joins ps k o) :
    Joins (ps ++ [(k, b)]) k (some (o.elim b (· ⊔ b))) := by
  have hset : {a | (k, a) ∈ ps ++ [(k, b)]} = {a | (k, a) ∈ ps} ∪ {b} := by
    ext a
    simp [or_comm]
  refine ⟨⟨b, by simp⟩, ?_⟩
  rw [hset]
  cases o with
  | none =>
    have hnone : {a | (k, a) ∈ ps} = ∅ := Set.eq_empty_iff_forall_notMem.2 h
    rw [hnone, Set.empty_union]
    exact isLUB_singleton
  | some a => exact h.2.union isLUB_singleton

variable [Std.TransCmp cmp] [Std.LawfulEqCmp cmp]

/-- **A map that pairs were put into holds the join of what came under each key.** -/
theorem joins_collect (ps : List (κ × α)) (k : κ) :
    Joins ps k (collect ps : Std.ExtTreeMap κ α cmp)[k]? := by
  induction ps using List.reverseRecOn with
  | nil => simp [Joins, collect]
  | append_singleton ps p ih =>
    rw [collect_concat, put, Std.ExtTreeMap.getElem?_alter]
    split
    case isTrue hk =>
      obtain ⟨k', b⟩ := p
      obtain rfl : k' = k := Std.LawfulEqCmp.eq_of_compare hk
      exact ih.concat_eq b
    case isFalse hk =>
      refine ih.concat_ne fun he => hk ?_
      rw [he]
      exact Std.ReflCmp.compare_self

theorem collect_perm {ps qs : List (κ × α)} (h : ps.Perm qs) :
    (collect ps : Std.ExtTreeMap κ α cmp) = collect qs := by
  apply Std.ExtTreeMap.ext_getElem?
  intro k
  exact ((joins_collect ps k).perm h).unique (joins_collect qs k)

end Aurade.Collect
