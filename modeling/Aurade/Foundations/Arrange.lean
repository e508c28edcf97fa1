import Mathlib.Data.List.Perm.Basic

/-!
# Putting named items first

`arrange key order items` is a list with the items that `order` names by their keys in front: for
each name the first item with it, once for each time it is named, and behind them the items that are
not named. `arrange_runs` is the order they come in, and `arrange_perm_iff` says when the items are the same as before: where each name is called
as often as it has items, which are all alike.
-/

namespace Aurade

variable {α κ : Type*} [DecidableEq κ]

/-- The first item with each name in turn, then the items without one. -/
def arrange (key : α → κ) (order : List κ) (items : List α) : List α :=
  (order.filterMap fun k => items.find? fun x => key x = k) ++
    items.filter fun x => key x ∉ order

/-- Each name is called as often as it has items, and these are all alike. -/
def Called (key : α → κ) (order : List κ) (items : List α) : Prop :=
  ∀ k ∈ order, ∀ x ∈ items, key x = k →
    (items.filter fun y => key y = k) = List.replicate (order.count k) x

variable {key : α → κ} {order : List κ} {items : List α}

theorem mem_of_mem_arrange {x : α} (h : x ∈ arrange key order items) : x ∈ items := by
  rcases List.mem_append.1 h with h | h
  · obtain ⟨k, -, hk⟩ := List.mem_filterMap.1 h
    exact List.mem_of_find?_eq_some hk
  · exact List.mem_of_mem_filter h

theorem arrange_map {β κ' : Type*} [DecidableEq κ'] {key' : β → κ'} {f : α → β} {g : κ → κ'}
    (hg : g.Injective) (h : ∀ x, key' (f x) = g (key x)) :
    arrange key' (order.map g) (items.map f) = (arrange key order items).map f := by
  have hfirst : ∀ k, ((items.map f).find? fun y => key' y = g k) =
      (items.find? fun x => key x = k).map f := by
    intro k
    have hkey : (fun y => decide (key' y = g k)) ∘ f = fun x => decide (key x = k) := by
      funext x
      simp [h, hg.eq_iff]
    rw [List.find?_map, hkey]
  have hrest : ((items.map f).filter fun y => key' y ∉ order.map g) =
      (items.filter fun x => key x ∉ order).map f := by
    have hkey : (fun y => decide (key' y ∉ order.map g)) ∘ f = fun x => decide (key x ∉ order) := by
      funext x
      simp only [Function.comp, h, List.mem_map_of_injective hg]
    rw [List.filter_map, hkey]
  rw [arrange, arrange, hrest, List.filterMap_map, List.map_append, List.map_filterMap]
  congr 2
  funext k
  exact hfirst k

/-- The items with one name, after the arranging. -/
theorem filter_arrange {k : κ} (hk : k ∈ order) {x : α}
    (hx : (items.find? fun y => key y = k) = some x) :
    ((arrange key order items).filter fun y => key y = k) = List.replicate (order.count k) x := by
  have hrest : ((items.filter fun y => key y ∉ order).filter fun y => key y = k) = [] := by
    rw [List.filter_filter, List.filter_eq_nil_iff]
    intro y _ hy
    simp only [Bool.and_eq_true, decide_eq_true_eq] at hy
    exact hy.2 (hy.1 ▸ hk)
  have hfirst : ∀ order : List κ,
      ((order.filterMap fun k => items.find? fun y => key y = k).filter fun y => key y = k) =
        List.replicate (order.count k) x := by
    intro order
    induction order with
    | nil => rfl
    | cons k' order ih =>
      rw [List.filterMap_cons]
      by_cases hkk : k' = k
      · subst hkk
        have hkey : key x = k' := by simpa using List.find?_some hx
        rw [hx]
        dsimp only
        rw [List.filter_cons_of_pos (by simpa using hkey), ih, List.count_cons_self,
          List.replicate_succ]
      · rw [List.count_cons_of_ne hkk, ← ih]
        split
        · rfl
        · next y hy =>
          have hkey : key y = k' := by simpa using List.find?_some hy
          rw [List.filter_cons_of_neg (by simpa [hkey] using hkk)]
  rw [arrange, List.filter_append, hrest, hfirst, List.append_nil]

/-- The named items in front, a run for each name, and the others behind them. -/
theorem arrange_runs : ∃ runs rest, arrange key order items = List.flatten runs ++ rest ∧
    List.Forall₂ (fun k run => ∀ x ∈ run, key x = k) order runs ∧
    ∀ x ∈ rest, ∀ k ∈ order, key x ≠ k := by
  refine ⟨order.map fun k => (items.find? fun x => key x = k).toList,
    items.filter fun x => key x ∉ order, ?_, ?_, ?_⟩
  · rw [arrange, List.filterMap_eq_flatMap_toList, List.flatMap_def]
  · rw [List.forall₂_map_right_iff, List.forall₂_same]
    intro k _ x hx
    simpa using List.find?_some (Option.mem_toList.1 hx)
  · rintro x hx _ hk rfl
    exact (by simpa using (List.mem_filter.1 hx).2 : key x ∉ order) hk

/-- **When arranging keeps the items**: each name that has items is called as often as it has, and
its items are all alike. -/
theorem arrange_perm_iff [DecidableEq α] :
    (arrange key order items).Perm items ↔ Called key order items := by
  constructor
  · rintro h k hk x hx rfl
    obtain ⟨first, hfirst⟩ : ∃ first, (items.find? fun y => key y = key x) = some first := by
      rw [← Option.isSome_iff_exists, List.find?_isSome]
      exact ⟨x, hx, by simp⟩
    have hperm := h.filter fun y => key y = key x
    rw [filter_arrange hk hfirst] at hperm
    have hall := List.perm_replicate.1 hperm.symm
    have hmem : x ∈ items.filter fun y => key y = key x := List.mem_filter.2 ⟨hx, by simp⟩
    rw [hall] at hmem
    rw [hall, List.eq_of_mem_replicate hmem]
  · intro h
    rw [List.perm_iff_count]
    intro x
    by_cases hx : x ∈ items
    · by_cases hk : key x ∈ order
      · have hitems := h _ hk x hx rfl
        have hfirst : (items.find? fun y => key y = key x) = some x := by
          rw [← List.head?_filter, hitems]
          cases hcount : order.count (key x) with
          | zero => exact absurd hk (List.count_eq_zero.1 hcount)
          | succ n => rfl
        have hcount : ∀ l : List α, l.count x = (l.filter fun y => key y = key x).count x :=
          fun l => (List.count_filter (by simp)).symm
        rw [hcount, hcount items, filter_arrange hk hfirst, hitems]
      · have hnone : x ∉ order.filterMap fun k => items.find? fun y => key y = k := by
          intro hmem
          obtain ⟨k, hko, hfind⟩ := List.mem_filterMap.1 hmem
          have hkey : key x = k := by simpa using List.find?_some hfind
          exact hk (hkey ▸ hko)
        rw [arrange, List.count_append, List.count_eq_zero.2 hnone, Nat.zero_add,
          List.count_filter (by simpa using hk)]
    · rw [List.count_eq_zero.2 hx, List.count_eq_zero.2 fun hmem => hx (mem_of_mem_arrange hmem)]

end Aurade
