import Mathlib

/-!
# Options in one value

A program's option whose value is itself a list of options: they are cut at a separator, and where
there are two in a row they stand for one that belongs to the option (`splitOptions`).

`joinOptions` puts options one after another as they are. What is cut again are the same options
exactly where there is no separator in them (`splitOptions_joinOptions_iff`): each separator in a
value is either a cut or half of a doubled one, so a separator in an option would have to be counted
twice (`count_splitOptions`).
-/

namespace Aurade

variable {α : Type*} [DecidableEq α] (sep : α)

/-- A symbol put before the first option. -/
def pushOption (a : α) : List (List α) → List (List α)
  | [] => [[a]]
  | o :: os => (a :: o) :: os

/-- The options in a value. -/
def splitOptions : List α → List (List α)
  | [] => [[]]
  | [a] => if a = sep then [[], []] else [[a]]
  | a :: b :: rest =>
    if a = sep ∧ b = sep then pushOption sep (splitOptions rest)
    else if a = sep then [] :: splitOptions (b :: rest)
    else pushOption a (splitOptions (b :: rest))

/-- Options written one after another. -/
def joinOptions (options : List (List α)) : List α := [sep].intercalate options

/-- The separators in options. -/
def separators (options : List (List α)) : ℕ := (options.map fun o => o.count sep).sum

theorem splitOptions_ne_nil (value : List α) : splitOptions sep value ≠ [] := by
  have hpush : ∀ (a : α) (os : List (List α)), pushOption a os ≠ [] := fun a os => by
    cases os <;> simp [pushOption]
  fun_cases splitOptions sep value <;> simp [hpush]

theorem separators_pushOption (a : α) {options : List (List α)} (h : options ≠ []) :
    separators sep (pushOption a options) = [a].count sep + separators sep options := by
  obtain ⟨o, os, rfl⟩ := List.exists_cons_of_ne_nil h
  have hcons : ([a] ++ o).count sep = [a].count sep + o.count sep := List.count_append
  rw [List.singleton_append] at hcons
  simp only [pushOption, separators, List.map_cons, List.sum_cons, hcons]
  omega

omit [DecidableEq α] in
theorem length_pushOption (a : α) {options : List (List α)} (h : options ≠ []) :
    (pushOption a options).length = options.length := by
  obtain ⟨o, os, rfl⟩ := List.exists_cons_of_ne_nil h
  rfl

/-- Each separator in a value cuts it, or is half of one in an option. -/
theorem count_splitOptions (value : List α) :
    value.count sep + 1 =
      (splitOptions sep value).length + 2 * separators sep (splitOptions sep value) := by
  fun_induction splitOptions sep value with
  | case1 => rfl
  | case2 => simp [separators]
  | case3 a h => simp [separators, h]
  | case4 a b rest h ih =>
    obtain ⟨rfl, rfl⟩ := h
    have hne := splitOptions_ne_nil b rest
    rw [length_pushOption b hne, separators_pushOption b b hne, List.count_singleton_self,
      List.count_cons_self, List.count_cons_self]
    omega
  | case5 b rest h ih =>
    rw [List.count_cons_self, List.length_cons]
    simp only [separators, List.map_cons, List.sum_cons, List.count_nil] at ih ⊢
    omega
  | case6 a b rest h h' ih =>
    have hne := splitOptions_ne_nil sep (b :: rest)
    have hzero : [a].count sep = 0 := List.count_eq_zero.2 (by simpa using Ne.symm h')
    rw [length_pushOption a hne, separators_pushOption sep a hne, hzero,
      List.count_cons_of_ne h']
    omega

omit [DecidableEq α] in
theorem joinOptions_cons_cons (o o' : List α) (os : List (List α)) :
    joinOptions sep (o :: o' :: os) = o ++ sep :: joinOptions sep (o' :: os) := by
  rw [joinOptions, List.intercalate_cons_cons, List.append_assoc, List.singleton_append]
  rfl

omit [DecidableEq α] in
theorem joinOptions_singleton (o : List α) : joinOptions sep [o] = o := by
  simp [joinOptions]

theorem count_joinOptions {options : List (List α)} (h : options ≠ []) :
    (joinOptions sep options).count sep + 1 = options.length + separators sep options := by
  induction options with
  | nil => exact absurd rfl h
  | cons o os ih =>
    cases os with
    | nil => simp [joinOptions_singleton, separators, Nat.add_comm]
    | cons o' os =>
      have ih := ih (List.cons_ne_nil o' os)
      rw [joinOptions_cons_cons, List.count_append, List.count_cons_self]
      simp only [separators, List.map_cons, List.sum_cons, List.length_cons] at ih ⊢
      omega

/-- An option without a separator, before the rest. -/
theorem splitOptions_append {o : List α} (h : sep ∉ o) (rest : List α) {a : α} (ha : a ≠ sep) :
    splitOptions sep (o ++ sep :: a :: rest) = o :: splitOptions sep (a :: rest) := by
  induction o with
  | nil => simp [splitOptions, ha]
  | cons b o ih =>
    rw [List.mem_cons, not_or] at h
    have ih := ih h.2
    cases o with
    | nil =>
      rw [List.nil_append] at ih
      simp [splitOptions, Ne.symm h.1, pushOption, ha]
    | cons c o =>
      rw [List.cons_append, List.cons_append, splitOptions, if_neg (fun hb => h.1 hb.1.symm),
        if_neg (Ne.symm h.1), ← List.cons_append, ih]
      rfl

theorem splitOptions_of_notMem {o : List α} (h : sep ∉ o) : splitOptions sep o = [o] := by
  fun_induction splitOptions sep o with
  | case1 => rfl
  | case2 => simp at h
  | case3 => rfl
  | case4 a b rest hab => simp [hab.1] at h
  | case5 => simp at h
  | case6 a b rest _ _ ih =>
    rw [ih fun hmem => h (List.mem_cons_of_mem a hmem)]
    rfl

/-- Options without separators are cut again as they were. -/
theorem splitOptions_joinOptions {options : List (List α)} (hne : options ≠ [])
    (hnil : ∀ o ∈ options, o ≠ []) (h : ∀ o ∈ options, sep ∉ o) :
    splitOptions sep (joinOptions sep options) = options := by
  induction options with
  | nil => exact absurd rfl hne
  | cons o os ih =>
    have ho := h o List.mem_cons_self
    cases os with
    | nil => rw [joinOptions_singleton, splitOptions_of_notMem sep ho]
    | cons o' os =>
      have ih := ih (List.cons_ne_nil o' os) (fun p hp => hnil p (List.mem_cons_of_mem o hp))
        fun p hp => h p (List.mem_cons_of_mem o hp)
      obtain ⟨a, o'', rfl⟩ := List.exists_cons_of_ne_nil
        (hnil o' (List.mem_cons_of_mem o List.mem_cons_self))
      have ha : a ≠ sep := fun ha => h (a :: o'') (List.mem_cons_of_mem o List.mem_cons_self)
        (ha ▸ List.mem_cons_self)
      obtain ⟨rest, hrest⟩ : ∃ rest, joinOptions sep ((a :: o'') :: os) = a :: rest := by
        cases os with
        | nil => exact ⟨o'', joinOptions_singleton sep (a :: o'')⟩
        | cons p os => exact ⟨_, joinOptions_cons_cons sep (a :: o'') p os⟩
      rw [joinOptions_cons_cons, hrest, splitOptions_append sep ho rest ha, ← hrest, ih]

/-- **Options are cut again as they were exactly where there is no separator in them.** -/
theorem splitOptions_joinOptions_iff {options : List (List α)} (hne : options ≠ [])
    (hnil : ∀ o ∈ options, o ≠ []) :
    splitOptions sep (joinOptions sep options) = options ↔ ∀ o ∈ options, sep ∉ o := by
  constructor
  · intro h o ho hmem
    have hsplit := count_splitOptions sep (joinOptions sep options)
    rw [h, count_joinOptions sep hne] at hsplit
    have hzero : separators sep options = 0 := by omega
    have hcount : o.count sep = 0 :=
      List.sum_eq_zero_iff_forall_eq_nat.1 hzero _ (List.mem_map_of_mem (f := fun o => o.count sep) ho)
    exact List.count_eq_zero.1 hcount hmem
  · exact splitOptions_joinOptions sep hne hnil

/-- Several values, each of options written one after another. -/
theorem map_splitOptions_iff {values : List (List (List α))} (hne : ∀ v ∈ values, v ≠ [])
    (hnil : ∀ v ∈ values, ∀ o ∈ v, o ≠ []) :
    (values.map (joinOptions sep)).map (splitOptions sep) = values ↔
      ∀ v ∈ values, ∀ o ∈ v, sep ∉ o := by
  rw [List.map_map]
  constructor
  · intro h v hv
    refine (splitOptions_joinOptions_iff sep (hne v hv) (hnil v hv)).1 ?_
    exact (List.map_eq_map_iff.1 (h.trans (List.map_id values).symm) : _) v hv
  · intro h
    refine (List.map_congr_left fun v hv => ?_).trans (List.map_id values)
    exact (splitOptions_joinOptions_iff sep (hne v hv) (hnil v hv)).2 (h v hv)

end Aurade
