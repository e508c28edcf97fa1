import Mathlib.Data.List.Nodup

/-!
# Dictionaries in the order of insertion

A dictionary is a list of entries with distinct keys, in the order in which the keys first came in: a
key that is set again keeps its place, and one that is popped and set again goes to the end.

* `get_set`, `get_pop` and `get_empty` say what a lookup gives; `mem_entries` ties the entries to it.
* `setAll` and `popAll` do it for several keys, one after another, and `update` for several entries:
  each key has the value it was given last (`get_update`).
-/

namespace Aurade

/-- A dictionary. -/
structure Dict (κ α : Type) where
  entries : List (κ × α)
  nodup : (entries.map Prod.fst).Nodup

namespace Dict

variable {κ α β : Type} [DecidableEq κ]

/-- The value of the first entry with the key. -/
def getIn (k : κ) : List (κ × α) → Option α
  | [] => none
  | e :: es => if e.1 = k then some e.2 else getIn k es

/-- The entries with one set. -/
def setIn (k : κ) (a : α) : List (κ × α) → List (κ × α)
  | [] => [(k, a)]
  | e :: es => if e.1 = k then (k, a) :: es else e :: setIn k a es

theorem mem_keys_setIn {k k' : κ} {a : α} {es : List (κ × α)} :
    k' ∈ (setIn k a es).map Prod.fst ↔ k' = k ∨ k' ∈ es.map Prod.fst := by
  induction es with
  | nil => simp [setIn]
  | cons e es ih =>
    rw [setIn]
    split
    · next h =>
      subst h
      simp
    · rw [List.map_cons, List.mem_cons, ih, List.map_cons, List.mem_cons]
      exact or_left_comm

theorem nodup_setIn {k : κ} {a : α} {es : List (κ × α)} (h : (es.map Prod.fst).Nodup) :
    ((setIn k a es).map Prod.fst).Nodup := by
  induction es with
  | nil => exact List.nodup_singleton k
  | cons e es ih =>
    rw [List.map_cons, List.nodup_cons] at h
    rw [setIn]
    split
    · next hk =>
      subst hk
      exact List.nodup_cons.2 h
    · next hk =>
      rw [List.map_cons, List.nodup_cons]
      refine ⟨fun hmem => ?_, ih h.2⟩
      rcases mem_keys_setIn.1 hmem with heq | hmem
      · exact hk heq
      · exact h.1 hmem

omit [DecidableEq κ] in
theorem nodup_filter {p : κ × α → Bool} {es : List (κ × α)} (h : (es.map Prod.fst).Nodup) :
    ((es.filter p).map Prod.fst).Nodup :=
  h.sublist (List.filter_sublist.map Prod.fst)

def empty : Dict κ α := ⟨[], List.nodup_nil⟩

/-- `d.get(k)`. -/
def get (d : Dict κ α) (k : κ) : Option α := getIn k d.entries

/-- `d[k] = a`. -/
def set (d : Dict κ α) (k : κ) (a : α) : Dict κ α := ⟨setIn k a d.entries, nodup_setIn d.nodup⟩

/-- `d.pop(k, None)`. -/
def pop (d : Dict κ α) (k : κ) : Dict κ α :=
  ⟨d.entries.filter (·.1 ≠ k), nodup_filter d.nodup⟩

def keys (d : Dict κ α) : List κ := d.entries.map Prod.fst

/-- A value changed where it stands. -/
def modify (d : Dict κ α) (k : κ) (f : α → α) : Dict κ α :=
  match d.get k with
  | none => d
  | some a => d.set k (f a)

/-- Several keys set to one value. -/
def setAll (d : Dict κ α) (ks : List κ) (a : α) : Dict κ α := ks.foldl (fun d k => d.set k a) d

/-- Several keys popped. -/
def popAll (d : Dict κ α) (ks : List κ) : Dict κ α := ks.foldl pop d

/-- Several entries set, one after another. -/
def update (d : Dict κ α) (es : List (κ × α)) : Dict κ α := es.foldl (fun d e => d.set e.1 e.2) d

/-- The value that the entries give a key last. -/
def lastOf (es : List (κ × α)) (k : κ) : Option α :=
  ((es.filter (·.1 = k)).getLast?).map Prod.snd

variable {d : Dict κ α} {k k' : κ} {a : α}

@[simp] theorem get_empty : (empty : Dict κ α).get k = none := rfl

theorem getIn_setIn (k k' : κ) (a : α) (es : List (κ × α)) :
    getIn k' (setIn k a es) = if k' = k then some a else getIn k' es := by
  induction es with
  | nil => simp [setIn, getIn, eq_comm]
  | cons e es ih =>
    rw [setIn]
    split
    · next h =>
      subst h
      by_cases hk : k' = e.1
      · simp [getIn, hk]
      · simp [getIn, hk, Ne.symm hk]
    · next h =>
      rw [getIn, getIn, ih]
      by_cases hk : e.1 = k'
      · subst hk
        simp [h]
      · simp [hk]

@[simp] theorem get_set : (d.set k a).get k' = if k' = k then some a else d.get k' :=
  getIn_setIn k k' a d.entries

theorem getIn_filter (k k' : κ) (es : List (κ × α)) :
    getIn k' (es.filter (·.1 ≠ k)) = if k' = k then none else getIn k' es := by
  induction es with
  | nil => simp [getIn]
  | cons e es ih =>
    by_cases he : e.1 = k
    · rw [List.filter_cons_of_neg (by simpa using he), ih, getIn]
      by_cases hk : k' = k
      · simp [hk]
      · have hne : e.1 ≠ k' := fun h => hk (h.symm.trans he)
        simp [hk, hne]
    · rw [List.filter_cons_of_pos (by simpa using he), getIn, ih, getIn]
      by_cases hk : e.1 = k'
      · subst hk
        simp [he]
      · simp [hk]

@[simp] theorem get_pop : (d.pop k).get k' = if k' = k then none else d.get k' :=
  getIn_filter k k' d.entries

theorem get_modify {f : α → α} :
    (d.modify k f).get k' = if k' = k then (d.get k).map f else d.get k' := by
  unfold modify
  cases h : d.get k with
  | none =>
    by_cases hk : k' = k
    · subst hk
      simpa using h
    · simp [hk]
  | some a => simp

theorem get_setAll {ks : List κ} :
    (d.setAll ks a).get k' = if k' ∈ ks then some a else d.get k' := by
  unfold setAll
  induction ks generalizing d with
  | nil => simp
  | cons k ks ih =>
    rw [List.foldl_cons, ih, get_set]
    by_cases hk : k' ∈ ks <;> by_cases hk' : k' = k <;> simp [hk, hk']

theorem lastOf_cons (e : κ × α) (es : List (κ × α)) :
    lastOf (e :: es) k = (lastOf es k).or (if e.1 = k then some e.2 else none) := by
  unfold lastOf
  by_cases he : e.1 = k
  · rw [List.filter_cons_of_pos (by simpa using he), List.getLast?_cons, if_pos he]
    cases (es.filter (·.1 = k)).getLast? with
    | none => rfl
    | some e' => rfl
  · rw [List.filter_cons_of_neg (by simpa using he), if_neg he, Option.or_none]

theorem get_update {es : List (κ × α)} : (d.update es).get k = (lastOf es k).or (d.get k) := by
  unfold update
  induction es generalizing d with
  | nil => rfl
  | cons e es ih =>
    rw [List.foldl_cons, ih, get_set, lastOf_cons]
    by_cases he : e.1 = k
    · cases lastOf es k <;> simp [he]
    · cases lastOf es k <;> simp [he, Ne.symm he]

/-- The last value of a key is one that an entry gives it. -/
theorem mem_of_lastOf {es : List (κ × α)} (h : lastOf es k = some a) : (k, a) ∈ es := by
  obtain ⟨e, he, rfl⟩ := Option.map_eq_some_iff.1 h
  obtain ⟨hmem, hk⟩ := List.mem_filter.1 (List.mem_of_getLast? he)
  rw [decide_eq_true_eq] at hk
  rw [← hk]
  exact hmem

theorem lastOf_eq_none {es : List (κ × α)} : lastOf es k = none ↔ ∀ e ∈ es, e.1 ≠ k := by
  simp [lastOf]

theorem get_popAll {ks : List κ} :
    (d.popAll ks).get k' = if k' ∈ ks then none else d.get k' := by
  unfold popAll
  induction ks generalizing d with
  | nil => simp
  | cons k ks ih =>
    rw [List.foldl_cons, ih, get_pop]
    by_cases hk : k' ∈ ks <;> by_cases hk' : k' = k <;> simp [hk, hk']

theorem getIn_eq_some {es : List (κ × α)} (h : (es.map Prod.fst).Nodup) :
    getIn k es = some a ↔ (k, a) ∈ es := by
  induction es with
  | nil => simp [getIn]
  | cons e es ih =>
    rw [List.map_cons, List.nodup_cons] at h
    rw [getIn, List.mem_cons]
    split
    · next hk =>
      subst hk
      constructor
      · intro hval
        exact Or.inl (by rw [← Option.some.inj hval])
      · intro hmem
        rcases hmem with heq | hmem
        · rw [← heq]
        · exact absurd (List.mem_map_of_mem hmem) h.1
    · next hk =>
      rw [ih h.2]
      constructor
      · exact Or.inr
      · intro hmem
        exact hmem.resolve_left fun heq => hk (by rw [← heq])

/-- **The entries** are what the lookups give. -/
theorem mem_entries : (k, a) ∈ d.entries ↔ d.get k = some a := (getIn_eq_some d.nodup).symm

end Dict

end Aurade
