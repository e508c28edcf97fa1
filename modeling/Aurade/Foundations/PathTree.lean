import Mathlib.Data.List.Nodup
import Mathlib.Data.List.Infix
import Mathlib.Data.List.Lookmap
import Mathlib.Tactic.Common

/-!
# Finite trees as prefix closed maps

A finite tree with values at its nodes is a finite map from paths (lists of names, from the root)
to values: the root is in the map, and whatever has something below it is a branch that is in the
map too. `PathTree` carries these facts, so that a map that is no tree cannot be built, and
every operation is given by what it does to `get` at each path:

* `insert` adds a leaf below a branch (`get_insert`);
* `update` changes the value at a path without changing whether it is a branch (`get_update`);
* `erase` removes a node that has nothing below it (`get_erase`), and `prune` a whole subtree
  (`get_prune`);
* `move` takes a whole subtree to a free place that is not below it (`get_move`).

`names t p` lists what is directly below `p`, each name once (`mem_names`, `nodup_names`).
-/

namespace Aurade

/-- A finite tree: names `α` on its edges and values `β` at its nodes, of which those with
`branch b` may have something below them. -/
structure PathTree (α β : Type) (branch : β → Bool) where
  entries : List (List α × β)
  nodup : (entries.map Prod.fst).Nodup
  root : ∃ b, ([], b) ∈ entries ∧ branch b = true
  closed : ∀ p a b, (p ++ [a], b) ∈ entries → ∃ c, (p, c) ∈ entries ∧ branch c = true

namespace PathTree

variable {α β : Type} [DecidableEq α] {branch : β → Bool}

/-- The value at a path. -/
def get (t : PathTree α β branch) (p : List α) : Option β := t.entries.lookup p

/-- The name by which a path is directly below another. -/
def below (q x : List α) : Option α :=
  match x.getLast? with
  | some a => if x.dropLast = q then some a else none
  | none => none

theorem below_eq_some {q x : List α} {a : α} : below q x = some a ↔ x = q ++ [a] := by
  unfold below
  rcases List.eq_nil_or_concat x with rfl | ⟨s, b, rfl⟩
  · simp
  · simp only [List.concat_eq_append, List.getLast?_concat, List.dropLast_concat,
      Option.ite_none_right_eq_some, Option.some.injEq]
    exact ⟨fun ⟨hs, hb⟩ => by rw [hs, hb], fun h => by simpa using h⟩

/-- The names directly below a path. -/
def names (t : PathTree α β branch) (p : List α) : List α := t.entries.filterMap fun e => below p e.1

/-- Whether the path is in the tree and a branch. -/
def isBranch (t : PathTree α β branch) (p : List α) : Bool := ((t.get p).map branch).getD false

theorem lookup_eq_some_iff {l : List (List α × β)} (h : (l.map Prod.fst).Nodup) (p : List α)
    (b : β) : l.lookup p = some b ↔ (p, b) ∈ l := by
  induction l with
  | nil => simp
  | cons e l ih =>
    obtain ⟨q, c⟩ := e
    rw [List.map_cons, List.nodup_cons] at h
    rw [List.lookup_cons]
    by_cases hq : p = q
    · subst hq
      have hno : ∀ d, (p, d) ∉ l := fun d hd => h.1 (List.mem_map.2 ⟨_, hd, rfl⟩)
      simp [hno, eq_comm]
    · have hbeq : (p == q) = false := by simpa using hq
      simp [hbeq, hq, ih h.2]

section Get

variable (t : PathTree α β branch)

theorem get_eq_some_iff {p : List α} {b : β} : t.get p = some b ↔ (p, b) ∈ t.entries :=
  lookup_eq_some_iff t.nodup p b

theorem isBranch_iff {p : List α} :
    t.isBranch p = true ↔ ∃ b, t.get p = some b ∧ branch b = true := by
  unfold isBranch
  cases h : t.get p <;> simp

theorem isBranch_root : t.isBranch [] = true := by
  obtain ⟨b, hb, hbr⟩ := t.root
  exact t.isBranch_iff.2 ⟨b, t.get_eq_some_iff.2 hb, hbr⟩

/-- What has something below it is a branch. -/
theorem isBranch_of_get {p : List α} {a : α} (h : (t.get (p ++ [a])).isSome) :
    t.isBranch p = true := by
  obtain ⟨b, hb⟩ := Option.isSome_iff_exists.1 h
  obtain ⟨c, hc, hbr⟩ := t.closed p a b (t.get_eq_some_iff.1 hb)
  exact t.isBranch_iff.2 ⟨c, t.get_eq_some_iff.2 hc, hbr⟩

theorem isSome_of_isBranch {p : List α} (h : t.isBranch p = true) : (t.get p).isSome := by
  obtain ⟨b, hb, -⟩ := t.isBranch_iff.1 h
  simp [hb]

/-- Every node strictly above a node of the tree is a branch. -/
theorem isBranch_of_append {p r : List α} (hr : r ≠ []) (h : (t.get (p ++ r)).isSome) :
    t.isBranch p = true := by
  induction r using List.reverseRecOn with
  | nil => exact absurd rfl hr
  | append_singleton r a ih =>
    rw [← List.append_assoc] at h
    have hb := t.isBranch_of_get h
    rcases eq_or_ne r [] with rfl | hr'
    · simpa using hb
    · exact ih hr' (t.isSome_of_isBranch hb)

/-- Everything above a node of the tree is in the tree. -/
theorem isSome_of_append {p r : List α} (h : (t.get (p ++ r)).isSome) : (t.get p).isSome := by
  rcases eq_or_ne r [] with rfl | hr
  · simpa using h
  · exact t.isSome_of_isBranch (t.isBranch_of_append hr h)

/-- Nothing is below what is not there. -/
theorem get_append_of_none {p : List α} (h : t.get p = none) (r : List α) :
    t.get (p ++ r) = none := by
  by_contra hne
  have := t.isSome_of_append (Option.isSome_iff_ne_none.2 hne)
  simp [h] at this

theorem get_of_prefix_of_none {p q : List α} (h : t.get p = none) (hpq : p <+: q) :
    t.get q = none := by
  obtain ⟨r, rfl⟩ := hpq
  exact t.get_append_of_none h r

/-- Nothing is below what is not a branch. -/
theorem get_append_of_not_isBranch {p r : List α} (h : t.isBranch p = false) (hr : r ≠ []) :
    t.get (p ++ r) = none := by
  by_contra hne
  have := t.isBranch_of_append hr (Option.isSome_iff_ne_none.2 hne)
  simp [h] at this

theorem mem_names {p : List α} {a : α} : a ∈ t.names p ↔ (t.get (p ++ [a])).isSome := by
  rw [names, List.mem_filterMap, Option.isSome_iff_exists]
  constructor
  · rintro ⟨e, he, hbelow⟩
    exact ⟨e.2, t.get_eq_some_iff.2 (below_eq_some.1 hbelow ▸ he)⟩
  · rintro ⟨b, hb⟩
    exact ⟨(p ++ [a], b), t.get_eq_some_iff.1 hb, below_eq_some.2 rfl⟩

theorem nodup_names (p : List α) : (t.names p).Nodup := by
  have h : t.names p = (t.entries.map Prod.fst).filterMap (below p) := by
    rw [List.filterMap_map]
    rfl
  rw [h]
  refine t.nodup.filterMap fun q q' a hq hq' => ?_
  rw [below_eq_some.1 hq, below_eq_some.1 hq']

/-- What holds of all nodes at or below a path can be checked on the entries. -/
theorem forall_below {p : List α} {P : List α → β → Prop}
    (h : ∀ e ∈ t.entries, p <+: e.1 → P (e.1.drop p.length) e.2) (r : List α) (b : β)
    (hr : t.get (p ++ r) = some b) : P r b := by
  have := h _ (t.get_eq_some_iff.1 hr) (List.prefix_append p r)
  rwa [List.drop_left] at this

theorem names_eq_nil_iff {p : List α} :
    t.names p = [] ↔ ∀ r, r ≠ [] → t.get (p ++ r) = none := by
  constructor
  · rintro h (_ | ⟨a, r⟩) hr
    · exact absurd rfl hr
    by_contra hne
    have hs : (t.get ((p ++ [a]) ++ r)).isSome := by
      rw [List.append_assoc]
      exact Option.isSome_iff_ne_none.2 hne
    have := t.mem_names.2 (t.isSome_of_append hs)
    simp [h] at this
  · intro h
    rw [List.eq_nil_iff_forall_not_mem]
    intro a ha
    have := t.mem_names.1 ha
    simp [h [a] (by simp)] at this

end Get

/-! ## Operations -/

/-- The tree that is a branch and nothing else. -/
def single (b : β) (hb : branch b = true) : PathTree α β branch where
  entries := [([], b)]
  nodup := by simp
  root := ⟨b, List.mem_singleton_self _, hb⟩
  closed p a c h := by simp at h

/-- Add a leaf `b` under the name `a` below the branch `p`. -/
def insert (t : PathTree α β branch) (p : List α) (a : α) (b : β) (hp : t.isBranch p = true)
    (hfree : t.get (p ++ [a]) = none) : PathTree α β branch where
  entries := t.entries ++ [(p ++ [a], b)]
  nodup := by
    rw [List.map_append, List.nodup_append]
    refine ⟨t.nodup, by simp, ?_⟩
    rintro q hq q' hq' rfl
    obtain ⟨⟨_, c⟩, hc, rfl⟩ := List.mem_map.1 hq
    obtain rfl : _ = p ++ [a] := by simpa using hq'
    simp [t.get_eq_some_iff.2 hc] at hfree
  root := by
    obtain ⟨c, hc, hbr⟩ := t.root
    exact ⟨c, List.mem_append_left _ hc, hbr⟩
  closed := by
    intro q a' b' h
    rcases List.mem_append.1 h with h | h
    · obtain ⟨c, hc, hbr⟩ := t.closed q a' b' h
      exact ⟨c, List.mem_append_left _ hc, hbr⟩
    · obtain ⟨rfl, -⟩ : q = p ∧ _ := by
        have := (Prod.mk.inj (List.mem_singleton.1 h)).1
        exact List.append_inj' this rfl
      obtain ⟨c, hc, hbr⟩ := t.isBranch_iff.1 hp
      exact ⟨c, List.mem_append_left _ (t.get_eq_some_iff.1 hc), hbr⟩

theorem get_insert (t : PathTree α β branch) {p : List α} {a : α} {b : β}
    (hp : t.isBranch p = true) (hfree : t.get (p ++ [a]) = none) (q : List α) :
    (t.insert p a b hp hfree).get q = if q = p ++ [a] then some b else t.get q := by
  ext c
  rw [get_eq_some_iff, insert, List.mem_append, ← get_eq_some_iff]
  split
  · next h => subst h; simp [hfree, eq_comm]
  · next h => simp [h]

/-- Change the value at `p` by a function that keeps branches branches. -/
def update (t : PathTree α β branch) (p : List α) (f : β → β)
    (hf : ∀ b, branch (f b) = branch b) : PathTree α β branch where
  entries := t.entries.map fun e => if e.1 = p then (e.1, f e.2) else e
  nodup := by
    have h : ((t.entries.map fun e => if e.1 = p then (e.1, f e.2) else e).map Prod.fst) =
        t.entries.map Prod.fst := by
      rw [List.map_map]
      refine List.map_congr_left fun e _ => ?_
      simp only [Function.comp]
      split <;> rfl
    rw [h]
    exact t.nodup
  root := by
    obtain ⟨c, hc, hbr⟩ := t.root
    by_cases h : [] = p
    · exact ⟨f c, List.mem_map.2 ⟨_, hc, by simp [h]⟩, by rw [hf, hbr]⟩
    · exact ⟨c, List.mem_map.2 ⟨_, hc, by simp [h]⟩, hbr⟩
  closed := by
    intro q a b h
    obtain ⟨⟨q', b'⟩, he, heq⟩ := List.mem_map.1 h
    have hq' : q' = q ++ [a] := by
      by_cases hp : q' = p <;> simp [hp] at heq <;> simp [← heq.1, hp]
    obtain ⟨c, hc, hbr⟩ := t.closed q a b' (hq' ▸ he)
    by_cases hp : q = p
    · exact ⟨f c, List.mem_map.2 ⟨_, hc, by simp [hp]⟩, by rw [hf, hbr]⟩
    · exact ⟨c, List.mem_map.2 ⟨_, hc, by simp [hp]⟩, hbr⟩

theorem get_update (t : PathTree α β branch) (p : List α) (f : β → β)
    (hf : ∀ b, branch (f b) = branch b) (q : List α) :
    (t.update p f hf).get q = if q = p then (t.get q).map f else t.get q := by
  ext c
  rw [get_eq_some_iff, update, List.mem_map]
  split
  · next h =>
    subst h
    constructor
    · rintro ⟨⟨q', b⟩, he, heq⟩
      by_cases hq : q' = q
      · subst hq
        obtain rfl : f b = c := by simpa using heq
        simp [t.get_eq_some_iff.2 he]
      · simp [hq] at heq
    · intro h
      obtain ⟨b, hb, rfl⟩ := Option.map_eq_some_iff.1 h
      exact ⟨(q, b), t.get_eq_some_iff.1 hb, by simp⟩
  · next h =>
    rw [get_eq_some_iff]
    constructor
    · rintro ⟨⟨q', b⟩, he, heq⟩
      by_cases hq : q' = p
      · simp only [hq, if_true, Prod.mk.injEq] at heq
        exact absurd heq.1.symm h
      · simp only [hq, if_false] at heq
        exact heq ▸ he
    · intro he
      exact ⟨(q, c), he, by simp [h]⟩

/-- Remove a node that has nothing below it. -/
def erase (t : PathTree α β branch) (p : List α) (hp : p ≠ []) (hleaf : t.names p = []) :
    PathTree α β branch where
  entries := t.entries.filter fun e => e.1 ≠ p
  nodup := t.nodup.sublist ((List.filter_sublist).map Prod.fst)
  root := by
    obtain ⟨c, hc, hbr⟩ := t.root
    exact ⟨c, List.mem_filter.2 ⟨hc, by simpa using hp.symm⟩, hbr⟩
  closed := by
    intro q a b h
    have he := (List.mem_filter.1 h).1
    obtain ⟨c, hc, hbr⟩ := t.closed q a b he
    refine ⟨c, List.mem_filter.2 ⟨hc, ?_⟩, hbr⟩
    have hq : q ≠ p := by
      rintro rfl
      have := t.mem_names.2 (Option.isSome_iff_exists.2 ⟨b, t.get_eq_some_iff.2 he⟩)
      simp [hleaf] at this
    simpa using hq

theorem get_erase (t : PathTree α β branch) {p : List α} (hp : p ≠ []) (hleaf : t.names p = [])
    (q : List α) : (t.erase p hp hleaf).get q = if q = p then none else t.get q := by
  ext c
  rw [get_eq_some_iff, erase, List.mem_filter]
  split
  · next h => simp [h]
  · next h => simp [h, get_eq_some_iff]

/-- The tree without the subtree at `p`. -/
def prune (t : PathTree α β branch) (p : List α) (hp : p ≠ []) : PathTree α β branch where
  entries := t.entries.filter fun e => ¬ p <+: e.1
  nodup := t.nodup.sublist ((List.filter_sublist).map Prod.fst)
  root := by
    obtain ⟨c, hc, hbr⟩ := t.root
    exact ⟨c, List.mem_filter.2 ⟨hc, by simpa using hp⟩, hbr⟩
  closed := by
    intro q a b h
    obtain ⟨he, hout⟩ := List.mem_filter.1 h
    obtain ⟨c, hc, hbr⟩ := t.closed q a b he
    refine ⟨c, List.mem_filter.2 ⟨hc, ?_⟩, hbr⟩
    have : ¬ p <+: q ++ [a] := by simpa using hout
    simpa using fun hpq => this (hpq.trans (List.prefix_append q [a]))

theorem get_prune (t : PathTree α β branch) {p : List α} (hp : p ≠ []) (q : List α) :
    (t.prune p hp).get q = if p <+: q then none else t.get q := by
  ext c
  rw [get_eq_some_iff, prune, List.mem_filter]
  split
  · next h => simp [h]
  · next h => simp [h, get_eq_some_iff]

/-- Where a path goes when the subtree at `p` is taken to `q`. -/
def rekey (p q x : List α) : List α := if p <+: x then q ++ x.drop p.length else x

theorem rekey_append (p q r : List α) : rekey p q (p ++ r) = q ++ r := by
  simp [rekey]

theorem rekey_of_outside {p x : List α} (q : List α) (h : ¬ p <+: x) : rekey p q x = x := by
  simp [rekey, h]

/-- Take the subtree at `p` to the free place `q ++ [a]`, which is not below it. -/
def move (t : PathTree α β branch) (p q : List α) (a : α) (hp : p ≠ [])
    (hq : t.isBranch q = true) (hfree : t.get (q ++ [a]) = none) (hpq : ¬ p <+: q) :
    PathTree α β branch where
  entries := t.entries.map fun e => (rekey p (q ++ [a]) e.1, e.2)
  nodup := by
    rw [List.map_map]
    have h : (Prod.fst ∘ fun e : List α × β => (rekey p (q ++ [a]) e.1, e.2)) =
        rekey p (q ++ [a]) ∘ Prod.fst := rfl
    rw [h, ← List.map_map]
    refine t.nodup.map_on fun x hx y hy hxy => ?_
    -- a key of the tree is not below the place the subtree goes to
    have hout : ∀ {z}, z ∈ t.entries.map Prod.fst → ∀ r, z ≠ (q ++ [a]) ++ r := by
      rintro z hz r rfl
      obtain ⟨⟨_, c⟩, hc, hz⟩ := List.mem_map.1 hz
      have hnone := t.get_append_of_none hfree r
      rw [← hz, t.get_eq_some_iff.2 hc] at hnone
      simp at hnone
    by_cases hpx : p <+: x <;> by_cases hpy : p <+: y
    · obtain ⟨r, rfl⟩ := hpx
      obtain ⟨r', rfl⟩ := hpy
      rw [rekey_append, rekey_append] at hxy
      rw [List.append_cancel_left hxy]
    · obtain ⟨r, rfl⟩ := hpx
      rw [rekey_append, rekey_of_outside _ hpy] at hxy
      exact absurd hxy.symm (hout hy r)
    · obtain ⟨r', rfl⟩ := hpy
      rw [rekey_append, rekey_of_outside _ hpx] at hxy
      exact absurd hxy (hout hx r')
    · rwa [rekey_of_outside _ hpx, rekey_of_outside _ hpy] at hxy
  root := by
    obtain ⟨c, hc, hbr⟩ := t.root
    refine ⟨c, List.mem_map.2 ⟨_, hc, ?_⟩, hbr⟩
    rw [rekey_of_outside _ (by simpa using hp)]
  closed := by
    intro x b v h
    obtain ⟨⟨y, w⟩, he, heq⟩ := List.mem_map.1 h
    simp only [Prod.mk.injEq] at heq
    obtain ⟨hy, rfl⟩ := heq
    by_cases hpy : p <+: y
    · obtain ⟨r, rfl⟩ := hpy
      rw [rekey_append] at hy
      rcases List.eq_nil_or_concat r with rfl | ⟨r, b', rfl⟩
      · -- the moved node itself, whose parent is the branch `q`
        obtain ⟨rfl, -⟩ := List.append_inj' (show q ++ [a] = x ++ [b] by simpa using hy) rfl
        obtain ⟨c, hc, hbr⟩ := t.isBranch_iff.1 hq
        refine ⟨c, List.mem_map.2 ⟨_, t.get_eq_some_iff.1 hc, ?_⟩, hbr⟩
        rw [rekey_of_outside _ hpq]
      · rw [List.concat_eq_append, ← List.append_assoc] at hy
        obtain ⟨rfl, -⟩ := List.append_inj' hy rfl
        rw [List.concat_eq_append, ← List.append_assoc] at he
        obtain ⟨c, hc, hbr⟩ := t.closed _ _ _ he
        refine ⟨c, List.mem_map.2 ⟨_, hc, ?_⟩, hbr⟩
        rw [rekey_append]
    · rw [rekey_of_outside _ hpy] at hy
      subst hy
      obtain ⟨c, hc, hbr⟩ := t.closed _ _ _ he
      refine ⟨c, List.mem_map.2 ⟨_, hc, ?_⟩, hbr⟩
      rw [rekey_of_outside]
      exact fun hpx => hpy (hpx.trans (List.prefix_append x [b]))

theorem get_move_append (t : PathTree α β branch) {p q : List α} {a : α} (hp : p ≠ [])
    (hq : t.isBranch q = true) (hfree : t.get (q ++ [a]) = none) (hpq : ¬ p <+: q)
    (r : List α) : (t.move p q a hp hq hfree hpq).get (q ++ [a] ++ r) = t.get (p ++ r) := by
  ext c
  rw [get_eq_some_iff, get_eq_some_iff, move, List.mem_map]
  constructor
  · rintro ⟨⟨y, w⟩, he, heq⟩
    simp only [Prod.mk.injEq] at heq
    obtain ⟨hy, rfl⟩ := heq
    by_cases hpy : p <+: y
    · obtain ⟨r', rfl⟩ := hpy
      rw [rekey_append] at hy
      rwa [← List.append_cancel_left hy]
    · rw [rekey_of_outside _ hpy] at hy
      have hnone := t.get_append_of_none hfree r
      rw [← hy, t.get_eq_some_iff.2 he] at hnone
      simp at hnone
  · intro he
    exact ⟨_, he, by rw [rekey_append]⟩

/-- Outside both places a move changes nothing. -/
theorem get_move_outside (t : PathTree α β branch) {p q : List α} {a : α} (hp : p ≠ [])
    (hq : t.isBranch q = true) (hfree : t.get (q ++ [a]) = none) (hpq : ¬ p <+: q)
    {x : List α} (hx : ¬ p <+: x) (hx' : ¬ q ++ [a] <+: x) :
    (t.move p q a hp hq hfree hpq).get x = t.get x := by
  ext c
  rw [get_eq_some_iff, get_eq_some_iff, move, List.mem_map]
  constructor
  · rintro ⟨⟨y, w⟩, he, heq⟩
    simp only [Prod.mk.injEq] at heq
    obtain ⟨hy, rfl⟩ := heq
    by_cases hpy : p <+: y
    · obtain ⟨r', rfl⟩ := hpy
      rw [rekey_append] at hy
      exact absurd ⟨r', hy⟩ hx'
    · rw [rekey_of_outside _ hpy] at hy
      exact hy ▸ he
  · intro he
    exact ⟨_, he, by rw [rekey_of_outside _ hx]⟩

/-- Nothing stays where the subtree was, unless it was moved over that place from above. -/
theorem get_move_below (t : PathTree α β branch) {p q : List α} {a : α} (hp : p ≠ [])
    (hq : t.isBranch q = true) (hfree : t.get (q ++ [a]) = none) (hpq : ¬ p <+: q)
    {x : List α} (hx : p <+: x) (hx' : ¬ q ++ [a] <+: x) :
    (t.move p q a hp hq hfree hpq).get x = none := by
  by_contra hne
  obtain ⟨c, hc⟩ := Option.ne_none_iff_exists'.1 hne
  rw [get_eq_some_iff, move, List.mem_map] at hc
  obtain ⟨⟨y, w⟩, he, heq⟩ := hc
  simp only [Prod.mk.injEq] at heq
  obtain ⟨hy, rfl⟩ := heq
  by_cases hpy : p <+: y
  · obtain ⟨r', rfl⟩ := hpy
    rw [rekey_append] at hy
    exact hx' ⟨r', hy⟩
  · rw [rekey_of_outside _ hpy] at hy
    exact hpy (hy ▸ hx)

/-! ## Listings -/

/-- A removed node is no longer listed, and the listings keep their order. -/
theorem names_erase (t : PathTree α β branch) {p : List α} (hp : p ≠ []) (hleaf : t.names p = [])
    (q : List α) : (t.erase p hp hleaf).names q = (t.names q).filter fun a => q ++ [a] ≠ p := by
  rw [names, names, erase, List.filterMap_filter, List.filter_filterMap]
  refine List.filterMap_congr fun e _ => ?_
  ext a
  by_cases h : e.1 = p
  · simp only [h, ne_eq, not_true_eq_false, decide_false, Bool.false_eq_true, if_false,
      Option.filter_eq_some_iff, below_eq_some, decide_not, Bool.not_eq_true', reduceCtorEq, false_iff]
    rintro ⟨rfl, hne⟩
    simp at hne
  · simp only [h, ne_eq, not_false_eq_true, decide_true, if_true, Option.filter_eq_some_iff,
      below_eq_some, decide_not, Bool.not_eq_true']
    constructor
    · intro he
      exact ⟨he, by rw [← he]; simpa using h⟩
    · exact fun he => he.1

/-- A leaf that is moved is no longer listed where it was; all listings but the one it comes to keep
their order. -/
theorem names_move (t : PathTree α β branch) {p q : List α} {a : α} (hp : p ≠ [])
    (hq : t.isBranch q = true) (hfree : t.get (q ++ [a]) = none) (hpq : ¬ p <+: q)
    (hleaf : t.isBranch p = false) {r : List α} (hr : r ≠ q) :
    (t.move p q a hp hq hfree hpq).names r = (t.names r).filter fun c => r ++ [c] ≠ p := by
  rw [names, names, move, List.filterMap_map, List.filter_filterMap]
  refine List.filterMap_congr fun e he => ?_
  have hsome : (t.get e.1).isSome := by rw [t.get_eq_some_iff.2 he]; rfl
  ext c
  simp only [Function.comp, Option.filter_eq_some_iff, below_eq_some, ne_eq, decide_not,
    Bool.not_eq_true', decide_eq_false_iff_not]
  by_cases hpe : p <+: e.1
  · -- nothing is below a leaf
    obtain ⟨x, hx⟩ := hpe
    obtain rfl : x = [] := by
      by_contra hne
      rw [← hx, t.get_append_of_not_isBranch hleaf hne] at hsome
      simp at hsome
    rw [← hx, rekey_append, List.append_nil, List.append_nil]
    constructor
    · intro h
      exact absurd (List.append_inj' h rfl).1.symm hr
    · rintro ⟨h, hne⟩
      exact absurd h.symm hne
  · rw [rekey_of_outside _ hpe]
    constructor
    · exact fun h => ⟨h, fun hc => hpe (by rw [h, hc])⟩
    · exact fun h => h.1

end PathTree

end Aurade
