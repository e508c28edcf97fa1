import Mathlib.Data.List.Flatten
import Mathlib.Data.List.Nodup
import Mathlib.Data.List.Perm.Lattice
import Mathlib.Tactic.Common

/-!
# Walks that take a folder's leaves before its folders

`walk` collects the leaves below a place: those of the place itself first, and then those below each
folder in it, in an order that is given for every place. Places are lists of names, from the root.

What it collects does not depend on the orders (`mem_walk`, `perm_walk`), and of two leaves it is told
which comes first: `Precedes` says so of an order, and `Precedes.sublist` of the walk.
-/

namespace Aurade

variable {α : Type} (order : List α → List α) (leaf folder : List α → Bool)

/-- The leaves below a place, so many levels down. -/
def walk : ℕ → List α → List (List α)
  | 0, _ => []
  | k + 1, here =>
    ((order here).map fun a => here ++ [a]).filter leaf ++
      (((order here).map fun a => here ++ [a]).filter folder).flatMap fun p => walk k p

/-- What a walk comes to below a place: a leaf, through folders. -/
def Reached : List α → List α → Prop
  | _, [] => False
  | here, [a] => a ∈ order here ∧ leaf (here ++ [a]) = true
  | here, a :: b :: x =>
    a ∈ order here ∧ folder (here ++ [a]) = true ∧ Reached (here ++ [a]) (b :: x)

/-- Which of two leaves below a place comes first: one of the place itself before one that is deeper,
and else the one whose name comes first where their ways part. -/
inductive Precedes : List α → List α → List α → Prop
  | deeper {here y : List α} {a b : α} (hy : y ≠ []) : Precedes here [a] (b :: y)
  | leaves {here : List α} {a b : α} (h : [a, b].Sublist (order here)) : Precedes here [a] [b]
  | folders {here x y : List α} {a b : α} (hx : x ≠ []) (hy : y ≠ [])
      (h : [a, b].Sublist (order here)) : Precedes here (a :: x) (b :: y)
  | inside {here x y : List α} {a : α} (hx : x ≠ []) (hy : y ≠ []) (h : Precedes (here ++ [a]) x y) :
      Precedes here (a :: x) (a :: y)

variable {order leaf folder} {order' : List α → List α} {k : ℕ} {here p x y : List α} {a b : α}

theorem reached_cons (hx : x ≠ []) : Reached order leaf folder here (a :: x) ↔
    a ∈ order here ∧ folder (here ++ [a]) = true ∧ Reached order leaf folder (here ++ [a]) x := by
  cases x with
  | nil => exact absurd rfl hx
  | cons b x => exact Iff.rfl

theorem Reached.ne_nil (h : Reached order leaf folder here x) : x ≠ [] := by
  rintro rfl
  exact h

/-- **What a walk collects.** -/
theorem mem_walk : p ∈ walk order leaf folder k here ↔
    ∃ x, p = here ++ x ∧ x.length ≤ k ∧ Reached order leaf folder here x := by
  induction k generalizing here with
  | zero =>
    refine ⟨fun h => absurd h List.not_mem_nil, ?_⟩
    rintro ⟨x, -, hlen, hx⟩
    exact absurd (List.length_eq_zero_iff.1 (Nat.le_zero.1 hlen)) hx.ne_nil
  | succ k ih =>
    rw [walk, List.mem_append, List.mem_filter, List.mem_map, List.mem_flatMap]
    constructor
    · rintro (⟨⟨a, ha, rfl⟩, hleaf⟩ | ⟨q, hq, hp⟩)
      · exact ⟨[a], rfl, Nat.succ_le_succ (Nat.zero_le k), ha, hleaf⟩
      · obtain ⟨hmem, hfolder⟩ := List.mem_filter.1 hq
        obtain ⟨a, ha, rfl⟩ := List.mem_map.1 hmem
        obtain ⟨x, rfl, hlen, hx⟩ := ih.1 hp
        refine ⟨a :: x, by simp, Nat.succ_le_succ hlen, ?_⟩
        exact (reached_cons hx.ne_nil).2 ⟨ha, hfolder, hx⟩
    · rintro ⟨x, rfl, hlen, hx⟩
      cases x with
      | nil => exact absurd rfl hx.ne_nil
      | cons a x =>
        by_cases hnil : x = []
        · obtain rfl := hnil
          exact Or.inl ⟨⟨a, hx.1, rfl⟩, hx.2⟩
        · obtain ⟨ha, hfolder, hx⟩ := (reached_cons hnil).1 hx
          refine Or.inr ⟨here ++ [a], ?_, ih.2 ⟨x, by simp, Nat.le_of_succ_le_succ hlen, hx⟩⟩
          exact List.mem_filter.2 ⟨List.mem_map.2 ⟨a, ha, rfl⟩, hfolder⟩

theorem reached_congr (h : ∀ p a, a ∈ order p ↔ a ∈ order' p) :
    Reached order leaf folder here x ↔ Reached order' leaf folder here x := by
  induction x generalizing here with
  | nil => exact Iff.rfl
  | cons a x ih =>
    by_cases hnil : x = []
    · obtain rfl := hnil
      exact and_congr (h here a) Iff.rfl
    · rw [reached_cons hnil, reached_cons hnil, h, ih]

/-- The folders of a place. -/
theorem mem_folders : p ∈ ((order here).map fun a => here ++ [a]).filter folder ↔
    ∃ a, a ∈ order here ∧ folder (here ++ [a]) = true ∧ p = here ++ [a] := by
  rw [List.mem_filter, List.mem_map]
  constructor
  · rintro ⟨⟨a, ha, rfl⟩, h⟩
    exact ⟨a, ha, h, rfl⟩
  · rintro ⟨a, ha, h, rfl⟩
    exact ⟨⟨a, ha, rfl⟩, h⟩

theorem mem_walk_append :
    here ++ x ∈ walk order leaf folder k here ↔ x.length ≤ k ∧ Reached order leaf folder here x := by
  rw [mem_walk]
  constructor
  · rintro ⟨y, hy, h⟩
    obtain rfl := List.append_cancel_left hy
    exact h
  · exact fun h => ⟨x, rfl, h⟩

/-- A place is collected once. -/
theorem nodup_walk (hnodup : ∀ p, (order p).Nodup) : (walk order leaf folder k here).Nodup := by
  induction k generalizing here with
  | zero => exact List.nodup_nil
  | succ k ih =>
    have hmap : ((order here).map fun a => here ++ [a]).Nodup :=
      (hnodup here).map fun a b hab => List.singleton_inj.1 (List.append_cancel_left hab)
    rw [walk, List.nodup_append]
    refine ⟨hmap.filter _, ?_, ?_⟩
    · rw [List.nodup_flatMap]
      refine ⟨fun p _ => ih, (hmap.filter folder).imp_of_mem ?_⟩
      intro p q hp hq hne z hzp hzq
      obtain ⟨a, -, -, rfl⟩ := mem_folders.1 hp
      obtain ⟨b, -, -, rfl⟩ := mem_folders.1 hq
      obtain ⟨x, rfl, -⟩ := mem_walk.1 hzp
      obtain ⟨y, hy, -⟩ := mem_walk.1 hzq
      rw [List.append_assoc, List.append_assoc] at hy
      have hab := (List.cons.inj (List.append_cancel_left hy)).1
      exact hne (by rw [hab])
    · intro p hp q hq
      rintro rfl
      obtain ⟨a, -, rfl⟩ := List.mem_map.1 (List.mem_of_mem_filter hp)
      obtain ⟨r, hr, hq⟩ := List.mem_flatMap.1 hq
      obtain ⟨b, -, -, rfl⟩ := mem_folders.1 hr
      obtain ⟨x, hx, -, hreached⟩ := mem_walk.1 hq
      rw [List.append_assoc] at hx
      exact hreached.ne_nil (List.cons.inj (List.append_cancel_left hx)).2.symm

/-- **The order does not matter** to what is collected. -/
theorem perm_walk (hnodup : ∀ p, (order p).Nodup) (hperm : ∀ p, (order p).Perm (order' p)) :
    (walk order leaf folder k here).Perm (walk order' leaf folder k here) := by
  have hnodup' : ∀ p, (order' p).Nodup := fun p => (hperm p).nodup (hnodup p)
  rw [List.perm_ext_iff_of_nodup (nodup_walk hnodup) (nodup_walk hnodup')]
  intro p
  rw [mem_walk, mem_walk]
  exact exists_congr fun x => and_congr_right fun _ => and_congr_right fun _ =>
    reached_congr fun q a => (hperm q).mem_iff

/-- What is below the first name on the way is collected with its folder. -/
theorem mem_walk_cons (hx : x ≠ []) (hmem : (a :: x).length ≤ k + 1)
    (h : Reached order leaf folder here (a :: x)) :
    folder (here ++ [a]) = true ∧ (here ++ [a]) ++ x ∈ walk order leaf folder k (here ++ [a]) := by
  obtain ⟨-, hfolder, h⟩ := (reached_cons hx).1 h
  exact ⟨hfolder, mem_walk_append.2 ⟨Nat.le_of_succ_le_succ hmem, h⟩⟩

/-- **Which of two comes first.** -/
theorem Precedes.sublist (h : Precedes order here x y)
    (hx : here ++ x ∈ walk order leaf folder k here) (hy : here ++ y ∈ walk order leaf folder k here) :
    [here ++ x, here ++ y].Sublist (walk order leaf folder k here) := by
  rw [mem_walk_append] at hx hy
  induction h generalizing k with
  | @deeper here y a b hne =>
    cases k with
    | zero => exact absurd hx.1 (by simp)
    | succ k =>
      have hleaf : here ++ [a] ∈ ((order here).map fun a => here ++ [a]).filter leaf :=
        List.mem_filter.2 ⟨List.mem_map.2 ⟨a, hx.2.1, rfl⟩, hx.2.2⟩
      obtain ⟨hfolder, hbelow⟩ := mem_walk_cons hne hy.1 hy.2
      have hb := ((reached_cons hne).1 hy.2).1
      refine (List.singleton_sublist.2 hleaf).append (List.singleton_sublist.2 ?_)
      rw [List.mem_flatMap]
      exact ⟨here ++ [b], mem_folders.2 ⟨b, hb, hfolder, rfl⟩, by simpa using hbelow⟩
  | @leaves here a b h =>
    cases k with
    | zero => exact absurd hx.1 (by simp)
    | succ k =>
      have hboth := (h.map fun a => here ++ [a]).filter leaf
      rw [List.map_cons, List.map_cons, List.map_nil, List.filter_cons_of_pos hx.2.2,
        List.filter_cons_of_pos hy.2.2, List.filter_nil] at hboth
      exact hboth.trans (List.sublist_append_left _ _)
  | @folders here x y a b hnx hny h =>
    cases k with
    | zero => exact absurd hx.1 (by simp)
    | succ k =>
      obtain ⟨hfolder, hbelow⟩ := mem_walk_cons hnx hx.1 hx.2
      obtain ⟨hfolder', hbelow'⟩ := mem_walk_cons hny hy.1 hy.2
      have hboth := (h.map fun a => here ++ [a]).filter folder
      rw [List.map_cons, List.map_cons, List.map_nil, List.filter_cons_of_pos hfolder,
        List.filter_cons_of_pos hfolder', List.filter_nil] at hboth
      have hflat := hboth.flatMap (walk order leaf folder k)
      rw [List.flatMap_cons, List.flatMap_cons, List.flatMap_nil, List.append_nil] at hflat
      have hpair := (List.singleton_sublist.2 hbelow).append (List.singleton_sublist.2 hbelow')
      simp only [List.append_assoc, List.singleton_append] at hpair
      exact (hpair.trans hflat).trans (List.sublist_append_right _ _)
  | @inside here x y a hnx hny h ih =>
    cases k with
    | zero => exact absurd hx.1 (by simp)
    | succ k =>
      obtain ⟨ha, hfolder, hx'⟩ := (reached_cons hnx).1 hx.2
      have hy' := ((reached_cons hny).1 hy.2).2.2
      have hpair := ih ⟨Nat.le_of_succ_le_succ hx.1, hx'⟩ ⟨Nat.le_of_succ_le_succ hy.1, hy'⟩
      simp only [List.append_assoc, List.singleton_append] at hpair
      have hmem := mem_folders.2 ⟨a, ha, hfolder, rfl⟩
      have hflat := (List.singleton_sublist.2 hmem).flatMap (walk order leaf folder k)
      rw [List.flatMap_cons, List.flatMap_nil, List.append_nil] at hflat
      exact (hpair.trans hflat).trans (List.sublist_append_right _ _)

/-! ## Leaves in one folder and in another -/

/-- The folder of one leaf is above that of another. -/
def Above (p q : List α) : Prop := p.dropLast <+: q.dropLast ∧ p.length < q.length

theorem above_cons (hx : x ≠ []) (hy : y ≠ []) : Above (a :: x) (b :: y) ↔ a = b ∧ Above x y := by
  rw [Above, Above, List.dropLast_cons_of_ne_nil hx, List.dropLast_cons_of_ne_nil hy,
    List.cons_prefix_cons, List.length_cons, List.length_cons, Nat.succ_lt_succ_iff, and_assoc]

theorem above_append : Above (here ++ x) (here ++ y) → x ≠ [] → y ≠ [] → Above x y := by
  intro h hx hy
  obtain ⟨hpre, hlen⟩ := h
  rw [List.dropLast_append_of_ne_nil hx, List.dropLast_append_of_ne_nil hy,
    List.prefix_append_right_inj] at hpre
  rw [List.length_append, List.length_append] at hlen
  exact ⟨hpre, Nat.lt_of_add_lt_add_left hlen⟩

/-- A folder is above all that is below it. -/
theorem above_singleton (hy : y ≠ []) : Above [a] (b :: y) :=
  ⟨List.nil_prefix, Nat.succ_lt_succ (List.length_pos_of_ne_nil hy)⟩

/-- A leaf of a folder above comes first, in whatever order. -/
theorem Precedes.of_above (hx : x ≠ []) (h : Above x y) : Precedes order here x y := by
  induction x generalizing here y with
  | nil => exact absurd rfl hx
  | cons a x ih =>
    cases y with
    | nil => exact absurd h.2 (Nat.not_lt_zero _)
    | cons b y =>
      have hy : y ≠ [] := by
        rintro rfl
        exact absurd h.2 (by simp)
      by_cases hnil : x = []
      · obtain rfl := hnil
        exact .deeper hy
      · obtain ⟨rfl, hbelow⟩ := (above_cons hnil hy).1 h
        exact .inside hnil hy (ih hnil hbelow)

variable [DecidableEq α]

variable (order) in
/-- The order that comes to a place first: at every folder above it, the name on the way. -/
def toward (p here : List α) : List α :=
  match p.drop here.length with
  | a :: _ => if here <+: p ∧ a ∈ order here then a :: (order here).erase a else order here
  | [] => order here

theorem toward_append (ha : a ∈ order here) :
    toward order (here ++ a :: x) here = a :: (order here).erase a := by
  rw [toward, List.drop_left]
  exact if_pos ⟨List.prefix_append _ _, ha⟩

theorem perm_toward (p : List α) : (order here).Perm (toward order p here) := by
  unfold toward
  split
  · split
    · next h => exact List.perm_cons_erase h.2
    · exact List.Perm.refl _
  · exact List.Perm.refl _

theorem sublist_toward (hab : a ≠ b) (ha : a ∈ order here) (hb : b ∈ order here) :
    [a, b].Sublist (toward order (here ++ a :: x) here) := by
  rw [toward_append ha]
  exact (List.singleton_sublist.2 ((List.mem_erase_of_ne hab.symm).2 hb)).cons_cons a

/-- **A leaf comes before any other that is not of a folder above it**, in the order that comes to it
first. -/
theorem Precedes.toward (hx : Reached order leaf folder here x) (hy : Reached order leaf folder here y)
    (hne : x ≠ y) (hxy : ¬Above x y) (hyx : ¬Above y x) :
    Precedes (toward order (here ++ x)) here x y := by
  induction x generalizing here y with
  | nil => exact absurd rfl hx.ne_nil
  | cons a x ih =>
    cases y with
    | nil => exact absurd rfl hy.ne_nil
    | cons b y =>
      by_cases hnx : x = []
      · obtain rfl := hnx
        by_cases hny : y = []
        · obtain rfl := hny
          have hab : a ≠ b := fun hab => hne (by rw [hab])
          exact .leaves (sublist_toward hab hx.1 hy.1)
        · exact absurd (above_singleton hny) hxy
      · by_cases hny : y = []
        · obtain rfl := hny
          exact absurd (above_singleton hnx) hyx
        · obtain ⟨ha, -, hx'⟩ := (reached_cons hnx).1 hx
          obtain ⟨hb, -, hy'⟩ := (reached_cons hny).1 hy
          by_cases hab : a = b
          · obtain rfl := hab
            have hrec := ih hx' hy' (fun h => hne (by rw [h]))
              (fun h => hxy ((above_cons hnx hny).2 ⟨rfl, h⟩))
              (fun h => hyx ((above_cons hny hnx).2 ⟨rfl, h⟩))
            rw [List.append_assoc, List.singleton_append] at hrec
            exact .inside hnx hny hrec
          · exact .folders hnx hny (sublist_toward hab ha hb)

end Aurade
