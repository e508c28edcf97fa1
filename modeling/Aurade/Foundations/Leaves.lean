import Aurade.Foundations.PathTree
import Mathlib.Data.List.Perm.Subperm

/-!
# Walking a tree

`leaves t p` are the paths below `p` that are no branches, in the order in which a walk that lists
every directory meets them. `leaves_eq` is the walk's own recursion, `mem_leaves` says which paths
these are, and each is met once (`nodup_leaves`).

`count t P` is the number of nodes with the property `P`. `count_le` and `count_lt` compare the
counts of two trees by a function that takes the nodes of the one to those of the other.
-/

namespace Aurade.PathTree

variable {α β : Type} [DecidableEq α] {branch : β → Bool} (t : PathTree α β branch)

/-- A path is shorter than the tree is large: everything above it is in the tree as well. -/
theorem length_lt {p : List α} (h : (t.get p).isSome) : p.length < t.entries.length := by
  have hsub : (List.range (p.length + 1)).map p.take ⊆ t.entries.map Prod.fst := by
    intro q hq
    obtain ⟨i, -, rfl⟩ := List.mem_map.1 hq
    have hi : (t.get (p.take i ++ p.drop i)).isSome := by rwa [List.take_append_drop]
    obtain ⟨b, hb⟩ := Option.isSome_iff_exists.1 (t.isSome_of_append hi)
    exact List.mem_map.2 ⟨_, t.get_eq_some_iff.1 hb, rfl⟩
  have hnodup : ((List.range (p.length + 1)).map p.take).Nodup := by
    refine List.nodup_range.map_on fun i hi j hj hij => ?_
    have hlen := congrArg List.length hij
    simp only [List.length_take, List.mem_range] at hlen hi hj
    omega
  have hle := (List.subperm_of_subset hnodup hsub).length_le
  simp only [List.length_map, List.length_range] at hle
  omega

/-! ## Leaves -/

/-- The leaves at most `n` levels below a path. -/
def leavesAux : ℕ → List α → List (List α)
  | 0, _ => []
  | n + 1, p => (t.names p).flatMap fun a =>
    if t.isBranch (p ++ [a]) then leavesAux n (p ++ [a]) else [p ++ [a]]

/-- The leaves below a path, in the order of the walk. -/
def leaves (p : List α) : List (List α) := t.leavesAux t.entries.length p

theorem leavesAux_succ {n : ℕ} {p : List α} (h : t.entries.length ≤ n + p.length) :
    t.leavesAux (n + 1) p = t.leavesAux n p := by
  induction n generalizing p with
  | zero =>
    have hnames : t.names p = [] := by
      rw [List.eq_nil_iff_forall_not_mem]
      intro a ha
      have hlt := t.length_lt (t.mem_names.1 ha)
      rw [List.length_append, List.length_singleton] at hlt
      omega
    rw [leavesAux, leavesAux, hnames, List.flatMap_nil]
  | succ n ih =>
    rw [leavesAux, leavesAux]
    refine List.flatMap_congr fun a _ => ?_
    rw [ih (by rw [List.length_append, List.length_singleton]; omega)]

/-- **The recursion of the walk.** -/
theorem leaves_eq (p : List α) : t.leaves p = (t.names p).flatMap fun a =>
    if t.isBranch (p ++ [a]) then t.leaves (p ++ [a]) else [p ++ [a]] := by
  have h : t.entries.length ≤ t.entries.length + p.length := Nat.le_add_right _ _
  rw [leaves, ← t.leavesAux_succ h, leavesAux]
  rfl

theorem leavesAux_below {n : ℕ} {p x : List α} (hx : x ∈ t.leavesAux n p) :
    (∃ a, p ++ [a] <+: x) ∧ ∃ b, t.get x = some b ∧ branch b = false := by
  induction n generalizing p with
  | zero => simp [leavesAux] at hx
  | succ n ih =>
    rw [leavesAux, List.mem_flatMap] at hx
    obtain ⟨a, ha, hx⟩ := hx
    split at hx
    · obtain ⟨⟨c, hc⟩, hb⟩ := ih hx
      exact ⟨⟨a, (List.prefix_append _ _).trans hc⟩, hb⟩
    · next hbr =>
      obtain rfl := List.mem_singleton.1 hx
      obtain ⟨b, hb⟩ := Option.isSome_iff_exists.1 (t.mem_names.1 ha)
      refine ⟨⟨a, List.prefix_rfl⟩, b, hb, ?_⟩
      rw [← Bool.not_eq_true]
      exact fun h => hbr (t.isBranch_iff.2 ⟨b, hb, h⟩)

/-- The leaves are the paths strictly below that are in the tree and no branches. -/
theorem mem_leaves {p x : List α} :
    x ∈ t.leaves p ↔ p <+: x ∧ x ≠ p ∧ ∃ b, t.get x = some b ∧ branch b = false := by
  constructor
  · intro hx
    obtain ⟨⟨a, ha⟩, hb⟩ := t.leavesAux_below hx
    refine ⟨(List.prefix_append _ _).trans ha, ?_, hb⟩
    rintro rfl
    have := ha.length_le
    rw [List.length_append, List.length_singleton] at this
    omega
  · rintro ⟨⟨r, rfl⟩, hne, b, hb, hbr⟩
    induction r generalizing p with
    | nil => simp at hne
    | cons a r ih =>
      have hcons : p ++ a :: r = p ++ [a] ++ r := by simp
      rw [hcons] at hb ⊢
      have ha : a ∈ t.names p := t.mem_names.2 (t.isSome_of_append (by rw [hb]; rfl))
      rw [t.leaves_eq, List.mem_flatMap]
      refine ⟨a, ha, ?_⟩
      rcases eq_or_ne r [] with rfl | hr
      · rw [List.append_nil] at hb ⊢
        have hno : ¬ t.isBranch (p ++ [a]) = true := by
          rw [t.isBranch_iff]
          rintro ⟨c, hc, hcbr⟩
          rw [hb] at hc
          rw [← Option.some.inj hc, hbr] at hcbr
          simp at hcbr
        rw [if_neg hno]
        exact List.mem_singleton_self _
      · have hyes : t.isBranch (p ++ [a]) = true := t.isBranch_of_append hr (by rw [hb]; rfl)
        rw [if_pos hyes]
        exact ih (by simpa using hr) hb

/-- Each leaf is met once. -/
theorem nodup_leaves (p : List α) : (t.leaves p).Nodup := by
  have haux : ∀ n p, (t.leavesAux n p).Nodup := by
    intro n
    induction n with
    | zero => simp [leavesAux]
    | succ n ih =>
      intro p
      rw [leavesAux, List.nodup_flatMap]
      constructor
      · intro a _
        split
        · exact ih _
        · simp
      · refine (t.nodup_names p).imp fun {a a'} hne => ?_
        -- what is met below one child is not below another
        have hbelow : ∀ c x, x ∈ (if t.isBranch (p ++ [c]) then t.leavesAux n (p ++ [c])
            else [p ++ [c]]) → p ++ [c] <+: x := by
          intro c x hx
          split at hx
          · obtain ⟨⟨d, hd⟩, -⟩ := t.leavesAux_below hx
            exact (List.prefix_append _ _).trans hd
          · rw [List.mem_singleton.1 hx]
        intro x hx hx'
        have h1 := hbelow a x hx
        have h2 := hbelow a' x hx'
        refine hne ?_
        rcases List.prefix_or_prefix_of_prefix h1 h2 with h | h <;>
          rw [List.prefix_append_right_inj] at h <;> simpa [eq_comm] using h
  exact haux _ p

/-! ## Counting -/

/-- The number of nodes with a property. -/
def count (P : List α → β → Bool) : ℕ := (t.entries.filter fun e => P e.1 e.2).length

variable {t} {t' : PathTree α β branch} {P : List α → β → Bool}

section Compare

variable {g : List α → List α}
  (hg : ∀ x b, t'.get x = some b → P x b = true → ∃ b', t.get (g x) = some b' ∧ P (g x) b' = true)
  (hinj : ∀ x y b c, t'.get x = some b → P x b = true → t'.get y = some c → P y c = true →
    g x = g y → x = y)

include hg hinj in
theorem count_aux :
    (((t'.entries.filter fun e => P e.1 e.2).map Prod.fst).map g).Nodup ∧
      ((t'.entries.filter fun e => P e.1 e.2).map Prod.fst).map g ⊆
        (t.entries.filter fun e => P e.1 e.2).map Prod.fst := by
  have hmem : ∀ {u : PathTree α β branch} {x : List α},
      x ∈ (u.entries.filter fun e => P e.1 e.2).map Prod.fst ↔
        ∃ b, u.get x = some b ∧ P x b = true := by
    intro u x
    rw [List.mem_map]
    constructor
    · rintro ⟨e, he, rfl⟩
      obtain ⟨he, hP⟩ := List.mem_filter.1 he
      exact ⟨e.2, u.get_eq_some_iff.2 he, hP⟩
    · rintro ⟨b, hb, hP⟩
      exact ⟨(x, b), List.mem_filter.2 ⟨u.get_eq_some_iff.1 hb, hP⟩, rfl⟩
  constructor
  · refine (t'.nodup.sublist ((List.filter_sublist).map Prod.fst)).map_on ?_
    intro x hx y hy hxy
    obtain ⟨b, hb, hPb⟩ := hmem.1 hx
    obtain ⟨c, hc, hPc⟩ := hmem.1 hy
    exact hinj x y b c hb hPb hc hPc hxy
  · intro y hy
    obtain ⟨x, hx, rfl⟩ := List.mem_map.1 hy
    obtain ⟨b, hb, hP⟩ := hmem.1 hx
    exact hmem.2 (hg x b hb hP)

include hg hinj in
/-- No more nodes have the property than there were, when each comes from one of its own. -/
theorem count_le : t'.count P ≤ t.count P := by
  obtain ⟨hnodup, hsub⟩ := count_aux hg hinj
  simpa [count] using (List.subperm_of_subset hnodup hsub).length_le

include hg hinj in
/-- And fewer have it, when one of those that had it is where none comes from. -/
theorem count_lt {y : List α} {c : β} (hy : t.get y = some c) (hP : P y c = true)
    (hmiss : ∀ x b, t'.get x = some b → P x b = true → g x ≠ y) : t'.count P < t.count P := by
  obtain ⟨hnodup, hsub⟩ := count_aux hg hinj
  have hy' : y ∉ ((t'.entries.filter fun e => P e.1 e.2).map Prod.fst).map g := by
    intro hmem
    obtain ⟨x, hx, hxy⟩ := List.mem_map.1 hmem
    obtain ⟨e, he, rfl⟩ := List.mem_map.1 hx
    obtain ⟨he, hPe⟩ := List.mem_filter.1 he
    exact hmiss e.1 e.2 (t'.get_eq_some_iff.2 he) hPe hxy
  have hsub' : y :: ((t'.entries.filter fun e => P e.1 e.2).map Prod.fst).map g ⊆
      (t.entries.filter fun e => P e.1 e.2).map Prod.fst := by
    refine List.cons_subset.2 ⟨?_, hsub⟩
    exact List.mem_map.2 ⟨(y, c), List.mem_filter.2 ⟨t.get_eq_some_iff.1 hy, hP⟩, rfl⟩
  have := (List.subperm_of_subset (List.nodup_cons.2 ⟨hy', hnodup⟩) hsub').length_le
  simpa [count, Nat.succ_le_iff] using this

end Compare

end Aurade.PathTree
