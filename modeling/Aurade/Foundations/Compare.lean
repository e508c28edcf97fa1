import Mathlib.Data.List.Basic
import Mathlib.Data.List.Induction
import Mathlib.Data.List.Nodup
import Mathlib.Order.Lattice
import Mathlib.Tactic.Common

/-!
# Comparisons that may fail

Sorting and choosing in a language where some values cannot be compared: a comparison then fails, and
with it the whole. `Comparison` says when, of a strict order of keys: two values of one group are
comparable when they are of one kind, values of two groups always are.

* `sortBy` is a stable sort. It succeeds exactly when all values are comparable (`sortBy_ok`,
  `comparable_of_sortBy`), although it compares only some of them.
* `bestBy` keeps one value a key, in the place of the first. It is the last of the latest
  (`IsLatest`, `bestBy_ok`), and it succeeds exactly when all values of one key are of one kind.

`sortWith` is a stable sort by a comparison that always answers. Where no two values of a list are
equal to it, the order of the list does not matter (`sortWith_perm`); two that are equal stay in theirs
(`pair_sortWith`, `pair_of_sortWith`).
-/

namespace Aurade

variable {α κ γ δ ε : Type}

/-- The values of a group are of one kind. -/
def Alike (group : α → γ) (kind : α → κ) (l : List α) : Prop :=
  ∀ a ∈ l, ∀ b ∈ l, group a = group b → kind a = kind b

/-! ## Sorting -/

/-- A value put into a list, before the first that is not less. -/
def insertBy (lt : α → α → Except ε Bool) (a : α) : List α → Except ε (List α)
  | [] => .ok [a]
  | b :: l => do
    if ← lt b a then
      let l' ← insertBy lt a l
      .ok (b :: l')
    else .ok (a :: b :: l)

/-- A stable sort. -/
def sortBy (lt : α → α → Except ε Bool) : List α → Except ε (List α)
  | [] => .ok []
  | a :: l => do
    let l' ← sortBy lt l
    insertBy lt a l'

/-- What a comparison answers: the order of the keys, where the two are of one kind or of two groups,
and else nothing. The groups are ordered as the keys are. -/
structure Comparison [LinearOrder γ] [LinearOrder δ] (lt : α → α → Except ε Bool) (group : α → γ)
    (kind : α → κ) (key : α → δ) : Prop where
  ok {a b : α} : (group a = group b → kind a = kind b) → lt a b = .ok (decide (key a < key b))
  fails {a b : α} : group a = group b → kind a ≠ kind b → ∀ t, lt a b ≠ .ok t
  mono {a b : α} : group a < group b → key a < key b

namespace Comparison

variable [LinearOrder γ] [LinearOrder δ] {lt : α → α → Except ε Bool} {group : α → γ} {kind : α → κ}
  {key : α → δ}

theorem group_le (h : Comparison lt group kind key) {a b : α} (hle : key a ≤ key b) :
    group a ≤ group b :=
  not_lt.1 fun hlt => absurd (h.mono hlt) (not_lt.2 hle)

theorem alike_of_ok (h : Comparison lt group kind key) {a b : α} {t : Bool} (hok : lt a b = .ok t) :
    group a = group b → kind a = kind b := by
  intro hgroup
  by_contra hkind
  exact h.fails hgroup hkind t hok

theorem insertBy_ok (h : Comparison lt group kind key) (a : α) {l : List α}
    (hall : ∀ b ∈ l, group b = group a → kind b = kind a) : ∃ s, insertBy lt a l = .ok s := by
  induction l with
  | nil => exact ⟨[a], rfl⟩
  | cons b l ih =>
    obtain ⟨hb, hl⟩ := List.forall_mem_cons.1 hall
    obtain ⟨s, hs⟩ := ih hl
    rw [insertBy, h.ok hb, hs]
    by_cases hlt : key b < key a
    · exact ⟨b :: s, by simp only [hlt, decide_true]; rfl⟩
    · exact ⟨a :: b :: l, by simp only [hlt, decide_false]; rfl⟩

/-- What is put into a sorted list was comparable with all of it: those that it was not compared with
are of the group of one that it was, or of a later one. -/
theorem of_insertBy (h : Comparison lt group kind key) (a : α) {l s : List α}
    (hsorted : l.Pairwise fun b c => key b ≤ key c) (halike : Alike group kind l)
    (hs : insertBy lt a l = .ok s) :
    s.Perm (a :: l) ∧ s.Pairwise (fun b c => key b ≤ key c) ∧
      ∀ b ∈ l, group b = group a → kind b = kind a := by
  induction l generalizing s with
  | nil =>
    obtain rfl := Except.ok.inj hs
    exact ⟨List.Perm.refl _, List.pairwise_singleton _ _, fun b hb => absurd hb List.not_mem_nil⟩
  | cons b l ih =>
    obtain ⟨hhead, htail⟩ := List.pairwise_cons.1 hsorted
    rw [insertBy] at hs
    cases ht : lt b a with
    | error e =>
      rw [ht] at hs
      cases hs
    | ok t =>
      have hba := h.alike_of_ok ht
      rw [h.ok hba] at ht
      obtain rfl := Except.ok.inj ht
      rw [h.ok hba] at hs
      by_cases hlt : key b < key a
      · simp only [hlt, decide_true] at hs
        cases hl' : insertBy lt a l with
        | error e =>
          rw [hl'] at hs
          cases hs
        | ok l' =>
          rw [hl'] at hs
          obtain rfl := Except.ok.inj hs
          have hl : Alike group kind l := fun x hx y hy =>
            halike x (List.mem_cons_of_mem _ hx) y (List.mem_cons_of_mem _ hy)
          obtain ⟨hperm, hsorted', hall⟩ := ih htail hl hl'
          refine ⟨(hperm.cons b).trans (List.Perm.swap a b l), ?_, ?_⟩
          · refine List.pairwise_cons.2 ⟨fun c hc => ?_, hsorted'⟩
            rcases List.mem_cons.1 (hperm.subset hc) with rfl | hc
            · exact hlt.le
            · exact hhead c hc
          · exact List.forall_mem_cons.2 ⟨hba, hall⟩
      · simp only [hlt, decide_false] at hs
        obtain rfl := Except.ok.inj hs
        have hab : key a ≤ key b := not_lt.1 hlt
        refine ⟨List.Perm.refl _, ?_, ?_⟩
        · refine List.pairwise_cons.2 ⟨fun c hc => ?_, hsorted⟩
          rcases List.mem_cons.1 hc with rfl | hc
          · exact hab
          · exact hab.trans (hhead c hc)
        · intro c hc hgroup
          rcases List.mem_cons.1 hc with rfl | hc'
          · exact hba hgroup
          · have hge : group a ≤ group b := h.group_le hab
            have hle : group b ≤ group a := (h.group_le (hhead c hc')).trans hgroup.le
            have hsame : group b = group a := le_antisymm hle hge
            exact (halike c hc b List.mem_cons_self (hgroup.trans hsame.symm)).trans (hba hsame)

theorem of_sortBy (h : Comparison lt group kind key) {l s : List α} (hs : sortBy lt l = .ok s) :
    s.Perm l ∧ s.Pairwise (fun b c => key b ≤ key c) ∧ Alike group kind l := by
  induction l generalizing s with
  | nil =>
    obtain rfl := Except.ok.inj hs
    exact ⟨List.Perm.refl _, List.Pairwise.nil, fun a ha => absurd ha List.not_mem_nil⟩
  | cons a l ih =>
    rw [sortBy] at hs
    cases hl' : sortBy lt l with
    | error e =>
      rw [hl'] at hs
      cases hs
    | ok l' =>
      rw [hl'] at hs
      obtain ⟨hperm, hsorted, hl⟩ := ih hl'
      have halike : Alike group kind l' := fun x hx y hy =>
        hl x (hperm.subset hx) y (hperm.subset hy)
      obtain ⟨hperm', hsorted', hall⟩ := h.of_insertBy a hsorted halike hs
      refine ⟨hperm'.trans (hperm.cons a), hsorted', fun x hx y hy hgroup => ?_⟩
      have hnew : ∀ z ∈ l, group z = group a → kind z = kind a := fun z hz =>
        hall z (hperm.symm.subset hz)
      rcases List.mem_cons.1 hx with hxa | hx' <;> rcases List.mem_cons.1 hy with hya | hy'
      · rw [hxa, hya]
      · rw [hxa] at hgroup ⊢
        exact (hnew y hy' hgroup.symm).symm
      · rw [hya] at hgroup ⊢
        exact hnew x hx' hgroup
      · exact hl x hx' y hy' hgroup

theorem sortBy_ok (h : Comparison lt group kind key) {l : List α} (hall : Alike group kind l) :
    ∃ s, sortBy lt l = .ok s := by
  induction l with
  | nil => exact ⟨[], rfl⟩
  | cons a l ih =>
    obtain ⟨s, hs⟩ := ih fun x hx y hy =>
      hall x (List.mem_cons_of_mem _ hx) y (List.mem_cons_of_mem _ hy)
    obtain ⟨hperm, -, -⟩ := h.of_sortBy hs
    obtain ⟨s', hs'⟩ := h.insertBy_ok a (l := s) fun b hb =>
      hall b (List.mem_cons_of_mem _ (hperm.subset hb)) a List.mem_cons_self
    exact ⟨s', by rw [sortBy, hs]; exact hs'⟩

end Comparison

/-! ## The latest of each key -/

/-- The last of the latest values of its key. -/
def IsLatest [LinearOrder γ] (key : α → κ) (time : α → γ) (l : List α) (a : α) : Prop :=
  ∃ before after, l = before ++ a :: after ∧
    (∀ b ∈ before, key b = key a → time b ≤ time a) ∧ ∀ b ∈ after, key b = key a → time b < time a

section Latest

variable [LinearOrder γ] {key : α → κ} {time : α → γ} {l : List α} {a b x : α}

theorem IsLatest.mem (h : IsLatest key time l a) : a ∈ l := by
  obtain ⟨before, after, rfl, -, -⟩ := h
  exact List.mem_append_right _ List.mem_cons_self

theorem IsLatest.le (h : IsLatest key time l a) (hb : b ∈ l) (hkey : key b = key a) :
    time b ≤ time a := by
  obtain ⟨before, after, rfl, hbefore, hafter⟩ := h
  rcases List.mem_append.1 hb with hb | hb
  · exact hbefore b hb hkey
  · rcases List.mem_cons.1 hb with rfl | hb
    · exact le_refl _
    · exact (hafter b hb hkey).le

theorem isLatest_append : IsLatest key time (l ++ [x]) a ↔
    (a = x ∧ ∀ b ∈ l, key b = key x → time b ≤ time x) ∨
      (IsLatest key time l a ∧ (key x = key a → time x < time a)) := by
  constructor
  · rintro ⟨before, after, hsplit, hbefore, hafter⟩
    rcases List.eq_nil_or_concat after with rfl | ⟨after, y, rfl⟩
    · obtain ⟨rfl, hx⟩ := List.append_inj' hsplit rfl
      obtain rfl : x = a := by simpa using hx
      exact Or.inl ⟨rfl, hbefore⟩
    · rw [List.concat_eq_append, ← List.cons_append, ← List.append_assoc] at hsplit
      obtain ⟨rfl, hx⟩ := List.append_inj' hsplit rfl
      obtain rfl : x = y := by simpa using hx
      rw [List.concat_eq_append] at hafter
      exact Or.inr ⟨⟨before, after, rfl, hbefore, fun b hb => hafter b (List.mem_append_left _ hb)⟩,
        hafter x (List.mem_append_right _ List.mem_cons_self)⟩
  · rintro (⟨rfl, hall⟩ | ⟨⟨before, after, rfl, hbefore, hafter⟩, hx⟩)
    · exact ⟨l, [], rfl, hall, fun b hb => absurd hb List.not_mem_nil⟩
    · refine ⟨before, after ++ [x], by simp, hbefore, fun b hb => ?_⟩
      rcases List.mem_append.1 hb with hb | hb
      · exact hafter b hb
      · rw [List.mem_singleton.1 hb]
        exact hx

variable (key time) in
/-- There is one for every key there is. -/
theorem exists_isLatest (hx : x ∈ l) : ∃ a, IsLatest key time l a ∧ key a = key x := by
  induction l using List.reverseRecOn generalizing x with
  | nil => exact absurd hx List.not_mem_nil
  | append_singleton l y ih =>
    by_cases hl : ∃ z ∈ l, key z = key x
    · obtain ⟨z, hz, hzx⟩ := hl
      obtain ⟨a, ha, haz⟩ := ih hz
      by_cases hy : key y = key a ∧ time a ≤ time y
      · refine ⟨y, isLatest_append.2 (Or.inl ⟨rfl, fun b hb hby => ?_⟩), ?_⟩
        · exact (ha.le hb (hby.trans hy.1)).trans hy.2
        · exact hy.1.trans (haz.trans hzx)
      · refine ⟨a, isLatest_append.2 (Or.inr ⟨ha, fun hya => ?_⟩), haz.trans hzx⟩
        exact not_le.1 fun hle => hy ⟨hya, hle⟩
    · have hxy : x = y := by
        rcases List.mem_append.1 hx with hxl | hxy
        · exact absurd ⟨x, hxl, rfl⟩ hl
        · exact List.mem_singleton.1 hxy
      rw [hxy] at hl ⊢
      exact ⟨y, isLatest_append.2 (Or.inl ⟨rfl, fun b hb hby => absurd ⟨b, hb, hby⟩ hl⟩), rfl⟩

theorem IsLatest.filter {p : α → Bool} (h : IsLatest key time l a) (hp : p a = true) :
    IsLatest key time (l.filter p) a := by
  obtain ⟨before, after, rfl, hbefore, hafter⟩ := h
  refine ⟨before.filter p, after.filter p, ?_, ?_, ?_⟩
  · rw [List.filter_append, List.filter_cons_of_pos hp]
  · exact fun b hb => hbefore b (List.mem_filter.1 hb).1
  · exact fun b hb => hafter b (List.mem_filter.1 hb).1

/-- There is one at most. -/
theorem IsLatest.unique (ha : IsLatest key time l a) (hb : IsLatest key time l b)
    (hkey : key a = key b) : a = b := by
  induction l using List.reverseRecOn with
  | nil => exact absurd ha.mem List.not_mem_nil
  | append_singleton l y ih =>
    rcases isLatest_append.1 ha with ⟨hay, hle⟩ | ⟨ha', hlt⟩ <;>
      rcases isLatest_append.1 hb with ⟨hby, hle'⟩ | ⟨hb', hlt'⟩
    · rw [hay, hby]
    · rw [hay] at hkey
      exact absurd (hle b hb'.mem hkey.symm) (not_le.2 (hlt' hkey))
    · rw [hby] at hkey
      exact absurd (hle' a ha'.mem hkey) (not_le.2 (hlt hkey.symm))
    · exact ih ha' hb'

/-- What has been chosen of the values so far: one a key, the last of the latest. -/
structure Selected (key : α → κ) (time : α → γ) (l best : List α) : Prop where
  nodup : (best.map key).Nodup
  mem_iff (a : α) : a ∈ best ↔ IsLatest key time l a

theorem Selected.put_new {l best : List α} (h : Selected key time l best) {x : α}
    (hnew : ∀ b ∈ best, key b ≠ key x) : Selected key time (l ++ [x]) (best ++ [x]) := by
  have hl : ∀ z ∈ l, key z ≠ key x := by
    intro z hz hzx
    obtain ⟨a, ha, haz⟩ := exists_isLatest key time hz
    exact hnew a ((h.mem_iff a).2 ha) (haz.trans hzx)
  refine ⟨?_, fun a => ?_⟩
  · rw [List.map_append, List.nodup_append]
    refine ⟨h.nodup, by simp, fun k hk k' hk' => ?_⟩
    obtain ⟨b, hb, rfl⟩ := List.mem_map.1 hk
    rw [List.map_singleton, List.mem_singleton] at hk'
    rw [hk']
    exact hnew b hb
  · rw [isLatest_append, List.mem_append, List.mem_singleton, h.mem_iff]
    constructor
    · rintro (ha | rfl)
      · exact Or.inr ⟨ha, fun hx => absurd hx.symm (hl a ha.mem)⟩
      · exact Or.inl ⟨rfl, fun b hb hbx => absurd hbx (hl b hb)⟩
    · rintro (⟨hax, -⟩ | ⟨ha, -⟩)
      · exact Or.inr hax
      · exact Or.inl ha

theorem Selected.ne_of_mem_before {l before after : List α} {y b : α}
    (h : Selected key time l (before ++ y :: after)) (hb : b ∈ before) : key b ≠ key y := by
  intro hby
  have hnodup := h.nodup
  rw [List.map_append, List.map_cons, List.nodup_middle, List.nodup_cons] at hnodup
  exact hnodup.1 (hby ▸ List.mem_append_left _ (List.mem_map_of_mem hb))

theorem Selected.put_over {l before after : List α} {x y : α}
    (h : Selected key time l (before ++ y :: after)) (hy : key y = key x) (hle : time y ≤ time x) :
    Selected key time (l ++ [x]) (before ++ x :: after) := by
  have hlatest : IsLatest key time l y := (h.mem_iff y).1 (by simp)
  have hnodup := h.nodup
  rw [List.map_append, List.map_cons, hy] at hnodup
  have hne : ∀ a, a ∈ before ∨ a ∈ after → key a ≠ key x := by
    intro a ha hax
    rw [List.nodup_middle, List.nodup_cons] at hnodup
    refine hnodup.1 (hax ▸ ?_)
    rw [← List.map_append]
    exact List.mem_map_of_mem (List.mem_append.2 ha)
  refine ⟨by rwa [List.map_append, List.map_cons], fun a => ?_⟩
  rw [isLatest_append]
  constructor
  · intro ha
    rcases List.mem_append.1 ha with ha | ha
    · exact Or.inr ⟨(h.mem_iff a).1 (List.mem_append_left _ ha),
        fun hx => absurd hx.symm (hne a (Or.inl ha))⟩
    · rcases List.mem_cons.1 ha with hax | ha
      · exact Or.inl ⟨hax, fun b hb hbx => (hlatest.le hb (hbx.trans hy.symm)).trans hle⟩
      · exact Or.inr ⟨(h.mem_iff a).1 (List.mem_append_right _ (List.mem_cons_of_mem _ ha)),
          fun hx => absurd hx.symm (hne a (Or.inr ha))⟩
  · rintro (⟨rfl, -⟩ | ⟨ha, hlt⟩)
    · simp
    · have hmem := (h.mem_iff a).2 ha
      rcases List.mem_append.1 hmem with hb | hb
      · exact List.mem_append_left _ hb
      · rcases List.mem_cons.1 hb with hay | hb
        · rw [hay] at hlt
          exact absurd (hlt hy.symm) (not_lt.2 hle)
        · exact List.mem_append_right _ (List.mem_cons_of_mem _ hb)

theorem Selected.put_under {l best : List α} (h : Selected key time l best) {x y : α} (hmem : y ∈ best)
    (hy : key y = key x) (hlt : time x < time y) : Selected key time (l ++ [x]) best := by
  have hlatest : IsLatest key time l y := (h.mem_iff y).1 hmem
  refine ⟨h.nodup, fun a => ?_⟩
  rw [isLatest_append, h.mem_iff]
  constructor
  · intro ha
    refine Or.inr ⟨ha, fun hx => ?_⟩
    rwa [ha.unique hlatest (hx.symm.trans hy.symm)]
  · rintro (⟨-, hall⟩ | ⟨ha, -⟩)
    · exact absurd (hall y hlatest.mem hy) (not_le.2 hlt)
    · exact ha

end Latest

/-- A value put in the place of the one with its key, where it wins, or at the end. -/
def putBy [DecidableEq κ] (key : α → κ) (wins : α → α → Except ε Bool) (a : α) :
    List α → Except ε (List α)
  | [] => .ok [a]
  | b :: l =>
    if key b = key a then do
      if ← wins a b then .ok (a :: l) else .ok (b :: l)
    else do
      let l' ← putBy key wins a l
      .ok (b :: l')

/-- One value a key. -/
def bestBy [DecidableEq κ] (key : α → κ) (wins : α → α → Except ε Bool) (l : List α) :
    Except ε (List α) :=
  l.foldlM (fun best a => putBy key wins a best) []

section Best

variable [DecidableEq κ] {key : α → κ} {wins : α → α → Except ε Bool}

theorem bestBy_append (l : List α) (x : α) :
    bestBy key wins (l ++ [x]) = bestBy key wins l >>= putBy key wins x := by
  rw [bestBy, List.foldlM_append]
  simp only [List.foldlM_cons, List.foldlM_nil, bind_pure]
  rfl

theorem putBy_of_new {l : List α} {x : α} (h : ∀ b ∈ l, key b ≠ key x) :
    putBy key wins x l = .ok (l ++ [x]) := by
  induction l with
  | nil => rfl
  | cons b l ih =>
    obtain ⟨hb, hl⟩ := List.forall_mem_cons.1 h
    rw [putBy, if_neg hb, ih hl]
    rfl

theorem putBy_of_old {before after : List α} {x y : α} (h : ∀ b ∈ before, key b ≠ key x)
    (hy : key y = key x) :
    putBy key wins x (before ++ y :: after) =
      (wins x y).map fun t => before ++ (if t then x else y) :: after := by
  induction before with
  | nil =>
    rw [List.nil_append, putBy, if_pos hy]
    rcases wins x y with e | ⟨_ | _⟩ <;> rfl
  | cons b before ih =>
    obtain ⟨hb, hbefore⟩ := List.forall_mem_cons.1 h
    rw [List.cons_append, putBy, if_neg hb, ih hbefore]
    cases wins x y <;> rfl

variable [LinearOrder γ] {time : α → γ} {κ' : Type} {kind : α → κ'}

/-- One more value, where it is compared as it should be. -/
theorem Selected.put {l best : List α} (h : Selected key time l best) (x : α)
    (hover : ∀ b ∈ best, key b = key x → wins x b = .ok (decide (time b ≤ time x))) :
    ∃ best', putBy key wins x best = .ok best' ∧ Selected key time (l ++ [x]) best' := by
  by_cases hnew : ∀ b ∈ best, key b ≠ key x
  · exact ⟨_, putBy_of_new hnew, h.put_new hnew⟩
  · push Not at hnew
    obtain ⟨y, hmem, hy⟩ := hnew
    obtain ⟨before, after, rfl⟩ := List.append_of_mem hmem
    have hbefore : ∀ b ∈ before, key b ≠ key x := fun b hb hbx =>
      h.ne_of_mem_before hb (hbx.trans hy.symm)
    refine ⟨_, by rw [putBy_of_old hbefore hy, hover y hmem hy]; rfl, ?_⟩
    by_cases hle : time y ≤ time x
    · simp only [hle, decide_true, if_true]
      exact h.put_over hy hle
    · simp only [hle, decide_false, Bool.false_eq_true, if_false]
      exact h.put_under hmem hy (not_le.1 hle)

section

variable (hok : ∀ a b, kind a = kind b → wins a b = .ok (decide (time b ≤ time a)))

include hok in
theorem bestBy_ok {l : List α} (hall : Alike key kind l) :
    ∃ best, bestBy key wins l = .ok best ∧ Selected key time l best := by
  induction l using List.reverseRecOn with
  | nil =>
    refine ⟨[], rfl, List.nodup_nil, fun a => ?_⟩
    exact iff_of_false List.not_mem_nil fun h => absurd h.mem List.not_mem_nil
  | append_singleton l x ih =>
    obtain ⟨best, hbest, hchosen⟩ := ih fun a ha b hb =>
      hall a (List.mem_append_left _ ha) b (List.mem_append_left _ hb)
    have hover : ∀ b ∈ best, key b = key x → wins x b = .ok (decide (time b ≤ time x)) := by
      intro b hb hbx
      have hbl := List.mem_append_left [x] ((hchosen.mem_iff b).1 hb).mem
      exact hok x b (hall b hbl x (List.mem_append_right _ List.mem_cons_self) hbx).symm
    obtain ⟨best', hput, hchosen'⟩ := hchosen.put x hover
    exact ⟨best', by rw [bestBy_append, hbest]; exact hput, hchosen'⟩

variable (time) in
include hok in
/-- Where a choice was made, all values of a key were comparable: with the one that was chosen by
then, and so with each other. -/
theorem of_bestBy (hfails : ∀ a b, kind a ≠ kind b → ∀ t, wins a b ≠ .ok t) {l best : List α}
    (hbest : bestBy key wins l = .ok best) : Alike key kind l := by
  induction l using List.reverseRecOn generalizing best with
  | nil => exact fun a ha => absurd ha List.not_mem_nil
  | append_singleton l x ih =>
    rw [bestBy_append] at hbest
    cases hl : bestBy key wins l with
    | error e =>
      rw [hl] at hbest
      cases hbest
    | ok best₀ =>
      rw [hl] at hbest
      have halike := ih hl
      obtain ⟨best₁, hbest₁, hchosen⟩ := bestBy_ok hok halike
      obtain rfl := Except.ok.inj (hl.symm.trans hbest₁)
      have hnew : ∀ z ∈ l, key z = key x → kind z = kind x := by
        intro z hz hzx
        obtain ⟨y, hy, hyz⟩ := exists_isLatest key time hz
        have hmem := (hchosen.mem_iff y).2 hy
        have hyx := hyz.trans hzx
        obtain ⟨before, after, rfl⟩ := List.append_of_mem hmem
        have hbefore : ∀ b ∈ before, key b ≠ key x := by
          intro b hb hbx
          exact hchosen.ne_of_mem_before hb (hbx.trans hyx.symm)
        have hover : ∃ t, wins x y = .ok t := by
          cases ht : wins x y with
          | ok t => exact ⟨t, rfl⟩
          | error e =>
            have hput : putBy key wins x (before ++ y :: after) = .ok best := hbest
            rw [putBy_of_old hbefore hyx, ht] at hput
            cases hput
        obtain ⟨t, ht⟩ := hover
        have hxy : kind x = kind y := by
          by_contra hne
          exact hfails x y hne t ht
        exact (halike z hz y hy.mem hyz.symm).trans hxy.symm
      intro a ha b hb hab
      rcases List.mem_append.1 ha with ha | ha <;> rcases List.mem_append.1 hb with hb | hb
      · exact halike a ha b hb hab
      · rw [List.mem_singleton.1 hb] at hab ⊢
        exact hnew a ha hab
      · rw [List.mem_singleton.1 ha] at hab ⊢
        exact (hnew b hb hab.symm).symm
      · rw [List.mem_singleton.1 ha, List.mem_singleton.1 hb]

end

end Best

/-! ## Which of two comes first -/

section

variable {l : List α} {a b : α}

theorem pair_or_pair (hab : a ≠ b) (ha : a ∈ l) (hb : b ∈ l) :
    [a, b].Sublist l ∨ [b, a].Sublist l := by
  induction l with
  | nil => exact absurd ha List.not_mem_nil
  | cons x l ih =>
    rcases List.mem_cons.1 ha with rfl | hal
    · have hbl := (List.mem_cons.1 hb).resolve_left hab.symm
      exact Or.inl ((List.singleton_sublist.2 hbl).cons_cons a)
    · rcases List.mem_cons.1 hb with rfl | hbl
      · exact Or.inr ((List.singleton_sublist.2 hal).cons_cons b)
      · exact (ih hal hbl).imp (List.Sublist.cons x) (List.Sublist.cons x)

theorem not_pair_of_pair (hl : l.Nodup) (hab : [a, b].Sublist l) : ¬[b, a].Sublist l := by
  induction l with
  | nil => exact absurd hab (by simp)
  | cons x l ih =>
    obtain ⟨hx, hl⟩ := List.nodup_cons.1 hl
    intro hba
    cases hab with
    | cons _ hab =>
      cases hba with
      | cons _ hba => exact ih hl hab hba
      | cons_cons _ _ => exact hx (hab.subset (by simp))
    | cons_cons _ hb =>
      cases hba with
      | cons _ hba => exact hx (hba.subset (by simp))
      | cons_cons _ _ => exact hx (hb.subset (by simp))

end

/-! ## Comparisons that always answer -/

/-- `sort_by`. -/
def sortWith (cmp : α → α → Ordering) (l : List α) : List α := l.mergeSort fun a b => (cmp a b).isLE

/-- A comparison of what is read off values. -/
theorem transCmp_of {β : Type} {cmp : β → β → Ordering} [Std.TransCmp cmp] (f : α → β) :
    Std.TransCmp fun a b => cmp (f a) (f b) where
  eq_swap := Std.OrientedCmp.eq_swap
  isLE_trans {a b c} hab hbc := @Std.TransCmp.isLE_trans β cmp _ (f a) (f b) (f c) hab hbc

section

variable {cmp : α → α → Ordering} {l l' : List α}

theorem perm_sortWith : (sortWith cmp l).Perm l := List.mergeSort_perm _ _

theorem mem_sortWith {a : α} : a ∈ sortWith cmp l ↔ a ∈ l := List.mem_mergeSort

variable [Std.TransCmp cmp]

theorem isLE_or_isLE (a b : α) : ((cmp a b).isLE || (cmp b a).isLE) = true := by
  rw [@Std.OrientedCmp.eq_swap α cmp _ b a]
  cases cmp a b <;> rfl

theorem pairwise_sortWith : (sortWith cmp l).Pairwise fun a b => (cmp a b).isLE = true :=
  List.pairwise_mergeSort (fun a b c => @Std.TransCmp.isLE_trans α cmp _ a b c) isLE_or_isLE l

/-- A list is the sort of another where it is that list in another order, and sorted so that no two
neighbours could change places. -/
theorem sortWith_eq (hperm : l'.Perm l)
    (hl' : l'.Pairwise fun a b => (cmp a b).isLE = true)
    (heq : ∀ a ∈ l, ∀ b ∈ l, cmp a b = .eq → a = b) : sortWith cmp l = l' := by
  refine List.Perm.eq_of_pairwise ?_ pairwise_sortWith hl' (perm_sortWith.trans hperm.symm)
  intro a b ha hb hab hba
  refine heq a (mem_sortWith.1 ha) b (hperm.subset hb) ?_
  exact Std.OrientedCmp.isLE_antisymm hab hba

theorem pair_sortWith {a b : α} (hab : (cmp a b).isLE = true) (h : [a, b].Sublist l) :
    [a, b].Sublist (sortWith cmp l) :=
  List.pair_sublist_mergeSort (fun a b c => @Std.TransCmp.isLE_trans α cmp _ a b c) isLE_or_isLE hab h

theorem pair_of_sortWith {a b : α} (hl : l.Nodup) (heq : cmp a b = .eq)
    (h : [a, b].Sublist (sortWith cmp l)) : [a, b].Sublist l := by
  have hsorted : (sortWith cmp l).Nodup := perm_sortWith.nodup_iff.2 hl
  have hab : a ≠ b := by
    rintro rfl
    exact not_pair_of_pair hsorted h h
  have ha : a ∈ l := mem_sortWith.1 (h.subset (by simp))
  have hb : b ∈ l := mem_sortWith.1 (h.subset (by simp))
  refine (pair_or_pair hab ha hb).resolve_right fun hba => ?_
  have hle : (cmp b a).isLE = true := by
    rw [@Std.OrientedCmp.eq_swap α cmp _ b a, heq]
    rfl
  exact not_pair_of_pair hsorted h (pair_sortWith hle hba)

theorem sortWith_perm (hperm : l.Perm l') (heq : ∀ a ∈ l, ∀ b ∈ l, cmp a b = .eq → a = b) :
    sortWith cmp l = sortWith cmp l' :=
  sortWith_eq (perm_sortWith.trans hperm.symm) pairwise_sortWith heq

end

end Aurade
