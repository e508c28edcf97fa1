import Aurade.Stores.Tags

/-!
# The tag index over time

Runs of `set`, `all` and `reconcile` with other programs changing the files in between. `Kept` says
of one step that the index is well formed after it and that the step has done what it says: a tagged
path is listed under exactly its tags, and a reconciled index says of every file what its attribute
says, so that doing it again changes nothing.

`kept_of_met` has every run whose calls of `reconcile` read the index and find no attribute with a
tag in it twice. `reconcile` counts the tags of an attribute, and enters a path once for each, so a
repeated tag is never settled (`reconcile_repeated`).
-/

namespace Aurade.Stores

open Fs

/-! ## What `reconcile` makes of an index -/

namespace Index

variable {index : Index} {f : Files} {key tag : Text}

theorem mem_tagsOf : tag ∈ index.tagsOf key ↔ key ∈ index.listed tag := by
  rw [tagsOf, List.mem_map, listed_eq]
  constructor
  · intro h
    obtain ⟨⟨t, paths⟩, he, rfl⟩ := h
    obtain ⟨hmem, hkey⟩ := List.mem_filter.1 he
    rw [Std.ExtTreeMap.mem_toList_iff_getElem?_eq_some.1 hmem]
    exact of_decide_eq_true hkey
  · intro h
    cases hget : index[tag]? with
    | none =>
      rw [hget] at h
      cases h
    | some paths =>
      rw [hget] at h
      exact ⟨(tag, paths), List.mem_filter.2
        ⟨Std.ExtTreeMap.mem_toList_iff_getElem?_eq_some.2 hget, decide_eq_true h⟩, rfl⟩

theorem nodup_tagsOf (index : Index) (key : Text) : (index.tagsOf key).Nodup := by
  have hkeys : index.toList.Pairwise fun a b => ¬ compare a.1 b.1 = .eq :=
    index.distinct_keys_toList
  rw [tagsOf, List.nodup_iff_pairwise_ne, List.pairwise_map]
  apply (hkeys.sublist List.filter_sublist).imp
  intro a b hab he
  exact hab (by rw [he]; exact Std.ReflCmp.compare_self)

theorem paths_eq (index : Index) : index.paths =
    ((index.toList.flatMap Prod.snd).mergeSort fun a b => (compare a b).isLE).dedup := by
  have htotal : ∀ a b : Text, ((compare a b).isLE || (compare b a).isLE) = true := by
    intro a b
    have hswap : compare b a = (compare a b).swap := Std.OrientedCmp.eq_swap
    rw [hswap]
    cases compare a b <;> decide
  have htrans : ∀ a b c : Text, (compare a b).isLE → (compare b c).isLE → (compare a c).isLE :=
    fun _ _ _ hab hbc => Std.TransCmp.isLE_trans hab hbc
  have hsorted : ((index.toList.flatMap Prod.snd).mergeSort fun a b => (compare a b).isLE).Pairwise
      fun a b => (compare a b).isLE = true :=
    List.pairwise_mergeSort htrans htotal _
  have : Std.Antisymm fun a b : Text => (compare a b).isLE = true := ⟨fun a b hab hba =>
    Std.LawfulEqCmp.eq_of_compare (Std.OrientedCmp.isLE_antisymm hab hba)⟩
  exact hsorted.destutter_eq_dedup

theorem nodup_paths (index : Index) : index.paths.Nodup := by
  rw [paths_eq]
  exact List.nodup_dedup _

theorem mem_paths : key ∈ index.paths ↔ ∃ tag, key ∈ index.listed tag := by
  rw [paths_eq, List.mem_dedup, List.mem_mergeSort, List.mem_flatMap]
  constructor
  · intro h
    obtain ⟨⟨t, paths⟩, hmem, hkey⟩ := h
    refine ⟨t, ?_⟩
    rw [listed_eq, Std.ExtTreeMap.mem_toList_iff_getElem?_eq_some.1 hmem]
    exact hkey
  · intro h
    obtain ⟨t, ht⟩ := h
    obtain ⟨e, he, -⟩ := List.mem_map.1 (mem_tagsOf.2 ht)
    obtain ⟨hmem, hkey⟩ := List.mem_filter.1 he
    exact ⟨e, hmem, of_decide_eq_true hkey⟩

theorem wellFormed_iff : index.WellFormed ↔
    (∀ tag : Text, index[tag]? ≠ some []) ∧ ∀ tag, (index.listed tag).Nodup := by
  constructor
  · intro h
    exact ⟨fun tag hget => (h tag [] hget).1 rfl, h.nodup⟩
  · intro h tag paths hget
    have hnodup := h.2 tag
    rw [listed_eq, hget] at hnodup
    exact ⟨fun hnil => h.1 tag (hnil ▸ hget), hnodup⟩

theorem wellFormed_iff_toList : index.WellFormed ↔ ∀ e ∈ index.toList, e.2 ≠ [] ∧ e.2.Nodup := by
  constructor
  · intro h e he
    exact h e.1 e.2 (Std.ExtTreeMap.mem_toList_iff_getElem?_eq_some.1 he)
  · intro h tag paths hget
    exact h (tag, paths) (Std.ExtTreeMap.mem_toList_iff_getElem?_eq_some.2 hget)

instance : DecidablePred Index.WellFormed := fun _ => decidable_of_iff' _ wellFormed_iff_toList

/-- A path entered once for each tag of a list. -/
theorem foldl_push (key : Text) (tags : List Text) (i : Index) (h : ∀ tag : Text, i[tag]? ≠ some []) :
    (∀ tag, Index.listed (tags.foldl (fun i tag =>
        i.alter tag fun paths => some (paths.getD [] ++ [key])) i) tag =
      i.listed tag ++ List.replicate (tags.count tag) key) ∧
    ∀ tag : Text, (tags.foldl (fun i tag =>
      i.alter tag fun paths => some (paths.getD [] ++ [key])) i)[tag]? ≠ some [] := by
  induction tags generalizing i with
  | nil => exact ⟨fun tag => by simp, h⟩
  | cons t tags ih =>
    have hget : ∀ tag : Text, (i.alter t fun paths => some (paths.getD [] ++ [key]))[tag]? =
        if t = tag then some (i.listed tag ++ [key]) else i[tag]? := by
      intro tag
      rw [Std.ExtTreeMap.getElem?_alter]
      by_cases ht : t = tag
      · subst ht
        simp [listed_eq]
      · simp [ht]
    obtain ⟨hlisted, hfull⟩ := ih (i.alter t fun paths => some (paths.getD [] ++ [key]))
      (fun tag => by
        rw [hget]
        split
        · simp
        · exact h tag)
    refine ⟨fun tag => ?_, hfull⟩
    rw [List.foldl_cons, hlisted, listed_eq, hget, List.count_cons]
    by_cases ht : t = tag
    · subst ht
      simp [List.replicate_succ]
    · rw [if_neg ht, ← listed_eq, beq_eq_false_iff_ne.2 ht]
      simp

/-- What `reconcile` finds nothing to change in: a file that is there, with as many tags as it is
listed under, each of them one of those. -/
def Fresh (index : Index) (f : Files) (key : Text) : Prop :=
  f.has key = true ∧ (index.tagsOf key).length = (f.tags key).length ∧
    ∀ tag ∈ f.tags key, key ∈ index.listed tag

end Index

section

variable (index : Index) (f : Files) {acc : Index × ℕ}

/-- **One path looked at**: it is entered under what its attribute says, and counted where that is
news. -/
theorem reconcileStep_spec (key : Text) (h : ∀ tag : Text, acc.1[tag]? ≠ some []) :
    (∀ tag, (reconcileStep index f acc key).1.listed tag = acc.1.listed tag ++
      if f.has key then List.replicate ((f.tags key).count tag) key else []) ∧
    (∀ tag : Text, (reconcileStep index f acc key).1[tag]? ≠ some []) ∧
    acc.2 ≤ (reconcileStep index f acc key).2 ∧
    ((reconcileStep index f acc key).2 = acc.2 ↔ index.Fresh f key) := by
  unfold reconcileStep
  by_cases hhas : f.has key = true
  · obtain ⟨hlisted, hfull⟩ := Index.foldl_push key (f.tags key) acc.1 h
    have hfresh : index.Fresh f key ↔ ¬ ((index.tagsOf key).length ≠ (f.tags key).length ∨
        ¬ (f.tags key).all (· ∈ index.tagsOf key)) := by
      simp [Index.Fresh, hhas, Index.mem_tagsOf]
    simp only [hhas, if_true]
    refine ⟨hlisted, hfull, ?_, ?_⟩
    · split <;> omega
    · rw [hfresh]
      split
      · next hnews => exact iff_of_false (Nat.succ_ne_self _) (not_not_intro hnews)
      · next hnews => exact iff_of_true rfl hnews
  · simp only [hhas, Bool.false_eq_true, if_false]
    refine ⟨fun tag => (List.append_nil _).symm, h, Nat.le_succ _, ?_⟩
    exact iff_of_false (Nat.succ_ne_self _) fun hfresh => hhas hfresh.1

/-- The paths of an index looked at in turn. -/
theorem foldl_reconcileStep (keys : List Text) (acc : Index × ℕ) (h : ∀ tag : Text, acc.1[tag]? ≠ some []) :
    (∀ tag, (keys.foldl (reconcileStep index f) acc).1.listed tag = acc.1.listed tag ++
      (keys.filter f.has).flatMap fun p => List.replicate ((f.tags p).count tag) p) ∧
    (∀ tag : Text, (keys.foldl (reconcileStep index f) acc).1[tag]? ≠ some []) ∧
    acc.2 ≤ (keys.foldl (reconcileStep index f) acc).2 ∧
    ((keys.foldl (reconcileStep index f) acc).2 = acc.2 ↔ ∀ p ∈ keys, index.Fresh f p) := by
  induction keys generalizing acc with
  | nil => exact ⟨fun tag => by simp, h, le_refl _, by simp⟩
  | cons key keys ih =>
    obtain ⟨hlisted₁, hfull₁, hle₁, hcount₁⟩ := reconcileStep_spec index f key h
    obtain ⟨hlisted, hfull, hle, hcount⟩ := ih _ hfull₁
    rw [List.foldl_cons]
    refine ⟨fun tag => ?_, hfull, le_trans hle₁ hle, ?_⟩
    · rw [hlisted, hlisted₁, List.append_assoc, List.filter_cons]
      by_cases hhas : f.has key = true
      · simp [hhas]
      · simp [hhas]
    · rw [List.forall_mem_cons, ← hcount₁, ← hcount]
      omega

end

/-- The index as `reconcile` rebuilds it. -/
def Index.rebuilt (index : Index) (f : Files) : Index :=
  (index.paths.foldl (reconcileStep index f) (∅, 0)).1

/-- How many of its entries `reconcile` finds changed. -/
def Index.changes (index : Index) (f : Files) : ℕ :=
  (index.paths.foldl (reconcileStep index f) (∅, 0)).2

/-- The index after `reconcile` lists the files the index before had, each under what its attribute
says. -/
def Reconciled (before after : Index) (f : Files) : Prop :=
  ∀ key tag, key ∈ after.listed tag ↔ key ∈ before.paths ∧ f.has key = true ∧ tag ∈ f.tags key

/-- No attribute of an indexed file has a tag in it twice. -/
def Unrepeated (index : Index) (f : Files) : Prop :=
  ∀ key ∈ index.paths, f.has key = true → (f.tags key).Nodup

instance (index : Index) (f : Files) : Decidable (Unrepeated index f) :=
  inferInstanceAs (Decidable (∀ key ∈ index.paths, f.has key = true → (f.tags key).Nodup))

namespace Index

variable {index : Index} {f : Files} {key tag : Text}

theorem listed_rebuilt (index : Index) (f : Files) (tag : Text) :
    (index.rebuilt f).listed tag = (index.paths.filter f.has).flatMap fun p =>
      List.replicate ((f.tags p).count tag) p := by
  obtain ⟨hlisted, -⟩ := foldl_reconcileStep index f index.paths (∅, 0) (by simp)
  rw [rebuilt, hlisted, listed_eq]
  simp

theorem changes_eq_zero : index.changes f = 0 ↔ ∀ key ∈ index.paths, index.Fresh f key :=
  (foldl_reconcileStep index f index.paths (∅, 0) (by simp)).2.2.2

/-- What is rebuilt says what the attributes say. -/
theorem reconciled_rebuilt (index : Index) (f : Files) :
    Reconciled index (index.rebuilt f) f := by
  intro key tag
  rw [listed_rebuilt, List.mem_flatMap]
  constructor
  · intro h
    obtain ⟨p, hp, hkey⟩ := h
    obtain ⟨hcount, rfl⟩ := List.mem_replicate.1 hkey
    obtain ⟨hpath, hhas⟩ := List.mem_filter.1 hp
    exact ⟨hpath, hhas, List.count_pos_iff.1 (Nat.pos_of_ne_zero hcount)⟩
  · intro h
    obtain ⟨hpath, hhas, htag⟩ := h
    exact ⟨key, List.mem_filter.2 ⟨hpath, hhas⟩, List.mem_replicate.2
      ⟨(List.count_pos_iff.2 htag).ne', rfl⟩⟩

/-- With no tag repeated each path is entered once. -/
theorem wellFormed_rebuilt (h : Unrepeated index f) : (index.rebuilt f).WellFormed := by
  rw [wellFormed_iff]
  refine ⟨(foldl_reconcileStep index f index.paths (∅, 0) (by simp)).2.1, fun tag => ?_⟩
  rw [listed_rebuilt, List.nodup_flatMap]
  constructor
  · intro p hp
    obtain ⟨hpath, hhas⟩ := List.mem_filter.1 hp
    rw [List.nodup_replicate]
    exact List.nodup_iff_count_le_one.1 (h p hpath hhas) tag
  · apply ((nodup_paths index).filter _).imp
    intro p q hpq
    rw [Function.onFun, List.disjoint_left]
    intro key hkey hkey'
    exact hpq ((List.eq_of_mem_replicate hkey).symm.trans (List.eq_of_mem_replicate hkey'))

/-- A path with nothing to change is listed as its attribute says. -/
theorem Fresh.mem_listed_iff (h : index.Fresh f key) (hnodup : (f.tags key).Nodup) :
    key ∈ index.listed tag ↔ tag ∈ f.tags key := by
  obtain ⟨-, hlength, hall⟩ := h
  have hsub : f.tags key ⊆ index.tagsOf key := fun t ht => mem_tagsOf.2 (hall t ht)
  have hperm : (f.tags key).Perm (index.tagsOf key) :=
    (hnodup.subperm hsub).perm_of_length_le hlength.le
  rw [← mem_tagsOf, hperm.mem_iff]

/-- An index with nothing to change says what the attributes say. -/
theorem reconciled_of_changes (hnodup : Unrepeated index f) (h : index.changes f = 0) :
    Reconciled index index f := by
  intro key tag
  rw [changes_eq_zero] at h
  constructor
  · intro hkey
    have hpath : key ∈ index.paths := mem_paths.2 ⟨tag, hkey⟩
    have hhas := (h key hpath).1
    exact ⟨hpath, hhas, ((h key hpath).mem_listed_iff (hnodup key hpath hhas)).1 hkey⟩
  · intro hkey
    obtain ⟨hpath, hhas, htag⟩ := hkey
    exact ((h key hpath).mem_listed_iff (hnodup key hpath hhas)).2 htag

/-- An index that says what the attributes say has nothing to change. -/
theorem changes_of_reconciled {before : Index} (hnodup : Unrepeated before f)
    (h : Reconciled before index f) : index.changes f = 0 := by
  rw [changes_eq_zero]
  intro key hkey
  obtain ⟨tag, htag⟩ := mem_paths.1 hkey
  obtain ⟨hpath, hhas, -⟩ := (h key tag).1 htag
  have hsame : ∀ t, t ∈ index.tagsOf key ↔ t ∈ f.tags key := by
    intro t
    rw [mem_tagsOf, h key t]
    exact ⟨fun hk => hk.2.2, fun ht => ⟨hpath, hhas, ht⟩⟩
  have hperm := (List.perm_ext_iff_of_nodup (nodup_tagsOf index key) (hnodup key hpath hhas)).2 hsame
  exact ⟨hhas, hperm.length_eq, fun t ht => mem_tagsOf.1 ((hsame t).2 ht)⟩

end Index

/-! ## Runs -/

/-- One step of a run. -/
inductive TagCall
  | set (a : Answers) (path : Bytes) (tags : List Text)
  | all (a : Answers)
  | reconcile (a : Answers)
  /-- Other programs have changed the files and their attributes. -/
  | changed (files : Files)

section

variable (J : JsonLib) (place : Option Place)

/-- The disk after a step. -/
def TagCall.after (d : Disk) : TagCall → Disk
  | .set a path tags => (Stores.set J place a path tags d).2
  | .all a => (Stores.all J place a d).2
  | .reconcile a => (Stores.reconcile J place a d).2
  | .changed files => { d with files }

/-- The steps of a run, each with the disk it finds. -/
def steps : List TagCall → Disk → List (TagCall × Disk)
  | [], _ => []
  | call :: calls, d => (call, d) :: steps calls (call.after J place d)

/-- What a call that returns has done. -/
def TagCall.Done (d : Disk) : TagCall → Prop
  | .set a path tags =>
    ∀ stored d', Stores.set J place a path tags d = (.ok stored, d') →
      ∀ tag, Text.lossy path ∈ (indexOf J place d').listed tag ↔ tag ∈ clean tags
  | .all a => ∀ live d', Stores.all J place a d = (.ok live, d') → live.WellFormed
  | .reconcile a =>
    ∀ n d', Stores.reconcile J place a d = (.ok n, d') →
      Reconciled (indexOf J place d) (indexOf J place d') d'.files ∧
        ∀ a', Stores.reconcile J place a' d' = (.ok 0, d')
  | .changed _ => True

/-- A step after which the index is well formed, and which has done what it is for. -/
def TagCall.Kept (d : Disk) (call : TagCall) : Prop :=
  (indexOf J place (call.after J place d)).WellFormed ∧ call.Done J place d

/-- What a step finds: `reconcile` can read the index, and no attribute repeats a tag. -/
def TagCall.Met (d : Disk) : TagCall → Prop
  | .reconcile a => a.unreadable = false ∧ Unrepeated (indexOf J place d) d.files
  | _ => True

instance (call : TagCall) (d : Disk) : Decidable (call.Met J place d) :=
  match call with
  | .reconcile a =>
    inferInstanceAs (Decidable (a.unreadable = false ∧ Unrepeated (indexOf J place d) d.files))
  | .set _ _ _ | .all _ | .changed _ => inferInstanceAs (Decidable True)

end

section

variable {J : JsonLib} {place : Option Place} {a : Answers} {d : Disk}

theorem wellFormed_readIndex (h : (indexOf J place d).WellFormed) (a : Answers) :
    (readIndex J place a d).WellFormed := by
  rcases readIndex_cases J place a d with hread | hread
  · rwa [hread]
  · rw [hread]
    exact Index.wellFormed_empty

theorem kept_set (h : (indexOf J place d).WellFormed) (a : Answers) (path : Bytes)
    (tags : List Text) : (TagCall.set a path tags).Kept J place d := by
  rcases set_index J place a path tags d with ⟨stored, d', hset, hindex⟩ | ⟨e, d', hset, hindex⟩
  · constructor
    · show (indexOf J place (Stores.set J place a path tags d).2).WellFormed
      rw [hset, hindex]
      exact (wellFormed_readIndex h a).retag _ _
    · intro stored' d'' hset' tag
      rw [hset] at hset'
      obtain rfl := (Prod.mk.inj hset').2
      rw [hindex, Index.mem_listed_retag, if_pos rfl]
  · constructor
    · show (indexOf J place (Stores.set J place a path tags d).2).WellFormed
      rw [hset, indexOf_congr hindex]
      exact h
    · intro stored' d'' hset'
      rw [hset] at hset'
      cases hset'

/-- What `all` does: the live part of the index it reads is handed back, and perhaps written. -/
theorem all_cases (J : JsonLib) (place : Option Place) (a : Answers) (d : Disk) :
    ∃ d', Stores.all J place a d = (.ok ((readIndex J place a d).live d.files), d') ∧
      (d' = d ∨ indexOf J place d' = (readIndex J place a d).live d.files) := by
  unfold all
  rw [Act.bind_of_ok (show Act.get d = (.ok d, d) from rfl)]
  dsimp only
  split
  · rcases hwrite : writeIndex J place a ((readIndex J place a d).live d.files) d with ⟨r, d'⟩
    have hattempt : (Act.attempt (writeIndex J place a ((readIndex J place a d).live d.files)) :
        Act Disk Error (Except Error Unit)) d = (.ok r, d') := by
      rw [Act.attempt, hwrite]
    rw [Act.bind_of_ok hattempt]
    refine ⟨d', rfl, ?_⟩
    rcases writeIndex_cases J place a ((readIndex J place a d).live d.files) d
      with ⟨D, hD, -, hindex⟩ | ⟨e, hD⟩
    · obtain rfl := (Prod.mk.inj (hwrite.symm.trans hD)).2
      exact Or.inr hindex
    · exact Or.inl (Prod.mk.inj (hwrite.symm.trans hD)).2
  · exact ⟨d, rfl, Or.inl rfl⟩

theorem kept_all (h : (indexOf J place d).WellFormed) (a : Answers) :
    (TagCall.all a).Kept J place d := by
  have hlive : ((readIndex J place a d).live d.files).WellFormed :=
    (wellFormed_readIndex h a).filter _
  obtain ⟨d', hall, hd'⟩ := all_cases J place a d
  constructor
  · show (indexOf J place (Stores.all J place a d).2).WellFormed
    rw [hall]
    rcases hd' with rfl | hd'
    · exact h
    · rwa [hd']
  · intro live d'' hall'
    rw [hall] at hall'
    obtain rfl := Except.ok.inj (Prod.mk.inj hall').1
    exact hlive

/-- **What `reconcile` does**: it counts the changes of the index it reads, and where there are any
it writes the rebuilt one. -/
theorem reconcile_cases (J : JsonLib) (place : Option Place) (a : Answers) (d : Disk) :
    (readIndex J place a d).changes d.files = 0 ∧ reconcile J place a d = (.ok 0, d) ∨
      0 < (readIndex J place a d).changes d.files ∧
        ((∃ d', reconcile J place a d = (.ok ((readIndex J place a d).changes d.files), d') ∧
          d'.files = d.files ∧ indexOf J place d' = (readIndex J place a d).rebuilt d.files) ∨
          ∃ e, reconcile J place a d = (.error e, d)) := by
  have hrun : reconcile J place a d =
      (if 0 < (readIndex J place a d).changes d.files then
        writeIndex J place a ((readIndex J place a d).rebuilt d.files) >>= fun _ =>
          pure ((readIndex J place a d).changes d.files)
      else pure ((readIndex J place a d).changes d.files)) d := rfl
  rw [hrun]
  rcases Nat.eq_zero_or_pos ((readIndex J place a d).changes d.files) with hzero | hpos
  · rw [if_neg (by omega), hzero]
    exact Or.inl ⟨rfl, rfl⟩
  · rw [if_pos hpos]
    refine Or.inr ⟨hpos, ?_⟩
    rcases writeIndex_cases J place a ((readIndex J place a d).rebuilt d.files) d
      with ⟨d', hwrite, hfiles, hindex⟩ | ⟨e, hwrite⟩
    · rw [Act.bind_of_ok hwrite]
      exact Or.inl ⟨d', rfl, hfiles, hindex⟩
    · rw [Act.bind_of_error hwrite]
      exact Or.inr ⟨e, rfl⟩

/-- A second call has nothing to do. -/
theorem reconcile_again (h : (indexOf J place d).changes d.files = 0) (a : Answers) :
    reconcile J place a d = (.ok 0, d) := by
  have hchanges : (readIndex J place a d).changes d.files = 0 := by
    rcases readIndex_cases J place a d with hread | hread
    · rwa [hread]
    · rw [hread, Index.changes_eq_zero]
      intro key hkey
      obtain ⟨tag, htag⟩ := Index.mem_paths.1 hkey
      simp [Index.listed_eq] at htag
  rcases reconcile_cases J place a d with ⟨-, hdone⟩ | ⟨hpos, -⟩
  · exact hdone
  · omega

/-- A file listed under another number of tags than its attribute has is a change. -/
theorem reconcile_ne_zero (key : Text) (hkey : key ∈ (indexOf J place d).paths)
    (hlength : ((indexOf J place d).tagsOf key).length ≠ (d.files.tags key).length)
    (hreadable : a.unreadable = false) : (reconcile J place a d).1 ≠ .ok 0 := by
  intro hok
  have hcases := reconcile_cases J place a d
  rw [readIndex_of_readable hreadable] at hcases
  rcases hcases with ⟨hzero, -⟩ | ⟨hpos, ⟨d', hdone, -⟩ | ⟨e, hdone⟩⟩
  · exact hlength (Index.changes_eq_zero.1 hzero key hkey).2.1
  · rw [hdone] at hok
    exact absurd (Except.ok.inj hok) hpos.ne'
  · rw [hdone] at hok
    cases hok

theorem kept_reconcile (h : (indexOf J place d).WellFormed) (a : Answers)
    (hmet : (TagCall.reconcile a).Met J place d) : (TagCall.reconcile a).Kept J place d := by
  obtain ⟨hreadable, hnodup⟩ := hmet
  have hcases := reconcile_cases J place a d
  rw [readIndex_of_readable hreadable] at hcases
  rcases hcases with ⟨hzero, hdone⟩ | ⟨-, ⟨d', hdone, hfiles, hindex⟩ | ⟨e, hdone⟩⟩
  · -- nothing has changed, and the index stays
    constructor
    · show (indexOf J place (Stores.reconcile J place a d).2).WellFormed
      rwa [hdone]
    · intro n d' hdone'
      rw [hdone] at hdone'
      obtain rfl := (Prod.mk.inj hdone').2
      exact ⟨Index.reconciled_of_changes hnodup hzero, reconcile_again hzero⟩
  · -- the rebuilt index is written
    have hreconciled : Reconciled (indexOf J place d) (indexOf J place d') d'.files := by
      rw [hindex, hfiles]
      exact Index.reconciled_rebuilt _ _
    constructor
    · show (indexOf J place (Stores.reconcile J place a d).2).WellFormed
      rw [hdone, hindex]
      exact Index.wellFormed_rebuilt hnodup
    · intro n' d'' hdone'
      rw [hdone] at hdone'
      obtain rfl := (Prod.mk.inj hdone').2
      rw [← hfiles] at hnodup
      exact ⟨hreconciled, reconcile_again (Index.changes_of_reconciled hnodup hreconciled)⟩
  · constructor
    · show (indexOf J place (Stores.reconcile J place a d).2).WellFormed
      rwa [hdone]
    · intro n d' hdone'
      rw [hdone] at hdone'
      cases hdone'

/-- What one step keeps. -/
theorem kept_step (h : (indexOf J place d).WellFormed) (call : TagCall)
    (hmet : call.Met J place d) : call.Kept J place d := by
  cases call with
  | set a path tags => exact kept_set h a path tags
  | all a => exact kept_all h a
  | reconcile a => exact kept_reconcile h a hmet
  | changed files => exact ⟨h, trivial⟩

/-- **The index over a run**: from a well-formed index, and where every call of `reconcile` can read
the index and finds no attribute with a tag in it twice, the index is well formed after each step
and each call that returns has done what it is for. -/
theorem kept_of_met {calls : List TagCall} (hd : (indexOf J place d).WellFormed)
    (hmet : ∀ s ∈ steps J place calls d, s.1.Met J place s.2) :
    ∀ s ∈ steps J place calls d, s.1.Kept J place s.2 := by
  induction calls generalizing d with
  | nil => exact fun s hs => absurd hs List.not_mem_nil
  | cons call calls ih =>
    obtain ⟨hcall, hrest⟩ := List.forall_mem_cons.1 hmet
    have hkept := kept_step hd call hcall
    exact List.forall_mem_cons.2 ⟨hkept, ih hkept.1 hrest⟩

end

/-! ## A repeated tag -/

/-- An index that lists one file under one tag, and the file with an attribute. -/
def oneTagged (tags : Bytes) : Disk where
  files := ⟨fun p => if p = text "/a" then some 0 else none, fun _ => .ok (some tags)⟩
  index := some (text "\x7b\"Work\":[\"/a\"]\x7d")

/-- The file is tagged, and then changed by another program. -/
def taggedAgain : List TagCall :=
  [.set {} (text "/a") [⟨text "Home", by decide⟩], .changed (oneTagged (text "Work, Home")).files]

/-- The index is reconciled after that. -/
theorem kept_taggedAgain :
    (TagCall.reconcile {}).Kept .standard (some ⟨[], [], []⟩)
      (taggedAgain.foldl (TagCall.after .standard (some ⟨[], [], []⟩)) (oneTagged (text "Work"))) := by
  have hrun : ∀ s ∈ steps .standard (some ⟨[], [], []⟩) (taggedAgain ++ [.reconcile {}])
      (oneTagged (text "Work")), s.1.Kept .standard (some ⟨[], [], []⟩) s.2 := by
    apply kept_of_met
    · decide
    · decide +kernel
  exact hrun (.reconcile {}, taggedAgain.foldl (TagCall.after .standard (some ⟨[], [], []⟩))
    (oneTagged (text "Work"))) (List.mem_of_getElem? (i := 2) rfl)

/-- **A tag that an attribute has twice is never settled**: `reconcile` lists the file twice under
it, and finds a change again when it comes back. -/
theorem reconcile_repeated :
    (indexOf .standard (some ⟨[], [], []⟩) (oneTagged (text "Work,Work"))).WellFormed ∧
      ∃ d, reconcile .standard (some ⟨[], [], []⟩) {} (oneTagged (text "Work,Work")) = (.ok 1, d) ∧
        ¬(indexOf .standard (some ⟨[], [], []⟩) d).WellFormed ∧
        (reconcile .standard (some ⟨[], [], []⟩) {} d).1 ≠ .ok 0 := by
  refine ⟨by decide, _, Prod.ext ?_ rfl, ?_, ?_⟩
  · decide +kernel
  · decide +kernel
  · apply reconcile_ne_zero ⟨text "/a", by decide⟩
    · exact Index.mem_paths.2 ⟨⟨text "Work", by decide⟩, by decide +kernel⟩
    · decide +kernel
    · rfl

end Aurade.Stores
