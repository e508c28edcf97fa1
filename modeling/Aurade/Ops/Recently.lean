import Aurade.Foundations.Compare
import Aurade.Foundations.Walk
import Aurade.Ops.Search

/-!
# The most recently modified files

`recently_modified` walks the files below a folder, those of a folder before those of the folders in it,
and sorts what it found: newest first, and files of one time by their names. The sort is stable, so two
files of one time and one name stay in the order of the walk, and that is the disk's.

`recentlyModified_iff` says when the answer does not depend on the disk: when of any two such files one
is in a folder above the other. It says of the ceiling too what it does not do: it counts the files that
are found, and not the entries that are looked at.
-/

namespace Aurade.Ops.Recently

open Fs Search

/-- One recently modified file. -/
structure Recent where
  path : PathBuf
  name : Bytes
  modified : ℤ
  size : ℕ
  deriving DecidableEq

/-- What there is below the folder, and the calls that fail. -/
structure Scene where
  tree : PathTree Name Info Info.isDir
  fails : Call → Option Errno := fun _ => none

/-- The walk so far: the files that count for the ceiling, the entries that were looked at, and what was
found. -/
structure Walked where
  seen : ℕ := 0
  examined : ℕ := 0
  found : List Recent := []

section

variable (s : Scene) (order : Path → List Name) (dir : PathBuf) (includeHidden : Bool) (maxEntries : ℕ)

/-- The loop of `collect_recent` over the names of a folder; with it, the folders for later, or nothing
where it stopped at the ceiling. -/
def collectNames (here : Path) : List Name → List Name → Walked → Walked × Option (List Name)
  | [], subdirs, w => (w, some subdirs)
  | n :: names, subdirs, w =>
    if maxEntries ≤ w.seen then (w, none)
    else
      let w := { w with examined := w.examined + 1 }
      let display := Utf8.lossy n.val
      if !includeHidden ∧ display.head? = some dot then collectNames here names subdirs w
      else
        match s.fails (.stat (here ++ [n])), s.tree.get (here ++ [n]) with
        | none, some info =>
          match info.type with
          | .directory => collectNames here names (subdirs ++ [n]) w
          | .regular =>
            let file := ⟨full dir (here ++ [n]), display, info.modified, info.size.toNat⟩
            collectNames here names subdirs { w with seen := w.seen + 1, found := w.found ++ [file] }
          | _ => collectNames here names subdirs w
        | _, _ => collectNames here names subdirs w

/-- `collect_recent`, so many levels down; `order` is what `read_dir` gives. -/
def collectRecent : ℕ → Path → Walked → Walked
  | 0, _, w => w
  | k + 1, here, w =>
    if s.fails (.list here) ≠ none then w
    else
      match collectNames s dir includeHidden maxEntries here (order here) [] w with
      | (w, none) => w
      | (w, some subdirs) =>
        subdirs.foldl (fun w n =>
          if maxEntries ≤ w.seen ∨ s.fails (.open (here ++ [n])) ≠ none then w
          else collectRecent k (here ++ [n]) w) w

/-- How deep the tree is. -/
def Scene.depth : ℕ := (s.tree.entries.map fun e => e.1.length).foldr max 0

/-- Newest first, and files of one time by name. -/
def recentCmp (a b : Recent) : Ordering :=
  (compare b.modified a.modified).then (List.compareLex compare a.name b.name)

/-- The whole walk, as deep as the tree is. -/
def collected : Walked := collectRecent s order dir includeHidden maxEntries s.depth [] {}

/-- `recently_modified`. -/
def recentlyModified (limit : ℕ) : Except Error (List Recent) :=
  match s.fails (.open []) with
  | some e => .error (.ofErrno [.path dir] e)
  | none =>
    .ok ((sortWith recentCmp (collected s order dir includeHidden maxEntries).found).take limit)

/-! ## What is found -/

/-- Whether an entry is looked at: it is not hidden, and `statat` answers. -/
def shows (p : Path) : Bool :=
  (includeHidden || (leafName p).head? ≠ some dot) && s.fails (.stat p) = none

/-- A regular file that is looked at. -/
def fileAt (p : Path) : Bool :=
  shows s includeHidden p && (s.tree.get p).any fun info => info.type = .regular

/-- A folder that is looked at. -/
def dirAt (p : Path) : Bool := shows s includeHidden p && (s.tree.get p).any Info.isDir

/-- A folder that is looked at, opened and read. -/
def folderAt (p : Path) : Bool :=
  dirAt s includeHidden p && s.fails (.open p) = none && s.fails (.list p) = none

/-- The record of a file. -/
def recentAt (p : Path) : Recent where
  path := full dir p
  name := leafName p
  modified := ((s.tree.get p).map Info.modified).getD 0
  size := ((s.tree.get p).map fun info => info.size.toNat).getD 0

/-- The files in the order of the walk. -/
def files (k : ℕ) (here : Path) : List Path := walk order (fileAt s includeHidden) (folderAt s includeHidden) k here

end

section

variable {s : Scene} {order : Path → List Name} {dir : PathBuf} {includeHidden : Bool} {maxEntries : ℕ}

/-- One turn of the loop: a file is found, a folder is for later, and anything else is passed over. -/
theorem collectNames_cons {here : Path} {n : Name} {names subdirs : List Name} {w : Walked}
    (hroom : w.seen < maxEntries) :
    collectNames s dir includeHidden maxEntries here (n :: names) subdirs w =
      collectNames s dir includeHidden maxEntries here names
        (if dirAt s includeHidden (here ++ [n]) then subdirs ++ [n] else subdirs)
        { seen := w.seen + if fileAt s includeHidden (here ++ [n]) then 1 else 0
          examined := w.examined + 1
          found := w.found ++ if fileAt s includeHidden (here ++ [n]) then [recentAt s dir (here ++ [n])]
            else [] } := by
  rw [collectNames, if_neg (not_le.2 hroom)]
  dsimp only
  by_cases hhidden : !includeHidden ∧ (Utf8.lossy n.val).head? = some dot
  · have hshows : shows s includeHidden (here ++ [n]) = false := by
      rw [shows, leafName_append]
      simp [hhidden.2, Bool.not_eq_true' _ ▸ hhidden.1]
    rw [if_pos hhidden]
    simp [fileAt, dirAt, hshows]
  · rw [if_neg hhidden]
    have hvisible : (includeHidden || (Utf8.lossy n.val).head? ≠ some dot) = true := by
      cases includeHidden <;> simp_all
    cases hstat : s.fails (.stat (here ++ [n])) with
    | some e => simp [fileAt, dirAt, shows, hstat]
    | none =>
      cases hget : s.tree.get (here ++ [n]) with
      | none => simp [fileAt, dirAt, hget]
      | some info =>
        have hshows : shows s includeHidden (here ++ [n]) = true := by
          rw [shows, leafName_append, hstat, hvisible]
          rfl
        cases htype : info.type <;>
          simp [fileAt, dirAt, hshows, hget, htype, Info.isDir, recentAt, leafName_append]

/-- The loop over the names, where the files among them do not reach the ceiling. -/
theorem collectNames_eq {here : Path} {names subdirs : List Name} {w : Walked}
    (hroom : w.seen + ((names.map fun n => here ++ [n]).filter (fileAt s includeHidden)).length <
      maxEntries) :
    collectNames s dir includeHidden maxEntries here names subdirs w =
      ({ seen := w.seen + ((names.map fun n => here ++ [n]).filter (fileAt s includeHidden)).length
         examined := w.examined + names.length
         found := w.found ++
          ((names.map fun n => here ++ [n]).filter (fileAt s includeHidden)).map (recentAt s dir) },
        some (subdirs ++ names.filter fun n => dirAt s includeHidden (here ++ [n]))) := by
  induction names generalizing subdirs w with
  | nil => simp [collectNames]
  | cons n names ih =>
    rw [collectNames_cons (by omega)]
    rw [List.map_cons, List.filter_cons] at hroom ⊢
    rw [List.filter_cons]
    by_cases hfile : fileAt s includeHidden (here ++ [n]) = true
    · rw [if_pos hfile, List.length_cons] at hroom
      rw [ih (by rw [if_pos hfile]; dsimp only; omega)]
      by_cases hdir : dirAt s includeHidden (here ++ [n]) = true <;>
        simp [hfile, hdir, Nat.add_assoc, Nat.add_comm 1]
    · rw [if_neg hfile] at hroom
      rw [ih (by rw [if_neg hfile]; exact hroom)]
      by_cases hdir : dirAt s includeHidden (here ++ [n]) = true <;>
        simp [hfile, hdir, Nat.add_assoc, Nat.add_comm 1]

variable (s dir) in
/-- What part of a walk adds: the files at some places. -/
structure Adds (w w' : Walked) (places : List Path) : Prop where
  seen : w'.seen = w.seen + places.length
  found : w'.found = w.found ++ places.map (recentAt s dir)

theorem Adds.refl (w : Walked) : Adds s dir w w [] := ⟨rfl, (List.append_nil _).symm⟩

theorem Adds.trans {w w' w'' : Walked} {ps qs : List Path} (h : Adds s dir w w' ps)
    (h' : Adds s dir w' w'' qs) : Adds s dir w w'' (ps ++ qs) where
  seen := by rw [h'.seen, h.seen, List.length_append, Nat.add_assoc]
  found := by rw [h'.found, h.found, List.map_append, List.append_assoc]

/-- The loop over the folders, each of which adds its files. -/
theorem adds_foldl {k : ℕ} {here : Path} {subdirs : List Name} {w : Walked}
    (hdirs : ∀ n ∈ subdirs, dirAt s includeHidden (here ++ [n]) = true)
    (ih : ∀ {p : Path} {w : Walked}, s.fails (.list p) = none →
      w.seen + (files s order includeHidden k p).length < maxEntries →
      Adds s dir w (collectRecent s order dir includeHidden maxEntries k p w)
        (files s order includeHidden k p))
    (hroom : w.seen + (((subdirs.map fun n => here ++ [n]).filter (folderAt s includeHidden)).flatMap
      (files s order includeHidden k)).length < maxEntries) :
    Adds s dir w
      (subdirs.foldl (fun w n =>
        if maxEntries ≤ w.seen ∨ s.fails (.open (here ++ [n])) ≠ none then w
        else collectRecent s order dir includeHidden maxEntries k (here ++ [n]) w) w)
      (((subdirs.map fun n => here ++ [n]).filter (folderAt s includeHidden)).flatMap
        (files s order includeHidden k)) := by
  induction subdirs generalizing w with
  | nil => exact Adds.refl w
  | cons n subdirs hrec =>
    obtain ⟨hdir, hdirs⟩ := List.forall_mem_cons.1 hdirs
    have hseen : ¬maxEntries ≤ w.seen := by omega
    rw [List.map_cons, List.filter_cons] at hroom ⊢
    rw [List.foldl_cons]
    by_cases hfolder : folderAt s includeHidden (here ++ [n]) = true
    · have hcalls : s.fails (.open (here ++ [n])) = none ∧ s.fails (.list (here ++ [n])) = none := by
        simpa [folderAt, hdir] using hfolder
      rw [if_pos hfolder, List.flatMap_cons] at hroom ⊢
      rw [List.length_append] at hroom
      have hgo : ¬(maxEntries ≤ w.seen ∨ s.fails (.open (here ++ [n])) ≠ none) := by
        rintro (h | h)
        · exact hseen h
        · exact h hcalls.1
      rw [if_neg hgo]
      have hadds := @ih (here ++ [n]) w hcalls.2 (by omega)
      exact hadds.trans (hrec hdirs (by rw [hadds.seen]; omega))
    · rw [if_neg hfolder] at hroom ⊢
      have hsame : (if maxEntries ≤ w.seen ∨ s.fails (.open (here ++ [n])) ≠ none then w
          else collectRecent s order dir includeHidden maxEntries k (here ++ [n]) w) = w := by
        split
        · rfl
        · next hgo =>
          rw [not_or, not_not] at hgo
          have hlist : s.fails (.list (here ++ [n])) ≠ none := fun hlist =>
            hfolder (by simp [folderAt, hdir, hgo.2, hlist])
          cases k with
          | zero => rfl
          | succ k => rw [collectRecent, if_pos hlist]
      rw [hsame]
      exact hrec hdirs hroom

/-- **The walk**, where its files do not reach the ceiling. -/
theorem adds_collectRecent {k : ℕ} {here : Path} {w : Walked} (hlist : s.fails (.list here) = none)
    (hroom : w.seen + (files s order includeHidden k here).length < maxEntries) :
    Adds s dir w (collectRecent s order dir includeHidden maxEntries k here w)
      (files s order includeHidden k here) := by
  induction k generalizing here w with
  | zero => exact Adds.refl w
  | succ k ih =>
    rw [files, walk, List.length_append] at hroom
    rw [collectRecent, if_neg (not_not.2 hlist), collectNames_eq (by omega), files, walk]
    have hfilter : ((order here).map fun n => here ++ [n]).filter (folderAt s includeHidden) =
        ((((order here).filter fun n => dirAt s includeHidden (here ++ [n])).map fun n =>
          here ++ [n]).filter (folderAt s includeHidden)) := by
      rw [List.filter_map, List.filter_map, List.filter_filter]
      congr 2
      funext n
      simp only [Function.comp, folderAt]
      cases dirAt s includeHidden (here ++ [n]) <;> simp
    rw [hfilter] at hroom ⊢
    dsimp only
    refine Adds.trans ?_ (adds_foldl ?_ ih ?_)
    · exact ⟨rfl, rfl⟩
    · exact fun n hn => (List.mem_filter.1 hn).2
    · dsimp only
      rw [Nat.add_assoc]
      exact hroom

/-! ## What should be found -/

variable (s includeHidden) in
/-- A regular file below the folder that is not hidden, and in no hidden folder; what a call fails for
is not there. -/
def Eligible (p : Path) : Prop :=
  s.fails (.list []) = none ∧
    Reached s.tree.names (fileAt s includeHidden) (folderAt s includeHidden) [] p

variable (s order) in
/-- What `read_dir` may give: the names of each folder, in some order. -/
def Reads : Prop := ∀ p, (s.tree.names p).Perm (order p)

theorem Reads.nodup (h : Reads s order) (p : Path) : (order p).Nodup :=
  (h p).nodup_iff.1 (s.tree.nodup_names p)

theorem reads_names : Reads s s.tree.names := fun _ => List.Perm.refl _

theorem isSome_of_reached {here x : Path}
    (h : Reached order (fileAt s includeHidden) (folderAt s includeHidden) here x) :
    ∃ info, s.tree.get (here ++ x) = some info ∧ info.type = .regular := by
  induction x generalizing here with
  | nil => exact absurd rfl h.ne_nil
  | cons a x ih =>
    by_cases hnil : x = []
    · obtain rfl := hnil
      have hfile := h.2
      rw [fileAt, Bool.and_eq_true, Option.any_eq_true] at hfile
      obtain ⟨info, hget, htype⟩ := hfile.2
      exact ⟨info, hget, of_decide_eq_true htype⟩
    · obtain ⟨-, -, hx⟩ := (reached_cons hnil).1 h
      obtain ⟨info, hget, htype⟩ := ih hx
      exact ⟨info, by rwa [List.append_assoc, List.singleton_append] at hget, htype⟩

theorem le_foldr_max {l : List ℕ} {n : ℕ} (h : n ∈ l) : n ≤ l.foldr max 0 := by
  induction l with
  | nil => exact absurd h List.not_mem_nil
  | cons m l ih =>
    rcases List.mem_cons.1 h with rfl | h
    · exact le_max_left _ _
    · exact (ih h).trans (le_max_right _ _)

theorem length_le_depth {p : Path} {info : Info} (h : s.tree.get p = some info) :
    p.length ≤ s.depth :=
  le_foldr_max (List.mem_map.2 ⟨_, (s.tree.get_eq_some_iff).1 h, rfl⟩)

/-- **The walk finds what it should**, in whatever order the disk gives the names. -/
theorem mem_files (h : Reads s order) {p : Path} :
    p ∈ files s order includeHidden s.depth [] ↔
      Reached s.tree.names (fileAt s includeHidden) (folderAt s includeHidden) [] p := by
  rw [reached_congr fun q a => (h q).mem_iff, files, ← List.nil_append p, mem_walk_append]
  refine ⟨And.right, fun hp => ⟨?_, hp⟩⟩
  obtain ⟨info, hget, -⟩ := isSome_of_reached hp
  exact length_le_depth hget

theorem nodup_files (h : Reads s order) {k : ℕ} {here : Path} :
    (files s order includeHidden k here).Nodup := nodup_walk h.nodup

variable (s) in
/-- The regular files of the tree. -/
def regularFiles : ℕ := s.tree.entries.countP fun e => e.2.type = .regular

theorem length_files_le (h : Reads s order) :
    (files s order includeHidden s.depth []).length ≤ regularFiles s := by
  have hsub : files s order includeHidden s.depth [] ⊆
      (s.tree.entries.filter fun e => e.2.type = .regular).map Prod.fst := by
    intro p hp
    obtain ⟨info, hget, htype⟩ := isSome_of_reached ((mem_files h).1 hp)
    have hmem := (s.tree.get_eq_some_iff).1 hget
    exact List.mem_map.2 ⟨_, List.mem_filter.2 ⟨hmem, by simpa using htype⟩, rfl⟩
  have hle := ((nodup_files h).subperm hsub).length_le
  rwa [List.length_map, ← List.countP_eq_length_filter] at hle

/-! ## The sorted walk -/

variable (s dir) in
/-- The comparison of two files, by their records. -/
def placeCmp (p q : Path) : Ordering := recentCmp (recentAt s dir p) (recentAt s dir q)

instance transCmp_recentCmp : Std.TransCmp recentCmp := by
  have hname : Std.TransCmp fun a b : Recent => List.compareLex compare a.name b.name :=
    transCmp_of Recent.name
  exact inferInstanceAs (Std.TransCmp (compareLex (fun a b => compareOn Recent.modified b a)
    fun a b => List.compareLex compare a.name b.name))

theorem transCmp_placeCmp : Std.TransCmp (placeCmp s dir) := transCmp_of (recentAt s dir)

/-- Two files of one time and one name. -/
theorem placeCmp_eq {p q : Path} : placeCmp s dir p q = .eq ↔
    (recentAt s dir p).modified = (recentAt s dir q).modified ∧ leafName p = leafName q := by
  rw [placeCmp, recentCmp, Ordering.then_eq_eq, Std.LawfulEqCmp.compare_eq_iff_eq,
    Std.LawfulEqCmp.compare_eq_iff_eq]
  exact and_congr_left fun _ => eq_comm

variable (s order dir includeHidden) in
/-- The files as they are sorted. -/
def sorted : List Path := sortWith (placeCmp s dir) (files s order includeHidden s.depth [])

theorem full_injective {p q : Path} (h : full dir p = full dir q) : p = q := by
  have hmap := List.append_cancel_left h
  refine List.map_injective_iff.2 (fun a b hab => ?_) hmap
  exact Subtype.ext (Component.normal.inj hab)

theorem recentAt_injective : Function.Injective (recentAt s dir) := fun _ _ h =>
  full_injective (congrArg Recent.path h)

/-- **What the function answers**, where the files do not reach the ceiling. -/
theorem recentlyModified_eq (h : Reads s order) (hopen : s.fails (.open []) = none)
    (hroom : regularFiles s < maxEntries) (limit : ℕ) :
    recentlyModified s order dir includeHidden maxEntries limit =
      .ok (((if s.fails (.list []) = none then sorted s order dir includeHidden else []).map
        (recentAt s dir)).take limit) := by
  have hfound : (collected s order dir includeHidden maxEntries).found =
      (if s.fails (.list []) = none then files s order includeHidden s.depth [] else []).map
        (recentAt s dir) := by
    split
    · next hlist =>
      have hle := @length_files_le s order includeHidden h
      exact (adds_collectRecent hlist (by rw [Nat.zero_add]; omega)).found
    · next hlist =>
      rw [collected]
      cases s.depth with
      | zero => rfl
      | succ k =>
        rw [collectRecent, if_pos hlist]
        rfl
  rw [recentlyModified, hopen]
  dsimp only
  rw [hfound]
  split
  · rw [sorted, sortWith, sortWith, List.map_mergeSort]
    exact fun p _ q _ => rfl
  · rw [List.map_nil, sortWith, List.mergeSort_nil]

/-! ## The law -/

variable (s dir includeHidden)

/-- All the files there should be, once each, with none before a newer one. -/
structure Newest (l : List Recent) : Prop where
  mem : ∀ r, r ∈ l ↔ ∃ p, Eligible s includeHidden p ∧ r = recentAt s dir p
  nodup : l.Nodup
  sorted : l.Pairwise fun a b => b.modified ≤ a.modified

/-- **What the function is to do**: of one list, newest first, it answers as much as was asked for,
whatever order the disk gives the names in. -/
def Steady (maxEntries : ℕ) : Prop :=
  ∃ l, Newest s dir includeHidden l ∧ ∀ order, Reads s order → ∀ limit,
    recentlyModified s order dir includeHidden maxEntries limit = .ok (l.take limit)

/-- **When it does**: of two files of one time and one name, one is in a folder above the other. -/
def Untied : Prop :=
  ∀ p q, Eligible s includeHidden p → Eligible s includeHidden q → p ≠ q →
    (recentAt s dir p).modified = (recentAt s dir q).modified → leafName p = leafName q →
    Above p q ∨ Above q p

variable {s dir includeHidden}

theorem mem_files_iff (h : Reads s order) (hlist : s.fails (.list []) = none) {p : Path} :
    p ∈ files s order includeHidden s.depth [] ↔ Eligible s includeHidden p := by
  rw [mem_files h, Eligible]
  exact (and_iff_right hlist).symm

/-- A file of a folder above comes first. -/
theorem pair_of_above (h : Reads s order) {p q : Path}
    (hp : p ∈ files s order includeHidden s.depth []) (hq : q ∈ files s order includeHidden s.depth [])
    (habove : Above p q) : [p, q].Sublist (files s order includeHidden s.depth []) :=
  (Precedes.of_above ((mem_files h).1 hp).ne_nil habove).sublist hp hq

/-- What the sorted files are ordered by: files that tie are in the order of their depth. -/
theorem pairwise_sorted (h : Reads s order) (hlist : s.fails (.list []) = none)
    (hties : Untied s dir includeHidden) :
    (sorted s order dir includeHidden).Pairwise fun p q =>
      (placeCmp s dir p q).isLE = true ∧ (placeCmp s dir p q = .eq → p.length < q.length) := by
  have htrans : Std.TransCmp (placeCmp s dir) := transCmp_placeCmp
  have hnodup := @nodup_files s order includeHidden h s.depth []
  rw [List.pairwise_iff_forall_sublist]
  intro p q hpq
  refine ⟨List.pairwise_iff_forall_sublist.1 pairwise_sortWith hpq, fun heq => ?_⟩
  have hfiles := pair_of_sortWith hnodup heq hpq
  have hp : p ∈ files s order includeHidden s.depth [] := hfiles.subset (by simp)
  have hq : q ∈ files s order includeHidden s.depth [] := hfiles.subset (by simp)
  have hne : p ≠ q := by
    rintro rfl
    exact not_pair_of_pair hnodup hfiles hfiles
  obtain ⟨hmodified, hname⟩ := placeCmp_eq.1 heq
  rcases hties p q ((mem_files_iff h hlist).1 hp) ((mem_files_iff h hlist).1 hq) hne hmodified hname with
    habove | habove
  · exact habove.2
  · exact absurd (pair_of_above h hq hp habove) (not_pair_of_pair hnodup hfiles)

theorem sorted_eq {order' : Path → List Name} (h : Reads s order) (h' : Reads s order')
    (hlist : s.fails (.list []) = none) (hties : Untied s dir includeHidden) :
    sorted s order dir includeHidden = sorted s order' dir includeHidden := by
  have hperm : (files s order includeHidden s.depth []).Perm (files s order' includeHidden s.depth []) :=
    perm_walk h.nodup fun p => (h p).symm.trans (h' p)
  refine List.Perm.eq_of_pairwise ?_ (pairwise_sorted h hlist hties) (pairwise_sorted h' hlist hties)
    (perm_sortWith.trans (hperm.trans perm_sortWith.symm))
  intro p q _ _ hpq hqp
  have htrans : Std.TransCmp (placeCmp s dir) := transCmp_placeCmp
  have heq := Std.OrientedCmp.isLE_antisymm hpq.1 hqp.1
  have heq' := Std.OrientedCmp.isLE_antisymm hqp.1 hpq.1
  exact absurd (hpq.2 heq) (Nat.lt_asymm (hqp.2 heq'))

theorem newest_sorted (h : Reads s order) (hlist : s.fails (.list []) = none) :
    Newest s dir includeHidden ((sorted s order dir includeHidden).map (recentAt s dir)) where
  mem r := by
    rw [List.mem_map]
    refine exists_congr fun p => ?_
    rw [sorted, mem_sortWith, mem_files_iff h hlist, eq_comm]
  nodup := (perm_sortWith.nodup_iff.2 (nodup_files h)).map recentAt_injective
  sorted := by
    have htrans : Std.TransCmp (placeCmp s dir) := transCmp_placeCmp
    rw [List.pairwise_map]
    refine pairwise_sortWith.imp fun {p q} hpq => ?_
    rw [placeCmp, recentCmp, Ordering.isLE_then_iff_and] at hpq
    exact Std.isLE_compare.1 hpq.1

theorem Untied.steady (hopen : s.fails (.open []) = none) (hroom : regularFiles s < maxEntries)
    (hties : Untied s dir includeHidden) : Steady s dir includeHidden maxEntries := by
  by_cases hlist : s.fails (.list []) = none
  · refine ⟨_, newest_sorted reads_names hlist, fun order h limit => ?_⟩
    rw [recentlyModified_eq h hopen hroom, if_pos hlist, sorted_eq h reads_names hlist hties]
  · refine ⟨[], ⟨fun r => ?_, List.nodup_nil, List.Pairwise.nil⟩, fun order h limit => ?_⟩
    · refine ⟨fun hr => absurd hr List.not_mem_nil, ?_⟩
      rintro ⟨p, hp, -⟩
      exact absurd hp.1 hlist
    · rw [recentlyModified_eq h hopen hroom, if_neg hlist, List.map_nil]

/-- A list that all orders answer from is the sorted one of each. -/
theorem eq_sorted {l : List Recent} (hopen : s.fails (.open []) = none)
    (hroom : regularFiles s < maxEntries) (hlist : s.fails (.list []) = none)
    (hl : ∀ order, Reads s order → ∀ limit,
      recentlyModified s order dir includeHidden maxEntries limit = .ok (l.take limit))
    (h : Reads s order) : (sorted s order dir includeHidden).map (recentAt s dir) = l := by
  have hall := hl order h
    (((sorted s order dir includeHidden).map (recentAt s dir)).length + l.length)
  rw [recentlyModified_eq h hopen hroom, if_pos hlist, List.take_of_length_le (Nat.le_add_right _ _),
    List.take_of_length_le (Nat.le_add_left _ _)] at hall
  exact Except.ok.inj hall

/-- Two files that tie come in either order, where neither is in a folder above the other. -/
theorem pair_toward {p q : Path} (hp : Eligible s includeHidden p) (hq : Eligible s includeHidden q)
    (hne : p ≠ q) (hpq : ¬Above p q) (hqp : ¬Above q p) (heq : placeCmp s dir p q = .eq) :
    Reads s (toward s.tree.names p) ∧
      [p, q].Sublist (sorted s (toward s.tree.names p) dir includeHidden) := by
  have htrans : Std.TransCmp (placeCmp s dir) := transCmp_placeCmp
  have hreads : Reads s (toward s.tree.names p) := fun here => perm_toward p
  refine ⟨hreads, pair_sortWith (by rw [heq]; rfl) ?_⟩
  have hfirst := Precedes.toward hp.2 hq.2 hne hpq hqp
  exact hfirst.sublist ((mem_files_iff hreads hp.1).2 hp) ((mem_files_iff hreads hp.1).2 hq)

theorem Steady.untied (hopen : s.fails (.open []) = none) (hroom : regularFiles s < maxEntries)
    (h : Steady s dir includeHidden maxEntries) : Untied s dir includeHidden := by
  obtain ⟨l, -, hl⟩ := h
  intro p q hp hq hne hmodified hname
  by_contra hno
  rw [not_or] at hno
  have heq : placeCmp s dir p q = .eq := placeCmp_eq.2 ⟨hmodified, hname⟩
  have heq' : placeCmp s dir q p = .eq := placeCmp_eq.2 ⟨hmodified.symm, hname.symm⟩
  obtain ⟨hreads, hpq⟩ := pair_toward hp hq hne hno.1 hno.2 heq
  obtain ⟨hreads', hqp⟩ := pair_toward hq hp hne.symm hno.2 hno.1 heq'
  have hsame := (eq_sorted hopen hroom hp.1 hl hreads).trans
    (eq_sorted hopen hroom hp.1 hl hreads').symm
  rw [← List.map_injective_iff.2 recentAt_injective hsame] at hqp
  exact not_pair_of_pair (perm_sortWith.nodup_iff.2 (nodup_files hreads)) hpq hqp

end

/-! ## The ceiling -/

/-- The name of a number. -/
def linkName (i : ℕ) : Name := ⟨decimal i, by
  have hdigit : ∀ b ∈ decimal i, isDigit b = true := List.all_eq_true.1 (all_isDigit_decimal i)
  refine ⟨decimal_ne_nil i, ?_, ?_, ?_, ?_⟩
  · exact fun h => absurd (hdigit dot (by rw [h]; simp)) (by decide)
  · exact fun h => absurd (hdigit dot (by rw [h]; simp)) (by decide)
  · exact fun h => absurd (hdigit slash h) (by decide)
  · exact fun h => absurd (hdigit 0 h) (by decide)⟩

theorem linkName_injective : Function.Injective linkName := by
  intro i j h
  rw [← parseDecimal_decimal i, ← parseDecimal_decimal j]
  exact congrArg parseDecimal (congrArg Subtype.val h)

/-- A folder of so many links. -/
def links (n : ℕ) : PathTree Name Info Info.isDir where
  entries := ([], { type := .directory }) ::
    (List.range n).map fun i => ([linkName i], { type := .symlink })
  nodup := by
    rw [List.map_cons, List.map_map, List.nodup_cons]
    refine ⟨by simp, List.nodup_range.map fun i j h => ?_⟩
    exact linkName_injective (List.singleton_inj.1 h)
  root := ⟨_, List.mem_cons_self, rfl⟩
  closed := by
    intro p a b h
    have hp : p = [] := by
      rcases List.mem_cons.1 h with h | h
      · exact absurd (congrArg Prod.fst h) (by simp)
      · obtain ⟨i, -, hi⟩ := List.mem_map.1 h
        have hpath := congrArg (List.length ∘ Prod.fst) hi
        simpa using hpath
    obtain rfl := hp
    exact ⟨_, List.mem_cons_self, rfl⟩

theorem names_links (n : ℕ) : (links n).names [] = (List.range n).map linkName := by
  have hbelow : ∀ i, PathTree.below [] [linkName i] = some (linkName i) := fun i => rfl
  rw [PathTree.names, links, List.filterMap_cons_none rfl, List.filterMap_map, ← List.filterMap_eq_map]
  exact List.filterMap_congr fun i _ => hbelow i

/-- The links are looked at, all of them, and none of them counts. -/
theorem examined_links {n : ℕ} (hn : 0 < n) :
    (collected { tree := links n } (links n).names [] false 1).examined = n := by
  have hget : ∀ a : Name, ∀ info, (links n).get ([] ++ [a]) = some info → info.type = .symlink := by
    intro a info hget
    rcases List.mem_cons.1 ((links n).get_eq_some_iff.1 hget) with h | h
    · exact absurd (congrArg Prod.fst h) (by simp)
    · obtain ⟨i, -, hi⟩ := List.mem_map.1 h
      exact (congrArg (fun e : Path × Info => e.2.type) hi).symm
  have hfile : ∀ a : Name, fileAt { tree := links n } false ([] ++ [a]) = false := by
    intro a
    cases h : (links n).get ([] ++ [a]) with
    | none => simp only [fileAt, h, Option.any_none, Bool.and_false]
    | some info =>
      simp only [fileAt, h, Option.any_some, hget a info h,
        decide_eq_false (by decide : ¬FileType.symlink = .regular), Bool.and_false]
  have hdir : ∀ a : Name, dirAt { tree := links n } false ([] ++ [a]) = false := by
    intro a
    cases h : (links n).get ([] ++ [a]) with
    | none => simp only [dirAt, h, Option.any_none, Bool.and_false]
    | some info =>
      simp only [dirAt, h, Option.any_some, Info.isDir, hget a info h,
        decide_eq_false (by decide : ¬FileType.symlink = .directory), Bool.and_false]
  have hnofile : (((links n).names []).map fun a => [] ++ [a]).filter (fileAt { tree := links n } false) =
      [] := by
    rw [List.filter_eq_nil_iff]
    intro p hp
    obtain ⟨a, -, rfl⟩ := List.mem_map.1 hp
    rw [hfile a]
    exact Bool.false_ne_true
  have hnodir : ((links n).names []).filter (fun a => dirAt { tree := links n } false ([] ++ [a])) = [] := by
    rw [List.filter_eq_nil_iff]
    intro a _
    rw [hdir a]
    exact Bool.false_ne_true
  have hdepth : 0 < Scene.depth { tree := links n } := by
    have hmem : ([linkName 0], ({ type := .symlink } : Info)) ∈ (links n).entries :=
      List.mem_cons_of_mem _ (List.mem_map.2 ⟨0, List.mem_range.2 hn, rfl⟩)
    exact @length_le_depth { tree := links n } _ _ ((links n).get_eq_some_iff.2 hmem)
  obtain ⟨k, hk⟩ := Nat.exists_eq_succ_of_ne_zero hdepth.ne'
  rw [collected, hk, collectRecent, if_neg (not_not.2 rfl),
    collectNames_eq (by rw [hnofile]; exact Nat.zero_lt_one), hnofile, hnodir]
  simp [names_links]

/-- **The recent files**: where the files do not reach the ceiling, the answer does not depend on the disk
exactly when no files tie; and nothing bounds the number of entries that are looked at. -/
theorem recentlyModified_iff {s : Scene} {dir : PathBuf} {includeHidden : Bool} {maxEntries : ℕ}
    (hopen : s.fails (.open []) = none) (hroom : regularFiles s < maxEntries) :
    (Steady s dir includeHidden maxEntries ↔ Untied s dir includeHidden) ∧
      ∀ bound : ℕ → ℕ, ∃ (s : Scene) (order : Path → List Name) (maxEntries : ℕ), Reads s order ∧
        bound maxEntries < (collected s order [] false maxEntries).examined := by
  refine ⟨⟨Steady.untied hopen hroom, Untied.steady hopen hroom⟩, fun bound => ?_⟩
  refine ⟨{ tree := links (bound 1 + 1) }, (links (bound 1 + 1)).names, 1,
    fun _ => List.Perm.refl _, ?_⟩
  rw [examined_links (Nat.succ_pos _)]
  exact Nat.lt_succ_self _

def folderA : Name := ⟨text "a", by decide⟩

def folderB : Name := ⟨text "b", by decide⟩

/-- A note of one moment. -/
def noteInfo : Info := { type := .regular, modified := 7 }

theorem isDir_directory : Info.isDir { type := .directory } = true := rfl

/-- A folder with nothing in it. -/
def bare : PathTree Name Info Info.isDir := PathTree.single { type := .directory } isDir_directory

theorem isBranch_bare : bare.isBranch [] = true := rfl

theorem get_bare : bare.get ([] ++ [note]) = none := rfl

/-- A folder with one note. -/
def oneNote : Scene where
  tree := bare.insert [] note noteInfo isBranch_bare get_bare

theorem recentlyModified_oneNote :
    (oneNote.fails (.open []) = none ∧ regularFiles oneNote < 2) ∧ Steady oneNote [] false 2 := by
  refine ⟨⟨rfl, by decide⟩, (recentlyModified_iff rfl (by decide)).1.2 ?_⟩
  have hone : ∀ p, Eligible oneNote false p → p = [note] := by
    intro p hp
    obtain ⟨info, hget, htype⟩ := isSome_of_reached hp.2
    rcases List.mem_pair.1 (oneNote.tree.get_eq_some_iff.1 hget) with h | h
    · have hdir : info.type = .directory := congrArg (fun e : Path × Info => e.2.type) h
      rw [hdir] at htype
      exact absurd htype (by decide)
    · exact congrArg Prod.fst h
  exact fun p q hp hq hne => absurd ((hone p hp).trans (hone q hq).symm) hne

/-- Two folders, each with a note of that moment. -/
def twoNotes : Scene where
  tree := (((bare.insert [] folderA { type := .directory } isBranch_bare
    (by decide)).insert [] folderB { type := .directory } rfl (by decide)).insert
      [folderA] note noteInfo (by decide) (by decide)).insert
        [folderB] note noteInfo (by decide) (by decide)

/-- Which of two notes of one moment is the newest depends on the disk. -/
theorem twoNotes_unsteady : regularFiles twoNotes < 3 ∧ ¬Steady twoNotes [] false 3 := by
  refine ⟨by decide, fun h => ?_⟩
  have ha : Eligible twoNotes false [folderA, note] :=
    ⟨rfl, by decide, by decide, by decide, by decide⟩
  have hb : Eligible twoNotes false [folderB, note] :=
    ⟨rfl, by decide, by decide, by decide, by decide⟩
  rcases h.untied rfl (by decide) _ _ ha hb (by decide) (by decide) rfl with
    habove | habove
  · exact absurd habove.2 (by decide)
  · exact absurd habove.2 (by decide)

end Aurade.Ops.Recently
