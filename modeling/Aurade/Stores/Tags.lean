import Aurade.Foundations.Json
import Aurade.Stores.File
import Mathlib.Data.List.Destutter

/-!
# Tags

A tag lives on the file, in the attribute `user.xdg.tags`, and in the index, a JSON map from each
tag to the paths that carry it. This module has the functions of `xattr` that read and write the
attribute, and `clean`, `set`, `all` and `reconcile` of `tags`.

The JSON library is a parameter: `Json.parse` and `Json.render` with the one fact used of them, that
what is rendered is read back. `Json.standard` is an instance.

A path may name any file, and two paths the same file: `Files` goes through file numbers. The index
has the paths as text (`to_string_lossy`), and what `reconcile` looks at is that text again.
-/

namespace Aurade.Stores

open Fs

/-! ## The attribute -/

/-- Why the kernel refuses a call on an attribute. -/
inductive Refusal
  /-- The file system has no attributes. -/
  | unsupported
  | errno (e : Errno)
  deriving DecidableEq

/-- The files and their `user.xdg.tags`. -/
structure Files where
  /-- The file at a path, with no link followed. -/
  node : Bytes → Option ℕ
  /-- What reading its attribute gives: a refusal, none, or its value. -/
  attr : ℕ → Except Refusal (Option Bytes)

namespace Xattr

/-- The error of a refusal (`xattr::map`). -/
def map (path : Bytes) : Refusal → Error
  | .unsupported => .unsupported [.name path, .str " is on a filesystem without extended attributes"]
  | .errno e => .ofErrno [.name path] e

/-- `xattr::get`. -/
def get (f : Files) (path : Bytes) : Except Error (Option Bytes) :=
  match f.node path with
  | none => .error (map path (.errno .noent))
  | some i => (f.attr i).mapError (map path)

/-- `xattr::get_string`. -/
def getString (f : Files) (path : Bytes) : Except Error (Option Text) :=
  (get f path).map fun v => v.map Text.lossy

/-- The byte between two tags. -/
abbrev comma : UInt8 := 44

/-- `decode_tags`: spaces around a name are dropped and an empty run is skipped. -/
def decodeTags (value : Text) : List Text :=
  ((value.splitOn comma (by decide)).map Text.trim).filter (·.val ≠ [])

/-- `encode_tags`. -/
def encodeTags (tags : List Text) : Text := Text.intercalate comma (by decide) tags

/-- `xattr::tags`: the tags on a file, in the order they were stored. -/
def tags (f : Files) (path : Bytes) : Except Error (List Text) :=
  (getString f path).map fun v => (v.map decodeTags).getD []

/-- The longest value an attribute is given. -/
def maxValue : ℕ := 60 * 1024

/-- The names as `set_tags` writes them, where none has a comma. -/
def names : List Text → List Text → Except Error (List Text)
  | [], out => .ok out
  | tag :: rest, out =>
    let tag := tag.trim
    if tag.val = [] then names rest out
    else if comma ∈ tag.val then
      .error (.badRequest [.str "a tag cannot contain a comma: ", .name tag.val])
    else names rest (if tag ∈ out then out else out ++ [tag])

/-- The attribute of the file at `path` set, or removed with `none`. -/
def put (refuse : Option Refusal) (path : Bytes) (value : Option Bytes) :
    Act Files Error Unit := fun f =>
  match refuse, f.node path with
  | some r, _ => (.error (map path r), f)
  | none, none => (.error (map path (.errno .noent)), f)
  | none, some i => (.ok (), { f with attr := Function.update f.attr i (.ok value) })

/-- `xattr::set_tags`: replace the whole set. An empty one removes the attribute. -/
def setTags (refuse : Option Refusal) (path : Bytes) (tags : List Text) : Act Files Error Unit := do
  let clean ← Act.lift (names tags [])
  if clean = [] then put refuse path none
  else if maxValue < (encodeTags clean).val.length then
    Act.fail (.badRequest [.num (encodeTags clean).val.length,
      .str " bytes is more than an extended attribute can hold"])
  else put refuse path (some (encodeTags clean).val)

end Xattr

/-! ## The index -/

/-- Tag to the paths carrying it. -/
abbrev Index := Json.StringMap

/-- The JSON library, on indexes. -/
structure JsonLib where
  /-- `from_str`. -/
  parse : Text → Option Index
  /-- `to_string`. -/
  render : Index → Text
  /-- What is written is read back. -/
  parse_render : ∀ i, parse (render i) = some i

/-- JSON as it is written with no spaces. -/
def JsonLib.standard : JsonLib := ⟨Json.readMap, Json.writeMap, Json.readMap_writeMap⟩

/-- The files and the index file. -/
structure Disk where
  files : Files
  index : Option Bytes

/-- What the kernel answers to the calls of one operation, beyond what is on the disk. -/
structure Answers where
  /-- The attribute is not written. -/
  refuse : Option Refusal := none
  /-- The index file is there and cannot be read. -/
  unreadable : Bool := false
  /-- The calls that write it. -/
  save : SaveCalls := {}

section

variable (J : JsonLib) (place : Option Place) (a : Answers)

/-- `read_index`: a missing, unreadable or corrupt index is an empty one. With no data directory
there is none. -/
def readIndex (d : Disk) : Index :=
  if place.isSome then ((readToString a.unreadable d.index).bind J.parse).getD ∅ else ∅

/-- The index as it can be read. -/
def indexOf (d : Disk) : Index := readIndex J place {} d

/-- `write_index`. -/
def writeIndex (index : Index) : Act Disk Error Unit :=
  match place with
  | none => Act.fail (.notFound [.str "no data directory"])
  | some p => writeNew a.save p (fun bs d => { d with index := some bs }) (J.render index).val

/-- `tags::clean`: trimmed, and without empty names, names with a comma and repetitions. -/
def clean (tags : List Text) : List Text :=
  tags.foldl (fun out tag =>
    let tag := tag.trim
    if tag.val = [] ∨ Xattr.comma ∈ tag.val then out else if tag ∈ out then out else out ++ [tag]) []

/-- The index without a path, and without the tags that leaves empty. -/
def Index.drop (index : Index) (key : Text) : Index :=
  index.filterMap fun _ paths =>
    let kept := paths.filter (· ≠ key)
    if kept = [] then none else some kept

/-- The index with a path under one more tag. -/
def Index.enter (key : Text) (index : Index) (tag : Text) : Index :=
  index.alter tag fun paths =>
    let paths := paths.getD []
    some (if key ∈ paths then paths else paths ++ [key])

/-- Out of every tag first, then into the ones it now has. -/
def Index.retag (index : Index) (key : Text) (tags : List Text) : Index :=
  tags.foldl (Index.enter key) (index.drop key)

/-- What a write ended up doing. -/
structure Stored where
  tags : List Text
  /-- False when the filesystem has no extended attributes. -/
  onTheFile : Bool
  deriving DecidableEq

/-- A computation on the files of a disk. -/
def onFiles {α : Type} (m : Act Files Error α) : Act Disk Error α := fun d =>
  ((m d.files).1, { d with files := (m d.files).2 })

/-- What `set` makes of the attribute's answer: a file system that has none is no failure. -/
def taken : Except Error Unit → Act Disk Error Bool
  | .ok () => pure true
  | .error (.unsupported _) => pure false
  | .error e => Act.fail e

/-- The attribute's part of `set`: whether the file took it. -/
def setAttribute (path : Bytes) (tags : List Text) : Act Disk Error Bool := do
  taken (← Act.attempt (onFiles (Xattr.setTags a.refuse path tags)))

/-- `tags::set`: the attribute first, then the index. -/
def set (path : Bytes) (wanted : List Text) : Act Disk Error Stored := do
  let tags := clean wanted
  let stored ← setAttribute a path tags
  let d ← Act.get
  writeIndex J place a ((readIndex J place a d).retag (Text.lossy path) tags)
  let d ← Act.get
  pure ⟨(Xattr.tags d.files path).toOption.getD tags, stored⟩

/-- Whether there is a file at a path of the index (`symlink_metadata`). -/
def Files.has (f : Files) (path : Text) : Bool := (f.node path.val).isSome

/-- The index without the paths that have gone away. -/
def Index.live (index : Index) (f : Files) : Index :=
  index.filterMap fun _ paths =>
    let kept := paths.filter f.has
    if kept = [] then none else some kept

/-- `tags::all`: what has gone away is dropped, and written back where that is anything. -/
def all : Act Disk Error Index := do
  let d ← Act.get
  let index := readIndex J place a d
  let live := index.live d.files
  if index.toList.any fun e => (e.2.filter d.files.has).length ≠ e.2.length then
    let _ : Except Error Unit ← Act.attempt (writeIndex J place a live)
  pure live

/-- The paths of an index, sorted and each once. -/
def Index.paths (index : Index) : List Text :=
  ((index.toList.flatMap Prod.snd).mergeSort fun a b => (compare a b).isLE).destutter (· ≠ ·)

/-- The tags an index has a path under. -/
def Index.tagsOf (index : Index) (key : Text) : List Text :=
  (index.toList.filter fun e => key ∈ e.2).map Prod.fst

/-- The tags a file has, none where they cannot be read. -/
def Files.tags (f : Files) (key : Text) : List Text := (Xattr.tags f key.val).toOption.getD []

/-- One path of the index looked at: what is rebuilt so far and how much has changed. -/
def reconcileStep (index : Index) (f : Files) (acc : Index × ℕ) (key : Text) : Index × ℕ :=
  if f.has key then
    let onFile := f.tags key
    let indexed := index.tagsOf key
    (onFile.foldl (fun i tag => i.alter tag fun paths => some (paths.getD [] ++ [key])) acc.1,
      if indexed.length ≠ onFile.length ∨ ¬ onFile.all (· ∈ indexed) then acc.2 + 1 else acc.2)
  else (acc.1, acc.2 + 1)

/-- `tags::reconcile`: the index rebuilt from what its files say, and how many entries changed. -/
def reconcile : Act Disk Error ℕ := do
  let d ← Act.get
  let index := readIndex J place a d
  let r := index.paths.foldl (reconcileStep index d.files) (∅, 0)
  if 0 < r.2 then writeIndex J place a r.1
  pure r.2

end

/-! ## What the changes do to an index -/

/-- The paths under a tag. -/
def Index.listed (index : Index) (tag : Text) : List Text := index.getD tag []

/-- No tag without a path, and no path twice under one tag. -/
def Index.WellFormed (index : Index) : Prop :=
  ∀ (tag : Text) (paths : List Text), index[tag]? = some paths → paths ≠ [] ∧ paths.Nodup

namespace Index

variable {index : Index} {key tag : Text} {tags : List Text}

theorem listed_eq : index.listed tag = (index[tag]?).getD [] :=
  Std.ExtTreeMap.getD_eq_getD_getElem?

theorem wellFormed_empty : (∅ : Index).WellFormed := by
  intro tag paths h
  simp at h

theorem WellFormed.nodup (h : index.WellFormed) (tag : Text) : (index.listed tag).Nodup := by
  rw [listed_eq]
  cases hget : index[tag]? with
  | none => exact List.nodup_nil
  | some paths => exact (h tag paths hget).2

/-- `drop` and `live` keep some paths of each tag. -/
theorem getElem?_filter (index : Index) (keep : Text → Bool) (tag : Text) :
    (index.filterMap fun _ paths =>
      let kept := paths.filter keep
      if kept = [] then none else some kept)[tag]? =
    (index[tag]?).bind fun paths =>
      if paths.filter keep = [] then none else some (paths.filter keep) :=
  Std.ExtTreeMap.getElem?_filterMap'

theorem listed_filter (index : Index) (keep : Text → Bool) (tag : Text) :
    Index.listed (index.filterMap fun _ paths =>
      let kept := paths.filter keep
      if kept = [] then none else some kept) tag = (index.listed tag).filter keep := by
  rw [listed_eq, getElem?_filter, listed_eq]
  cases index[tag]? with
  | none => rfl
  | some paths =>
    rw [Option.bind_some]
    split
    · next h => exact h.symm
    · rfl

theorem WellFormed.filter (h : index.WellFormed) (keep : Text → Bool) :
    Index.WellFormed (index.filterMap fun _ paths =>
      let kept := paths.filter keep
      if kept = [] then none else some kept) := by
  intro tag paths hget
  rw [getElem?_filter] at hget
  obtain ⟨paths', hget', hkept⟩ := Option.bind_eq_some_iff.1 hget
  split at hkept
  · cases hkept
  · next hne =>
    obtain rfl := Option.some.inj hkept
    exact ⟨hne, (h tag paths' hget').2.filter _⟩

theorem listed_drop : (index.drop key).listed tag = (index.listed tag).filter (· ≠ key) :=
  listed_filter index _ tag

theorem listed_live {f : Files} : (index.live f).listed tag = (index.listed tag).filter f.has :=
  listed_filter index _ tag

theorem getElem?_enter (index : Index) (key tag tag' : Text) :
    (index.enter key tag)[tag']? =
      if tag = tag' then
        some (if key ∈ index.listed tag then index.listed tag else index.listed tag ++ [key])
      else index[tag']? := by
  rw [enter, Std.ExtTreeMap.getElem?_alter, listed_eq]
  simp only [Std.LawfulEqCmp.compare_eq_iff_eq]

theorem WellFormed.enter (h : index.WellFormed) (key tag : Text) :
    (index.enter key tag).WellFormed := by
  intro tag' paths hget
  rw [getElem?_enter] at hget
  split at hget
  · obtain rfl := Option.some.inj hget
    split
    · next hmem => exact ⟨List.ne_nil_of_mem hmem, h.nodup tag⟩
    · next hmem =>
      exact ⟨by simp, List.nodup_append.2 ⟨h.nodup tag, by simp, by
        intro x hx y hy
        obtain rfl := List.mem_singleton.1 hy
        exact fun he => hmem (he ▸ hx)⟩⟩
  · exact h tag' paths hget

/-- Tagging a path keeps the index well formed. -/
theorem WellFormed.retag (h : index.WellFormed) (key : Text) (tags : List Text) :
    (index.retag key tags).WellFormed := by
  unfold Index.retag
  have hdrop : (index.drop key).WellFormed := h.filter _
  generalize index.drop key = i at hdrop
  induction tags generalizing i with
  | nil => exact hdrop
  | cons tag tags ih => exact ih _ (hdrop.enter key tag)

/-- **What tagging a path does to a tag**: every other path stays, in its order, and the path is
listed last where it has the tag. -/
theorem listed_retag (index : Index) (key : Text) (tags : List Text) (tag : Text) :
    (index.retag key tags).listed tag =
      (index.listed tag).filter (· ≠ key) ++ if tag ∈ tags then [key] else [] := by
  unfold Index.retag
  have hstep : ∀ (tags : List Text) (i : Index), (tags.foldl (Index.enter key) i).listed tag =
      if tag ∈ tags ∧ key ∉ i.listed tag then i.listed tag ++ [key] else i.listed tag := by
    intro tags
    induction tags with
    | nil => simp
    | cons t tags ih =>
      intro i
      have ht : (i.enter key t).listed tag =
          if t = tag ∧ key ∉ i.listed tag then i.listed tag ++ [key] else i.listed tag := by
        rw [listed_eq, getElem?_enter]
        by_cases htag : t = tag
        · subst htag
          by_cases hkey : key ∈ i.listed t <;> simp [hkey]
        · simp [htag, listed_eq]
      rw [List.foldl_cons, ih, ht]
      simp only [List.mem_cons]
      by_cases htag : t = tag
      · subst htag
        by_cases hkey : key ∈ i.listed t <;> simp [hkey]
      · simp [htag, Ne.symm htag]
  rw [hstep, listed_drop]
  by_cases htag : tag ∈ tags <;> simp [htag]

theorem mem_listed_retag {path : Text} :
    path ∈ (index.retag key tags).listed tag ↔
      if path = key then tag ∈ tags else path ∈ index.listed tag := by
  rw [listed_retag, List.mem_append, List.mem_filter]
  by_cases hp : path = key
  · subst hp
    by_cases htag : tag ∈ tags <;> simp [htag]
  · by_cases htag : tag ∈ tags <;> simp [htag, hp]

end Index

/-! ## What the calls do to the index file -/

section

variable {J : JsonLib} {place : Option Place} {a : Answers} {d d' : Disk}

theorem readIndex_of_readable (h : a.unreadable = false) (d : Disk) :
    readIndex J place a d = indexOf J place d := by
  rw [indexOf, readIndex, readIndex, h]

/-- What a call reads is the index, or nothing. -/
theorem readIndex_cases (J : JsonLib) (place : Option Place) (a : Answers) (d : Disk) :
    readIndex J place a d = indexOf J place d ∨ readIndex J place a d = ∅ := by
  cases ha : a.unreadable with
  | false => exact Or.inl (readIndex_of_readable ha d)
  | true =>
    right
    rw [readIndex, ha, readToString_fails]
    exact ite_self _

theorem indexOf_congr (h : d'.index = d.index) : indexOf J place d' = indexOf J place d := by
  rw [indexOf, indexOf, readIndex, readIndex, h]

theorem writeIndex_some (J : JsonLib) (p : Place) (a : Answers) (index : Index) (d : Disk) :
    writeIndex J (some p) a index d =
      writeNew a.save p (fun bs d => { d with index := some bs }) (J.render index).val d := rfl

/-- A write that goes well is what is read next, and one that does not changes nothing. -/
theorem writeIndex_cases (J : JsonLib) (place : Option Place) (a : Answers) (index : Index)
    (d : Disk) :
    (∃ d', writeIndex J place a index d = (.ok (), d') ∧ d'.files = d.files ∧
      indexOf J place d' = index) ∨ ∃ e, writeIndex J place a index d = (.error e, d) := by
  unfold writeIndex
  cases place with
  | none => exact Or.inr ⟨_, rfl⟩
  | some p =>
    by_cases hworks : a.save.Works
    · refine Or.inl ⟨_, writeNew_ok _ _ _ _ _ hworks, rfl, ?_⟩
      show ((readToString false (some (J.render index).val)).bind J.parse).getD ∅ = index
      rw [readToString_text, Option.bind_some, J.parse_render]
      rfl
    · exact Or.inr (writeNew_error a.save p _ _ d hworks)

theorem indexOf_writeIndex {index : Index} {u : Unit}
    (h : writeIndex J place a index d = (.ok u, d')) : indexOf J place d' = index := by
  rcases writeIndex_cases J place a index d with ⟨D, hD, -, hindex⟩ | ⟨e, he⟩
  · rw [hD] at h
    obtain rfl := (Prod.mk.inj h).2
    exact hindex
  · rw [he] at h
    cases h

/-- The attribute's part of `set` leaves the index alone, and fails where the attribute is refused
and the file system has some. -/
theorem setAttribute_spec (a : Answers) (path : Bytes) (tags : List Text) (d : Disk) :
    (setAttribute a path tags d).2.index = d.index ∧
      ((setAttribute a path tags d).1.isOk = false ↔
        ∃ e, (Xattr.setTags a.refuse path tags d.files).1 = .error e ∧
          ∀ what, e ≠ .unsupported what) := by
  have hrun : setAttribute a path tags d = taken (Xattr.setTags a.refuse path tags d.files).1
      (onFiles (Xattr.setTags a.refuse path tags) d).2 := rfl
  have hindex : (onFiles (Xattr.setTags a.refuse path tags) d).2.index = d.index := rfl
  rw [hrun]
  cases hset : (Xattr.setTags a.refuse path tags d.files).1 with
  | ok u =>
    refine ⟨hindex, iff_of_false Bool.noConfusion ?_⟩
    intro h
    obtain ⟨e, he, -⟩ := h
    cases he
  | error e =>
    by_cases he : ∃ what, e = .unsupported what
    · obtain ⟨what, rfl⟩ := he
      refine ⟨hindex, iff_of_false Bool.noConfusion ?_⟩
      intro h
      obtain ⟨e, he, hne⟩ := h
      exact hne what (Except.error.inj he).symm
    · have htaken : taken (.error e) = Act.fail e := by
        cases e with
        | unsupported what => exact absurd ⟨what, rfl⟩ he
        | _ => rfl
      rw [htaken]
      exact ⟨hindex, iff_of_true rfl ⟨e, rfl, fun what hwhat => he ⟨what, hwhat⟩⟩⟩

/-- Behind the attribute comes the index. -/
theorem set_of_taken {path : Bytes} {wanted : List Text} {b : Bool}
    (h : setAttribute a path (clean wanted) d = (.ok b, d')) :
    set J place a path wanted d =
      (writeIndex J place a ((readIndex J place a d).retag (Text.lossy path) (clean wanted)) >>=
        fun _ => Act.get >>= fun d =>
          pure ⟨(Xattr.tags d.files path).toOption.getD (clean wanted), b⟩) d' := by
  have hindex := (setAttribute_spec a path (clean wanted) d).1
  rw [h] at hindex
  have hread : readIndex J place a d = readIndex J place a d' := by
    rw [readIndex, readIndex, hindex]
  rw [set, Act.bind_of_ok h, hread]
  rfl

/-- **What a call of `set` does to the index file**: nothing, or the path is tagged in what it has
read. -/
theorem set_index (J : JsonLib) (place : Option Place) (a : Answers) (path : Bytes)
    (wanted : List Text) (d : Disk) :
    (∃ stored d', set J place a path wanted d = (.ok stored, d') ∧
      indexOf J place d' = (readIndex J place a d).retag (Text.lossy path) (clean wanted)) ∨
    ∃ e d', set J place a path wanted d = (.error e, d') ∧ d'.index = d.index := by
  have hattr := (setAttribute_spec a path (clean wanted) d).1
  rcases hset : setAttribute a path (clean wanted) d with ⟨e | b, D⟩
  · rw [hset] at hattr
    exact Or.inr ⟨e, D, Act.bind_of_error hset _, hattr⟩
  · rw [hset] at hattr
    rw [set_of_taken hset]
    rcases writeIndex_cases J place a
      ((readIndex J place a d).retag (Text.lossy path) (clean wanted)) D
      with ⟨d', hwrite, -, hindex⟩ | ⟨e, hwrite⟩
    · rw [Act.bind_of_ok hwrite]
      exact Or.inl ⟨_, d', rfl, hindex⟩
    · rw [Act.bind_of_error hwrite]
      exact Or.inr ⟨e, D, rfl, hattr⟩

end

end Aurade.Stores
