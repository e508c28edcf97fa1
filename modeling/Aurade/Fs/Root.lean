import Aurade.Fs.Kernel

/-!
# Resolving a path exactly once

A `Root` is a directory held open: operations are resolved against the directory itself and not
against its name. A relative path is walked one component at a time; `..` is refused before any
call, and a link where a directory should be stops the walk.

Almost every caller hands over a single name, for which the walk makes no call (`parentOf_rel`). The
specifications below are for that case: what the call did when it returned, and that it did nothing
when it failed.
-/

namespace Aurade.Fs

/-- An open directory that operations are resolved against: where it is, and the path it was opened
by. -/
structure Root where
  dir : Path
  path : PathBuf

/-- A relative path of one name. -/
abbrev Name.rel (n : Name) : PathBuf := [.normal n.val]

/-- The bytes of a component as a file name; a null in them fails in the call itself. -/
def nameOf (b : Bytes) : Act World Errno Name :=
  match toName? b with
  | some n => pure n
  | none => Act.fail .inval

namespace Root

/-- Split a relative path into its names, refusing what could leave the root. -/
def components (rel : PathBuf) : PathBuf → Except Error (List Bytes)
  | [] => .ok []
  | .normal b :: rest => (components rel rest).map (b :: ·)
  | .curDir :: rest => components rel rest
  | .parentDir :: _ => .error (.escapes [.path rel])
  | .rootDir :: _ => .error (.badRequest [.path rel, .str " must be relative to the root"])

variable (k : Kernel)

/-- Open the directories of `parent_of`, one below the other, following no link. -/
def descend (rel : PathBuf) : Path → List Bytes → Act World Error Path
  | cur, [] => pure cur
  | cur, part :: rest => do
    let n ← (nameOf part).mapErr (Error.ofRootErrno rel)
    (k.openDir cur n).mapErr fun e =>
      if e = .notdir then .escapes [.path rel] else .ofRootErrno rel e
    descend rel (cur ++ [n]) rest

/-- The directory that holds `rel`, and its last name there. -/
def parentOf (root : Root) (rel : PathBuf) : Act World Error (Path × Name) := do
  let parts ← Act.lift (components rel rel)
  match parts.getLast? with
  | none => Act.fail (.badRequest [.str "empty path"])
  | some last => do
    let cur ← descend k rel root.dir parts.dropLast
    let n ← (nameOf last).mapErr (Error.ofRootErrno rel)
    pure (cur, n)

/-- Run a call on the directory that holds `rel` and its last name there. -/
def «at» {α : Type} (root : Root) (rel : PathBuf) (call : Path → Name → Act World Errno α) :
    Act World Error α := do
  let (dir, n) ← root.parentOf k rel
  (call dir n).mapErr (Error.ofRootErrno rel)

/-- Open a directory as a resolution root. -/
def «open» (path : PathBuf) : Act World Error Root := do
  let w ← Act.get
  match k.resolve w.fs path with
  | .error e => Act.fail (.ofErrno [.path path] e)
  | .ok dir => do
    let isDir ← (k.query (.open dir) fun t => .ok (t.isBranch dir)).mapErr (.ofErrno [.path path])
    if isDir then pure ⟨dir, path⟩
    else Act.fail (.badRequest [.path path, .str " is not a directory"])

/-- The absolute path `rel` names, for reporting only. -/
def displayPath (root : Root) (rel : PathBuf) : PathBuf := root.path ++ rel

/-- Descend into a subdirectory and get a root for it. -/
def sub (root : Root) (rel : PathBuf) : Act World Error Root := do
  let (dir, n) ← root.parentOf k rel
  (k.openDir dir n).mapErr (Error.ofRootErrno rel)
  pure ⟨dir ++ [n], root.path ++ rel⟩

/-- Create a file and return where it is, open for writing. -/
def createFile (root : Root) (rel : PathBuf) (mode : ℕ) (exclusive : Bool) :
    Act World Error Path := do
  let (dir, n) ← root.parentOf k rel
  (if exclusive then k.createNew dir n mode else k.createTrunc dir n mode).mapErr
    (Error.ofRootErrno rel)
  pure (dir ++ [n])

/-- Open a file for reading, refusing a symlink at the leaf. -/
def openFile (root : Root) (rel : PathBuf) : Act World Error Path := do
  let (dir, n) ← root.parentOf k rel
  (k.openRead dir n).mapErr (Error.ofRootErrno rel)
  pure (dir ++ [n])

/-- Make a directory; with `existingIsFine` a name that is taken is no failure. -/
def mkdir (root : Root) (rel : PathBuf) (mode : ℕ) (existingIsFine : Bool) :
    Act World Error Unit := do
  let (dir, n) ← root.parentOf k rel
  match ← (k.mkdir dir n mode).attempt with
  | .ok () => pure ()
  | .error e =>
    if e = .exist ∧ existingIsFine = true then pure () else Act.fail (.ofRootErrno rel e)

/-- Point a new symlink at `target`, which is stored as it is. -/
def symlink (root : Root) (target : Bytes) (rel : PathBuf) : Act World Error Unit :=
  root.at k rel fun dir n => k.symlink dir n target

/-- Metadata, without following a symlink at the leaf. -/
def metadata (root : Root) (rel : PathBuf) : Act World Error Stat := root.at k rel k.stat

/-- Whether anything at all is at `rel`, a dangling symlink included. -/
def «exists» (root : Root) (rel : PathBuf) : Act World Error Bool := do
  match ← (root.metadata k rel).attempt with
  | .ok _ => pure true
  | .error _ => pure false

/-- Unlink a file, or with `dir` an empty directory. -/
def remove (root : Root) (rel : PathBuf) (dir : Bool) : Act World Error Unit :=
  root.at k rel fun p n => k.unlink p n dir

/-- Rename inside the root, or into another root's directory. -/
def renameTo (root : Root) (rel : PathBuf) (dest : Root) (destRel : PathBuf) :
    Act World Error Unit := do
  let (fromDir, fromName) ← root.parentOf k rel
  let (toDir, toName) ← dest.parentOf k destRel
  (k.rename fromDir fromName toDir toName).mapErr (Error.ofRootErrno rel)

/-- The names directly under the root. -/
def readDir (root : Root) : Act World Error (List Name) :=
  (k.list root.dir).mapErr (Error.ofRootErrno [.curDir])

/-! ## Single names -/

@[simp] theorem parentOf_rel (root : Root) (n : Name) :
    root.parentOf k n.rel = pure (root.dir, n) := by
  simp only [parentOf, components, Except.map, nameOf, Act.lift_ok, pure_bind,
    List.getLast?_singleton, List.dropLast_singleton, descend, toName?_val, Act.mapErr_pure]

variable {k} {root : Root} {n : Name} {w : World}

theorem at_rel {α : Type} (root : Root) (n : Name) (call : Path → Name → Act World Errno α) :
    root.at k n.rel call = (call root.dir n).mapErr (Error.ofRootErrno n.rel) := by
  rw [Root.at, parentOf_rel]
  rfl

theorem open_spec (path : PathBuf) (w : World) :
    (Root.open k path).wp
      (fun root w' => w' = w.tick ∧ root.path = path ∧ k.resolve w.fs path = .ok root.dir ∧
        w.fs.isBranch root.dir = true)
      (fun _ w' => w' = w ∨ w' = w.tick) w := by
  simp only [Root.open, Act.wp_bind, Act.wp_get]
  cases hr : k.resolve w.fs path with
  | error e => exact Or.inl rfl
  | ok dir =>
    simp only [Act.wp_bind, Act.wp_mapErr, Act.wp_ite, Act.wp_pure, Act.wp_fail]
    refine Act.wp_mono (k.query_spec _ _ w) ?_ ?_
    · rintro isDir w' ⟨rfl, hd⟩
      obtain rfl := Except.ok.inj hd
      exact ⟨fun h => ⟨rfl, trivial, trivial, h⟩, fun _ => Or.inr rfl⟩
    · rintro e w' ⟨rfl, -⟩
      exact Or.inr rfl

theorem sub_spec (root : Root) (n : Name) (w : World) :
    (root.sub k n.rel).wp
      (fun sub w' => w' = w.tick ∧ sub = ⟨root.dir ++ [n], root.path ++ n.rel⟩ ∧
        w.fs.isBranch (root.dir ++ [n]) = true)
      (fun _ w' => w' = w.tick) w := by
  simp only [sub, parentOf_rel, pure_bind, Act.wp_bind, Act.wp_mapErr, Act.wp_pure]
  exact Act.wp_mono (Kernel.openDir_spec _ _ w) (fun _ _ h => ⟨h.1, trivial, h.2⟩) (fun _ _ h => h)

theorem metadata_spec (root : Root) (n : Name) (w : World) :
    (root.metadata k n.rel).wp
      (fun st w' => w' = w.tick ∧ ∃ nd, w.fs.get (root.dir ++ [n]) = some nd ∧ st = nd.stat)
      (fun _ w' => w' = w.tick ∧ (w.fs.get (root.dir ++ [n]) = none ∨
        (k.refuse w.clock (.stat (root.dir ++ [n])) w.fs).isSome)) w := by
  rw [metadata, at_rel, Act.wp_mapErr]
  exact Kernel.stat_spec _ _ w

/-- `exists` says no of a name that is there only when the kernel refused to look. -/
theorem exists_spec (root : Root) (n : Name) (w : World) :
    (root.exists k n.rel).wp
      (fun b w' => w' = w.tick ∧ (b = true → (w.fs.get (root.dir ++ [n])).isSome) ∧
        (b = false → w.fs.get (root.dir ++ [n]) = none ∨
          (k.refuse w.clock (.stat (root.dir ++ [n])) w.fs).isSome))
      (fun _ _ => False) w := by
  simp only [Root.exists, Act.wp_bind, Act.wp_attempt]
  refine Act.wp_mono (metadata_spec root n w) ?_ ?_
  · rintro st w' ⟨rfl, nd, hnd, -⟩
    exact ⟨rfl, fun _ => by simp [hnd], by simp⟩
  · rintro e w' ⟨rfl, h⟩
    exact ⟨rfl, by simp, fun _ => h⟩

theorem readDir_spec (root : Root) (w : World) :
    (root.readDir k).wp
      (fun ns w' => w' = w.tick ∧ w.fs.isBranch root.dir = true ∧ ns = w.fs.names root.dir)
      (fun _ w' => w' = w.tick) w := by
  rw [readDir, Act.wp_mapErr]
  exact Kernel.list_spec _ w

/-- The exclusive create. -/
theorem createFile_spec (root : Root) (n : Name) (mode : ℕ) (w : World) :
    (root.createFile k n.rel mode true).wp
      (fun p w' => p = root.dir ++ [n] ∧ ∃ t, w' = w.turn t ∧ w.fs.isBranch root.dir = true ∧
        w.fs.get (root.dir ++ [n]) = none ∧ ∀ x, t.get x =
          if x = root.dir ++ [n] then some (.file (k.fileMode mode) .owner []) else w.fs.get x)
      (fun _ w' => w' = w.tick) w := by
  simp only [createFile, parentOf_rel, pure_bind, if_true, Act.wp_bind, Act.wp_mapErr, Act.wp_pure]
  exact Act.wp_mono (Kernel.add_spec _ _ _ _ w) (fun _ _ h => ⟨trivial, h⟩) (fun _ _ h => h)

theorem openFile_spec (root : Root) (n : Name) (w : World) :
    (root.openFile k n.rel).wp
      (fun p w' => p = root.dir ++ [n] ∧ w' = w.tick ∧
        ∃ nd, w.fs.get (root.dir ++ [n]) = some nd ∧ nd.isSymlink = false)
      (fun _ w' => w' = w.tick) w := by
  simp only [openFile, parentOf_rel, pure_bind, Act.wp_bind, Act.wp_mapErr, Act.wp_pure]
  exact Act.wp_mono (Kernel.openRead_spec _ _ w) (fun _ _ h => ⟨trivial, h⟩) (fun _ _ h => h)

/-- `mkdir` makes a directory under a free name, or with `existingIsFine` finds the name taken and
leaves it. -/
theorem mkdir_spec (root : Root) (n : Name) (mode : ℕ) (fine : Bool) (w : World) :
    (root.mkdir k n.rel mode fine).wp
      (fun _ w' => (∃ t, w' = w.turn t ∧ w.fs.isBranch root.dir = true ∧
          w.fs.get (root.dir ++ [n]) = none ∧ ∀ x, t.get x =
            if x = root.dir ++ [n] then some (.dir (k.dirMode mode) .owner) else w.fs.get x) ∨
        (fine = true ∧ w' = w.tick ∧ ((w.fs.get (root.dir ++ [n])).isSome ∨
          (k.refuse w.clock (.mkdir (root.dir ++ [n])) w.fs).isSome)))
      (fun _ w' => w' = w.tick) w := by
  simp only [mkdir, parentOf_rel, pure_bind, Act.wp_bind, Act.wp_attempt]
  refine Act.wp_mono (Kernel.mkdir_spec _ _ _ w) ?_ ?_
  · rintro ⟨⟩ w' h
    exact Or.inl h
  · rintro e w' ⟨rfl, h⟩
    simp only [Act.wp_ite, Act.wp_pure, Act.wp_fail]
    exact ⟨fun he => Or.inr ⟨he.2, trivial, h he.1⟩, fun _ => trivial⟩

theorem symlink_spec (root : Root) (n : Name) (target : Bytes) (w : World) :
    (root.symlink k target n.rel).wp
      (fun _ w' => ∃ t, w' = w.turn t ∧ w.fs.isBranch root.dir = true ∧
        w.fs.get (root.dir ++ [n]) = none ∧
        ∀ x, t.get x = if x = root.dir ++ [n] then some (.symlink target) else w.fs.get x)
      (fun _ w' => w' = w.tick) w := by
  rw [symlink, at_rel, Act.wp_mapErr]
  exact Kernel.add_spec _ _ _ _ w

theorem remove_spec (root : Root) (n : Name) (dir : Bool) (w : World) :
    (root.remove k n.rel dir).wp
      (fun _ w' => ∃ t, w' = w.turn t ∧
        (∃ nd, w.fs.get (root.dir ++ [n]) = some nd ∧ nd.isDir = dir) ∧
        w.fs.names (root.dir ++ [n]) = [] ∧
        ∀ x, t.get x = if x = root.dir ++ [n] then none else w.fs.get x)
      (fun _ w' => w' = w.tick) w := by
  rw [remove, at_rel, Act.wp_mapErr]
  exact Kernel.unlink_spec _ _ _ w

theorem renameTo_spec (root dest : Root) (n m : Name) (w : World) :
    (root.renameTo k n.rel dest m.rel).wp
      (fun _ w' => ∃ t, w' = w.turn t ∧
        k.crosses (root.dir ++ [n]) (dest.dir ++ [m]) = false ∧
        k.refuse w.clock (.rename (root.dir ++ [n]) (dest.dir ++ [m])) w.fs = none ∧
        w.fs.rename root.dir n dest.dir m = .ok t)
      (fun e w' => w' = w.tick ∧ (∀ c, e = .io c .xdev →
        k.crosses (root.dir ++ [n]) (dest.dir ++ [m]) = true)) w := by
  simp only [renameTo, parentOf_rel, pure_bind, Act.wp_mapErr]
  refine Act.wp_mono (Kernel.rename_spec _ _ _ _ w) (fun _ _ h => h) ?_
  rintro e w' ⟨rfl, h⟩
  exact ⟨rfl, fun c hc => h (Error.ofRootErrno_eq_io hc)⟩

end Root

end Aurade.Fs
