import Aurade.Foundations.Inodes
import Aurade.Fs.Root

/-!
# Resolving a path while others change it

The same `Root` on a file system that other processes change between any two calls: a descriptor is the
number of a node and not a place. Every call that finds its names is kept with the file system it found
them in (`Deed`), so that where an operation acted can be said of the moment it did.
-/

namespace Aurade.Fs.Live

/-- The nodes by number, with what is known of each. -/
abbrev Files := Inodes Name Node

/-- A call on a name in a directory, or on two, with the files it found. -/
inductive Deed
  | node (fs : Files) (dir : ℕ) (name : Name)
  | move (fs : Files) (dir : ℕ) (name : Name) (toDir : ℕ) (toName : Name)
  deriving DecidableEq

structure World where
  fs : Files
  clock : ℕ := 0
  deeds : List Deed := []

/-- What is not the program's: which calls fail, what the others do before each, and the mask on new
modes. -/
structure System where
  refuse : ℕ → Option Errno
  change : ℕ → Files → Files
  umask : ℕ

/-! ## Calls -/

namespace System

variable {α : Type} (sys : System)

/-- A call: the others do what they do, and then it fails, or it is let through and done. -/
def call (deeds : Files → List Deed) (f : Files → Except Errno (α × Files)) : Act World Errno α :=
  fun w =>
    let fs := sys.change w.clock w.fs
    match sys.refuse w.clock with
    | some e => (.error e, ⟨fs, w.clock + 1, w.deeds⟩)
    | none =>
      match f fs with
      | .ok (a, fs') => (.ok a, ⟨fs', w.clock + 1, deeds fs ++ w.deeds⟩)
      | .error e => (.error e, ⟨fs, w.clock + 1, w.deeds⟩)

/-- What a name in a directory stands for, or why it stands for nothing. -/
def look (fs : Files) (d : ℕ) (n : Name) : Except Errno ℕ :=
  match fs.entry d n with
  | some i => .ok i
  | none =>
    match fs[d]? with
    | some (.leaf _) => .error .notdir
    | _ => .error .noent

/-- A new node under a free name. -/
def add (fs : Files) (d : ℕ) (n : Name) (x : Inode Name Node) : Except Errno (ℕ × Files) :=
  match fs[d]? with
  | some (.dir ..) =>
    if (fs.entry d n).isSome then .error .exist
    else .ok (fs.length, (fs ++ [x]).modify d (.link n fs.length))
  | some (.leaf _) => .error .notdir
  | _ => .error .noent

/-- Whether a directory is among those below another, so many levels down at most. -/
def reaches (fs : Files) : ℕ → ℕ → ℕ → Bool
  | 0, i, d => i == d
  | levels + 1, i, d =>
    i == d || match fs[i]? with
      | some (.dir _ es) => es.any fun e => reaches fs levels e.2 d
      | _ => false

/-- `dup`. -/
def dup : Act World Errno Unit := sys.call (fun _ => []) fun fs => .ok ((), fs)

/-- `openat` with `O_DIRECTORY | O_NOFOLLOW`: Linux answers ENOTDIR for a link. -/
def openDir (d : ℕ) (n : Name) : Act World Errno ℕ :=
  sys.call (fun fs => [.node fs d n]) fun fs => do
    let i ← look fs d n
    if fs.isDir i then pure (i, fs) else .error .notdir

/-- `openat` for reading with `O_NOFOLLOW`. -/
def openRead (d : ℕ) (n : Name) : Act World Errno ℕ :=
  sys.call (fun fs => [.node fs d n]) fun fs => do
    let i ← look fs d n
    match fs[i]? with
    | some (.leaf (.symlink _)) => .error .loop
    | _ => pure (i, fs)

/-- The mode a new file gets. -/
def fileMode (mode : ℕ) : ℕ := mode &&& 0o7777 &&& (0o7777 ^^^ (sys.umask &&& 0o777))

/-- The mode a new directory gets. -/
def dirMode (mode : ℕ) : ℕ := mode &&& 0o1777 &&& (0o7777 ^^^ (sys.umask &&& 0o777))

/-- `openat` with `O_CREAT | O_EXCL`. -/
def createNew (d : ℕ) (n : Name) (mode : ℕ) : Act World Errno ℕ :=
  sys.call (fun fs => [.node fs d n]) fun fs => add fs d n (.leaf (.file (sys.fileMode mode) .owner []))

/-- `openat` with `O_CREAT | O_TRUNC | O_NOFOLLOW`. -/
def createTrunc (d : ℕ) (n : Name) (mode : ℕ) : Act World Errno ℕ :=
  sys.call (fun fs => [.node fs d n]) fun fs =>
    match fs.entry d n with
    | none => add fs d n (.leaf (.file (sys.fileMode mode) .owner []))
    | some i =>
      match fs[i]? with
      | some (.leaf (.symlink _)) => .error .loop
      | some (.leaf nd) => .ok (i, fs.set i (.leaf (nd.setBytes [])))
      | some (.dir ..) => .error .isdir
      | _ => .error .noent

/-- `mkdirat`. -/
def mkdir (d : ℕ) (n : Name) (mode : ℕ) : Act World Errno Unit :=
  sys.call (fun fs => [.node fs d n]) fun fs => do
    let (_, fs') ← add fs d n (.dir (.dir (sys.dirMode mode) .owner) [])
    pure ((), fs')

/-- `symlinkat`. -/
def symlink (d : ℕ) (n : Name) (target : Bytes) : Act World Errno Unit :=
  sys.call (fun fs => [.node fs d n]) fun fs => do
    let (_, fs') ← add fs d n (.leaf (.symlink target))
    pure ((), fs')

/-- `statat` without following. -/
def stat (d : ℕ) (n : Name) : Act World Errno Stat :=
  sys.call (fun fs => [.node fs d n]) fun fs => do
    let i ← look fs d n
    match fs[i]? with
    | some (.dir nd _) | some (.leaf nd) => pure (nd.stat, fs)
    | _ => .error .noent

/-- `unlinkat`. -/
def unlink (d : ℕ) (n : Name) (dir : Bool) : Act World Errno Unit :=
  sys.call (fun fs => [.node fs d n]) fun fs => do
    let i ← look fs d n
    match fs[i]? with
    | some (.dir _ es) =>
      if dir = false then .error .isdir
      else if es ≠ [] then .error .notempty
      else pure ((), (fs.modify d (.unlink n)).set i .gone)
    | some (.leaf _) => if dir then .error .notdir else pure ((), fs.modify d (.unlink n))
    | _ => .error .noent

/-- A node with another name, in place of what has that name already. -/
def move (fs : Files) (d : ℕ) (n : Name) (d' : ℕ) (m : Name) : Except Errno (Unit × Files) := do
  let i ← look fs d n
  let moved := ((fs.modify d (.unlink n)).modify d' (.unlink m)).modify d' (.link m i)
  match fs[d']? with
  | some (.dir ..) =>
    if fs.isDir i && reaches fs fs.length i d' then .error .inval
    else
      match fs.entry d' m with
      | none => pure ((), moved)
      | some j =>
        if i = j then pure ((), fs)
        else
          match fs[j]? with
          | some (.dir _ es) =>
            if fs.isDir i = false then .error .isdir
            else if es ≠ [] then .error .notempty
            else pure ((), moved.set j .gone)
          | _ => if fs.isDir i then .error .notdir else pure ((), moved)
  | some (.leaf _) => .error .notdir
  | _ => .error .noent

/-- `renameat`. -/
def rename (d : ℕ) (n : Name) (d' : ℕ) (m : Name) : Act World Errno Unit :=
  sys.call (fun fs => [.move fs d n d' m]) fun fs => move fs d n d' m

end System

/-! ## Operations -/

/-- An open directory that operations are resolved against, and the path it was opened by. -/
structure Root where
  dir : ℕ
  path : PathBuf

/-- The bytes of a component as a file name; a null in them fails before the call. -/
def nameOf (b : Bytes) : Act World Errno Name := Act.lift ((toName? b).elim (.error .inval) .ok)

namespace Root

variable (sys : System)

/-- Open the directories of `parent_of`, one below the other, following no link. -/
def descend (rel : PathBuf) : ℕ → List Bytes → Act World Error ℕ
  | cur, [] => pure cur
  | cur, part :: rest => do
    let n ← (nameOf part).mapErr (Error.ofRootErrno rel)
    let next ← (sys.openDir cur n).mapErr fun e =>
      if e = .notdir then .escapes [.path rel] else .ofRootErrno rel e
    descend rel next rest

/-- The directory that holds `rel`, and its last name there. -/
def parentOf (root : Root) (rel : PathBuf) : Act World Error (ℕ × Bytes) := do
  let parts ← Act.lift (Fs.Root.components rel rel)
  match parts.getLast? with
  | none => Act.fail (.badRequest [.str "empty path"])
  | some last => do
    sys.dup.mapErr (.ofErrno [.str "dup root"])
    let cur ← descend sys rel root.dir parts.dropLast
    pure (cur, last)

/-- Run a call on the directory that holds `rel` and its last name there. -/
def «at» {α : Type} (root : Root) (rel : PathBuf) (call : ℕ → Name → Act World Errno α) :
    Act World Error α := do
  let (dir, name) ← root.parentOf sys rel
  (do let n ← nameOf name; call dir n).mapErr (Error.ofRootErrno rel)

/-- Descend into a subdirectory and get a root for it. -/
def sub (root : Root) (rel : PathBuf) : Act World Error Root := do
  let dir ← root.at sys rel sys.openDir
  pure ⟨dir, root.path ++ rel⟩

/-- Create a file and return it open for writing. -/
def createFile (root : Root) (rel : PathBuf) (mode : ℕ) (exclusive : Bool) : Act World Error ℕ :=
  root.at sys rel fun d n => if exclusive then sys.createNew d n mode else sys.createTrunc d n mode

/-- Open a file for reading, refusing a symlink at the leaf. -/
def openFile (root : Root) (rel : PathBuf) : Act World Error ℕ := root.at sys rel sys.openRead

/-- Make a directory; with `existingIsFine` a name that is taken is no failure. -/
def mkdir (root : Root) (rel : PathBuf) (mode : ℕ) (existingIsFine : Bool) : Act World Error Unit := do
  let (dir, name) ← root.parentOf sys rel
  match ← (do let n ← nameOf name; sys.mkdir dir n mode).attempt with
  | .ok () => pure ()
  | .error e =>
    if e = .exist ∧ existingIsFine = true then pure () else Act.fail (.ofRootErrno rel e)

/-- The loop of `mkdir_all`, with what is made so far. -/
def mkdirEach (root : Root) (mode : ℕ) : PathBuf → List Bytes → Act World Error Unit
  | _, [] => pure ()
  | soFar, part :: rest => do
    root.mkdir sys (soFar ++ [.normal part]) mode true
    mkdirEach root mode (soFar ++ [.normal part]) rest

/-- Create every missing directory along `rel`. -/
def mkdirAll (root : Root) (rel : PathBuf) (mode : ℕ) : Act World Error Unit := do
  let parts ← Act.lift (Fs.Root.components rel rel)
  root.mkdirEach sys mode [] parts

/-- Point a new symlink at `target`, which is stored as it is. -/
def symlink (root : Root) (target : Bytes) (rel : PathBuf) : Act World Error Unit :=
  root.at sys rel fun d n => sys.symlink d n target

/-- Metadata, without following a symlink at the leaf. -/
def metadata (root : Root) (rel : PathBuf) : Act World Error Stat := root.at sys rel sys.stat

/-- Unlink a file, or with `dir` an empty directory. -/
def remove (root : Root) (rel : PathBuf) (dir : Bool) : Act World Error Unit :=
  root.at sys rel fun d n => sys.unlink d n dir

/-- Rename inside the root, or into another root's directory. -/
def renameTo (root : Root) (rel : PathBuf) (dest : Root) (destRel : PathBuf) : Act World Error Unit := do
  let (fromDir, fromName) ← root.parentOf sys rel
  let (toDir, toName) ← dest.parentOf sys destRel
  (do let n ← nameOf fromName; let m ← nameOf toName; sys.rename fromDir n toDir m).mapErr
    (Error.ofRootErrno rel)

end Root

/-- The operations on a relative path. -/
inductive Operation
  | parentOf
  | sub
  | createFile (mode : ℕ) (exclusive : Bool)
  | openFile
  | mkdir (mode : ℕ) (existingIsFine : Bool)
  | mkdirAll (mode : ℕ)
  | symlink (target : Bytes)
  | metadata
  | remove (dir : Bool)
  | renameTo (dest : Root) (destRel : PathBuf)

namespace Operation

/-- Run an operation, whatever it gives back. -/
def run (sys : System) (root : Root) (rel : PathBuf) : Operation → Act World Error Unit
  | parentOf => do let _ ← root.parentOf sys rel
  | sub => do let _ ← root.sub sys rel
  | createFile mode exclusive => do let _ ← root.createFile sys rel mode exclusive
  | openFile => do let _ ← root.openFile sys rel
  | mkdir mode existingIsFine => root.mkdir sys rel mode existingIsFine
  | mkdirAll mode => root.mkdirAll sys rel mode
  | symlink target => root.symlink sys target rel
  | metadata => do let _ ← root.metadata sys rel
  | remove dir => root.remove sys rel dir
  | renameTo dest destRel => root.renameTo sys rel dest destRel

/-- The root of its destination. -/
def dest (root : Root) : Operation → Root
  | renameTo dest _ => dest
  | _ => root

/-- Whether an empty path is one it works on. -/
def takesEmpty : Operation → Bool
  | mkdirAll _ => true
  | _ => false

end Operation

/-! ## Where an operation acts -/

/-- What a call found was below the roots. -/
def Deed.Within (src dst : ℕ) : Deed → Prop
  | .node fs d _ => fs.Below src d ∨ fs.Below dst d
  | .move fs d _ d' _ => fs.Below src d ∧ fs.Below dst d'

/-- Every call between two states was made below the roots. -/
def Within (src dst : ℕ) (w w' : World) : Prop :=
  ∀ deed ∈ w'.deeds, deed ∈ w.deeds ∨ deed.Within src dst

/-- The others take no directory out from under the roots. -/
def System.Spares (sys : System) (src dst : ℕ) : Prop :=
  ∀ clock fs, Inodes.Changes {src, dst} fs (sys.change clock fs)

/-- Between two states the calls were made below the roots, and only the others changed anything. -/
def Walks (src dst : ℕ) (w w' : World) : Prop :=
  Inodes.Changes {src, dst} w.fs w'.fs ∧ Within src dst w w'

section

variable {sys : System} {src dst r : ℕ} {w w' w'' : World}

theorem Within.refl (src dst : ℕ) (w : World) : Within src dst w w := fun _ h => Or.inl h

theorem Within.trans (h : Within src dst w w') (h' : Within src dst w' w'') : Within src dst w w'' :=
  fun deed hdeed => (h' deed hdeed).elim (h deed) Or.inr

theorem Walks.refl (src dst : ℕ) (w : World) : Walks src dst w w :=
  ⟨Relation.ReflTransGen.refl, Within.refl src dst w⟩

theorem Walks.trans (h : Walks src dst w w') (h' : Walks src dst w' w'') : Walks src dst w w'' :=
  ⟨Relation.ReflTransGen.trans h.1 h'.1, h.2.trans h'.2⟩

/-- What is held below a root is held still. -/
theorem Walks.held (h : Walks src dst w w') (hr : r ∈ ({src, dst} : Set ℕ)) {d : ℕ}
    (hd : w.fs.Held r d) : w'.fs.Held r d := h.1.held hr hd

theorem within_node (hr : r ∈ ({src, dst} : Set ℕ)) {fs : Files} {d : ℕ} (n : Name)
    (h : fs.Below r d) : (Deed.node fs d n).Within src dst := by
  rcases hr with rfl | hr
  · exact Or.inl h
  · rw [Set.mem_singleton_iff.1 hr] at h
    exact Or.inr h

/-! ### Calls -/

variable {α : Type} {deeds : Files → List Deed} {f : Files → Except Errno (α × Files)}

/-- What a call does: the others first, and then itself where it is let through. -/
theorem call_wp (w : World) : (sys.call deeds f).wp
    (fun a w' => ∃ fs', f (sys.change w.clock w.fs) = .ok (a, fs') ∧
      w' = ⟨fs', w.clock + 1, deeds (sys.change w.clock w.fs) ++ w.deeds⟩)
    (fun _ w' => w' = ⟨sys.change w.clock w.fs, w.clock + 1, w.deeds⟩) w := by
  unfold Act.wp System.call
  cases sys.refuse w.clock with
  | some e => rfl
  | none =>
    dsimp only
    cases hf : f (sys.change w.clock w.fs) with
    | ok r => exact ⟨r.2, rfl, rfl⟩
    | error e => rfl

/-- Bytes that are no name fail, and nothing was done. -/
theorem nameOf_wp {b : Bytes} {Q : Name → World → Prop} {E : Errno → World → Prop}
    (hname : ∀ n, Q n w) (herror : ∀ e, E e w) : (nameOf b).wp Q E w := by
  rw [nameOf]
  cases toName? b with
  | none => exact herror .inval
  | some n => exact hname n

/-- A call that fails is as good as none. -/
theorem walks_failed (h : sys.Spares src dst) (w : World) :
    Walks src dst w ⟨sys.change w.clock w.fs, w.clock + 1, w.deeds⟩ :=
  ⟨h w.clock w.fs, fun _ hdeed => Or.inl hdeed⟩

/-- A call on a name in a directory below a root is made there, however it ends. -/
theorem call_within (h : sys.Spares src dst) (hr : r ∈ ({src, dst} : Set ℕ)) {d : ℕ} {n : Name}
    (hf : ∀ fs p, f fs = .ok p → fs.isDir d = true) (hd : w.fs.Held r d) :
    (sys.call (fun fs => [.node fs d n]) f).wp (fun _ w' => Within src dst w w')
      (fun _ w' => Within src dst w w') w := by
  refine Act.wp_mono (call_wp w) (fun a w' hok => ?_) (fun _ w' hfail => ?_)
  · obtain ⟨fs', hok, rfl⟩ := hok
    have hbelow := ((h w.clock w.fs).held hr hd).below_of_isDir (hf _ _ hok)
    intro deed hdeed
    rcases List.mem_cons.1 hdeed with rfl | hold
    · exact Or.inr (within_node hr n hbelow)
    · exact Or.inl hold
  · rw [hfail]
    exact (walks_failed h w).2

theorem look_eq_ok {fs : Files} {d i : ℕ} {n : Name} (h : System.look fs d n = .ok i) :
    fs.entry d n = some i := by
  rw [System.look] at h
  split at h
  · next hentry => rw [hentry, Except.ok.inj h]
  · split at h
    · exact nomatch h
    · exact nomatch h

theorem add_isDir {fs : Files} {d : ℕ} {n : Name} {x : Inode Name Node} {p : ℕ × Files}
    (h : System.add fs d n x = .ok p) : fs.isDir d = true := by
  rw [System.add] at h
  split at h
  · next hdir =>
    rw [Inodes.isDir, hdir]
    rfl
  · cases h
  · cases h

/-- **One step of the walk**: the directory that is opened is below the root when it is. -/
theorem openDir_wp (h : sys.Spares src dst) (hr : r ∈ ({src, dst} : Set ℕ)) {d : ℕ} (n : Name)
    (hd : w.fs.Held r d) : (sys.openDir d n).wp
      (fun i w' => w'.fs.Below r i ∧ Walks src dst w w') (fun _ w' => Walks src dst w w') w := by
  refine Act.wp_mono (call_wp w) (fun i w' hok => ?_) (fun _ w' hfail => ?_)
  · obtain ⟨fs', hok, rfl⟩ := hok
    obtain ⟨j, hlook, hopen⟩ := Act.except_bind_eq_ok.1 hok
    have hentry := look_eq_ok hlook
    have hbelow := ((h w.clock w.fs).held hr hd).below_of_isDir (Inodes.isDir_of_entry hentry)
    split at hopen
    · next hdir =>
      obtain ⟨rfl, rfl⟩ := Prod.mk.inj (Except.ok.inj hopen)
      refine ⟨hbelow.tail ⟨⟨n, hentry⟩, hdir⟩, h w.clock w.fs, fun deed hdeed => ?_⟩
      rcases List.mem_cons.1 hdeed with rfl | hold
      · exact Or.inr (within_node hr n hbelow)
      · exact Or.inl hold
    · exact nomatch hopen
  · rw [hfail]
    exact walks_failed h w

/-- A call that looks a name up finds a directory. -/
theorem isDir_of_look {fs : Files} {d : ℕ} {n : Name} {g : ℕ → Except Errno (α × Files)} {p : α × Files}
    (h : (System.look fs d n >>= g) = .ok p) : fs.isDir d = true := by
  obtain ⟨i, hlook, -⟩ := Act.except_bind_eq_ok.1 h
  exact Inodes.isDir_of_entry (look_eq_ok hlook)

theorem isDir_of_add {fs : Files} {d : ℕ} {n : Name} {x : Inode Name Node}
    {g : ℕ × Files → Except Errno (α × Files)} {p : α × Files}
    (h : (System.add fs d n x >>= g) = .ok p) : fs.isDir d = true := by
  obtain ⟨q, hadd, -⟩ := Act.except_bind_eq_ok.1 h
  exact add_isDir hadd

/-- A node is moved from a directory to a directory. -/
theorem isDir_of_move {fs : Files} {d d' : ℕ} {n m : Name} {p : Unit × Files}
    (h : System.move fs d n d' m = .ok p) : fs.isDir d = true ∧ fs.isDir d' = true := by
  refine ⟨isDir_of_look h, ?_⟩
  obtain ⟨i, -, hmove⟩ := Act.except_bind_eq_ok.1 h
  split at hmove
  · next hdir =>
    rw [Inodes.isDir, hdir]
    rfl
  · cases hmove
  · cases hmove

/-- A call on a name in a directory is made below the root, where the directory is. -/
def Stays (src dst r : ℕ) (call : ℕ → Name → Act World Errno α) : Prop :=
  ∀ d n (w : World), w.fs.Held r d → (call d n).wp (fun _ w' => Within src dst w w')
    (fun _ w' => Within src dst w w') w

section

variable (h : sys.Spares src dst) (hr : r ∈ ({src, dst} : Set ℕ))

include h hr

theorem stays_openRead : Stays src dst r sys.openRead := fun _ _ _ hd =>
  call_within h hr (fun _ _ hok => isDir_of_look hok) hd

theorem stays_createFile (mode : ℕ) (exclusive : Bool) : Stays src dst r fun d n =>
    if exclusive then sys.createNew d n mode else sys.createTrunc d n mode := by
  intro d n w hd
  cases exclusive with
  | true => exact call_within h hr (fun _ _ hok => add_isDir hok) hd
  | false =>
    have hfinds : ∀ fs p, (match Inodes.entry fs d n with
        | none => System.add fs d n (.leaf (.file (sys.fileMode mode) .owner []))
        | some i =>
          match fs[i]? with
          | some (.leaf (.symlink _)) => .error .loop
          | some (.leaf nd) => .ok (i, fs.set i (.leaf (nd.setBytes [])))
          | some (.dir ..) => .error .isdir
          | _ => .error .noent) = .ok p → fs.isDir d = true := by
      intro fs p hok
      cases hentry : fs.entry d n with
      | some i => exact Inodes.isDir_of_entry hentry
      | none =>
        rw [hentry] at hok
        exact add_isDir hok
    exact call_within h hr hfinds hd

theorem stays_mkdir (mode : ℕ) : Stays src dst r fun d n => sys.mkdir d n mode := fun _ _ _ hd =>
  call_within h hr (fun _ _ hok => isDir_of_add hok) hd

theorem stays_symlink (target : Bytes) : Stays src dst r fun d n => sys.symlink d n target :=
  fun _ _ _ hd => call_within h hr (fun _ _ hok => isDir_of_add hok) hd

theorem stays_stat : Stays src dst r sys.stat := fun _ _ _ hd =>
  call_within h hr (fun _ _ hok => isDir_of_look hok) hd

theorem stays_unlink (dir : Bool) : Stays src dst r fun d n => sys.unlink d n dir := fun _ _ _ hd =>
  call_within h hr (fun _ _ hok => isDir_of_look hok) hd

/-! ### Operations -/

/-- **The walk**: from a directory below the root it comes to one below the root, whatever the others
do between its steps. -/
theorem descend_wp (rel : PathBuf) (cur : ℕ) (parts : List Bytes) (w : World)
    (hcur : w.fs.Below r cur) : (Root.descend sys rel cur parts).wp
      (fun d w' => w'.fs.Below r d ∧ Walks src dst w w') (fun _ w' => Walks src dst w w') w := by
  induction parts generalizing cur w with
  | nil => exact ⟨hcur, Walks.refl src dst w⟩
  | cons part rest ih =>
    rw [Root.descend, Act.wp_bind, Act.wp_mapErr]
    refine nameOf_wp (fun n => ?_) (fun _ => Walks.refl src dst w)
    rw [Act.wp_bind, Act.wp_mapErr]
    refine Act.wp_mono (openDir_wp h hr n (Or.inl hcur)) (fun next w' hopen => ?_) (fun _ _ hw => hw)
    exact Act.wp_mono (ih next w' hopen.1) (fun _ _ hrest => ⟨hrest.1, hopen.2.trans hrest.2⟩)
      (fun _ _ hrest => hopen.2.trans hrest)

theorem parentOf_wp {root : Root} (hroot : root.dir = r) (rel : PathBuf) (w : World) :
    (root.parentOf sys rel).wp (fun p w' => w'.fs.Below r p.1 ∧ Walks src dst w w')
      (fun _ w' => Walks src dst w w') w := by
  rw [Root.parentOf, Act.wp_bind]
  cases Fs.Root.components rel rel with
  | error e => exact Walks.refl src dst w
  | ok parts =>
    rw [Act.lift_ok, Act.wp_pure]
    cases parts.getLast? with
    | none => exact Walks.refl src dst w
    | some last =>
      dsimp only
      rw [Act.wp_bind, Act.wp_mapErr]
      refine Act.wp_mono (call_wp w) (fun _ w' hdup => ?_) (fun _ w' hfail => ?_)
      · obtain ⟨fs', hok, rfl⟩ := hdup
        obtain ⟨-, rfl⟩ := Prod.mk.inj (Except.ok.inj hok)
        have hhere := walks_failed h w
        rw [Act.wp_bind]
        refine Act.wp_mono (descend_wp h hr rel root.dir parts.dropLast _ (hroot ▸ .refl))
          (fun _ _ hwalk => ⟨hwalk.1, hhere.trans hwalk.2⟩) (fun _ _ hwalk => hhere.trans hwalk)
      · rw [hfail]
        exact walks_failed h w

/-- An operation on one name in the directory of its path. -/
theorem at_wp {root : Root} (hroot : root.dir = r) {call : ℕ → Name → Act World Errno α}
    (hcall : Stays src dst r call) (rel : PathBuf) (w : World) :
    (root.at sys rel call).wp (fun _ w' => Within src dst w w') (fun _ w' => Within src dst w w') w := by
  rw [Root.at, Act.wp_bind]
  refine Act.wp_mono (parentOf_wp h hr hroot rel w) (fun p w' hparent => ?_) (fun _ _ hw => hw.2)
  obtain ⟨hbelow, hwalk⟩ := hparent
  rw [Act.wp_mapErr, Act.wp_bind]
  refine nameOf_wp (fun n => ?_) (fun _ => hwalk.2)
  exact Act.wp_mono (hcall p.1 n w' (Or.inl hbelow)) (fun _ _ hw => hwalk.2.trans hw)
    (fun _ _ hw => hwalk.2.trans hw)

theorem mkdir_wp {root : Root} (hroot : root.dir = r) (rel : PathBuf) (mode : ℕ) (fine : Bool)
    (w : World) : (root.mkdir sys rel mode fine).wp (fun _ w' => Within src dst w w')
      (fun _ w' => Within src dst w w') w := by
  rw [Root.mkdir, Act.wp_bind]
  refine Act.wp_mono (parentOf_wp h hr hroot rel w) (fun p w' hparent => ?_) (fun _ _ hw => hw.2)
  obtain ⟨hbelow, hwalk⟩ := hparent
  have hend : ∀ (e : Errno) w'', Within src dst w w'' →
      Act.wp (if e = .exist ∧ fine = true then pure () else Act.fail (Error.ofRootErrno rel e))
        (fun _ w' => Within src dst w w') (fun _ w' => Within src dst w w') w'' := by
    intro e w'' hw
    split
    · exact hw
    · exact hw
  rw [Act.wp_bind, Act.wp_attempt, Act.wp_bind]
  refine nameOf_wp (fun n => ?_) (fun e => hend e _ hwalk.2)
  exact Act.wp_mono (stays_mkdir h hr mode p.1 n w' (Or.inl hbelow))
    (fun _ _ hw => hwalk.2.trans hw) (fun e _ hw => hend e _ (hwalk.2.trans hw))

theorem mkdirEach_wp {root : Root} (hroot : root.dir = r) (mode : ℕ) (soFar : PathBuf)
    (parts : List Bytes) (w : World) : (root.mkdirEach sys mode soFar parts).wp
      (fun _ w' => Within src dst w w') (fun _ w' => Within src dst w w') w := by
  induction parts generalizing soFar w with
  | nil => exact Within.refl src dst w
  | cons part rest ih =>
    rw [Root.mkdirEach, Act.wp_bind]
    refine Act.wp_mono (mkdir_wp h hr hroot _ mode true w) (fun _ w' hmade => ?_) (fun _ _ hw => hw)
    exact Act.wp_mono (ih _ w') (fun _ _ hw => hmade.trans hw) (fun _ _ hw => hmade.trans hw)

omit hr in
/-- A rename is made between two directories below their roots. -/
theorem renameTo_wp {root dest : Root} (hroot : root.dir = src) (hdest : dest.dir = dst)
    (rel destRel : PathBuf) (w : World) : (root.renameTo sys rel dest destRel).wp
      (fun _ w' => Within src dst w w') (fun _ w' => Within src dst w w') w := by
  have hsrc : src ∈ ({src, dst} : Set ℕ) := Or.inl rfl
  have hdst : dst ∈ ({src, dst} : Set ℕ) := Or.inr rfl
  rw [Root.renameTo, Act.wp_bind]
  refine Act.wp_mono (parentOf_wp h hsrc hroot rel w) (fun p w' hfrom => ?_) (fun _ _ hw => hw.2)
  rw [Act.wp_bind]
  refine Act.wp_mono (parentOf_wp h hdst hdest destRel w') (fun q w'' hto => ?_)
    (fun _ _ hw => hfrom.2.2.trans hw.2)
  have hhere : Within src dst w w'' := hfrom.2.2.trans hto.2.2
  have hheld := hto.2.held hsrc (Or.inl hfrom.1)
  rw [Act.wp_mapErr, Act.wp_bind]
  refine nameOf_wp (fun n => ?_) (fun _ => hhere)
  rw [Act.wp_bind]
  refine nameOf_wp (fun m => ?_) (fun _ => hhere)
  refine Act.wp_mono (call_wp w'') (fun _ w₃ hok => ?_) (fun _ w₃ hfail => ?_)
  · obtain ⟨fs', hok, rfl⟩ := hok
    have hchange := h w''.clock w''.fs
    have hfromDir := (hchange.held hsrc hheld).below_of_isDir (isDir_of_move hok).1
    have htoDir := (hchange.held hdst (Or.inl hto.1)).below_of_isDir (isDir_of_move hok).2
    refine hhere.trans fun deed hdeed => ?_
    rcases List.mem_cons.1 hdeed with rfl | hold
    · exact Or.inr ⟨hfromDir, htoDir⟩
    · exact Or.inl hold
  · rw [hfail]
    exact hhere.trans (walks_failed h w'').2

/-- The directory of a new root is below the old one. -/
theorem sub_wp {root : Root} (hroot : root.dir = r) (rel : PathBuf) (w : World) :
    (root.sub sys rel).wp (fun sub w' => w'.fs.Below r sub.dir ∧ Within src dst w w')
      (fun _ w' => Within src dst w w') w := by
  rw [Root.sub, Act.wp_bind, Root.at, Act.wp_bind]
  refine Act.wp_mono (parentOf_wp h hr hroot rel w) (fun p w' hparent => ?_) (fun _ _ hw => hw.2)
  obtain ⟨hbelow, hwalk⟩ := hparent
  rw [Act.wp_mapErr, Act.wp_bind]
  refine nameOf_wp (fun n => ?_) (fun _ => hwalk.2)
  exact Act.wp_mono (openDir_wp h hr n (Or.inl hbelow))
    (fun _ _ hopen => ⟨hopen.1, hwalk.2.trans hopen.2.2⟩) (fun _ _ hw => hwalk.2.trans hw.2)

end

end

/-! ## What is refused -/

/-- A path that could leave the root. -/
def Escaping (rel : PathBuf) : Prop := .parentDir ∈ rel ∨ .rootDir ∈ rel

/-- A path with no name in it. -/
def Empty (rel : PathBuf) : Prop := ∀ c ∈ rel, c = .curDir

theorem components_escaping {full rel : PathBuf} (h : Escaping rel) :
    ∃ e, Fs.Root.components full rel = .error e := by
  induction rel with
  | nil => exact h.elim (fun hmem => absurd hmem List.not_mem_nil) fun hmem => absurd hmem List.not_mem_nil
  | cons c rel ih =>
    cases c with
    | rootDir => exact ⟨_, rfl⟩
    | parentDir => exact ⟨_, rfl⟩
    | curDir => exact ih (by simpa [Escaping] using h)
    | normal b =>
      obtain ⟨e, he⟩ := ih (by simpa [Escaping] using h)
      exact ⟨e, by rw [Fs.Root.components, he]; rfl⟩

theorem components_empty {full rel : PathBuf} (h : Empty rel) :
    Fs.Root.components full rel = .ok [] := by
  induction rel with
  | nil => rfl
  | cons c rel ih =>
    obtain ⟨rfl, hrel⟩ := List.forall_mem_cons.1 h
    exact ih hrel

section

variable {sys : System} {root : Root} {rel : PathBuf} {w : World}

/-- A path that could leave the root is refused by the walk before a call is made, and so is one that
names nothing. -/
theorem parentOf_escaping (h : Escaping rel) :
    ∃ e, ∀ w, root.parentOf sys rel w = (.error e, w) := by
  obtain ⟨e, he⟩ := @components_escaping rel rel h
  exact ⟨e, fun w => by rw [Root.parentOf, he]; rfl⟩

theorem parentOf_empty (h : Empty rel) (w : World) :
    root.parentOf sys rel w = (.error (.badRequest [.str "empty path"]), w) := by
  rw [Root.parentOf, components_empty h]
  rfl

/-- What the walk refuses is refused by every operation but `mkdir_all`, which does not begin with it. -/
theorem run_refused {e : Error} (h : ∀ w, root.parentOf sys rel w = (.error e, w)) (op : Operation)
    (hop : op.takesEmpty = false) (w : World) : op.run sys root rel w = (.error e, w) := by
  have hat : ∀ {α : Type} (call : ℕ → Name → Act World Errno α),
      root.at sys rel call w = (.error e, w) := fun call => by
    rw [Root.at, Act.bind_of_error (h w)]
  cases op with
  | parentOf => exact Act.bind_of_error (h w) _
  | sub =>
    refine Act.bind_of_error ?_ _
    rw [Root.sub, Act.bind_of_error (hat _)]
  | createFile mode exclusive => exact Act.bind_of_error (hat _) _
  | openFile => exact Act.bind_of_error (hat _) _
  | mkdir mode fine => exact Act.bind_of_error (h w) _
  | mkdirAll mode => exact nomatch hop
  | symlink target => exact hat fun d n => sys.symlink d n target
  | metadata => exact Act.bind_of_error (hat _) _
  | remove dir => exact hat fun d n => sys.unlink d n dir
  | renameTo dest destRel => exact Act.bind_of_error (h w) _

theorem run_escaping (h : Escaping rel) (op : Operation) (w : World) :
    ∃ e, op.run sys root rel w = (.error e, w) := by
  cases hop : op.takesEmpty with
  | false =>
    obtain ⟨e, he⟩ := @parentOf_escaping sys root rel h
    exact ⟨e, run_refused he op hop w⟩
  | true =>
    cases op with
    | mkdirAll mode =>
      obtain ⟨e, he⟩ := @components_escaping rel rel h
      refine ⟨e, ?_⟩
      show Root.mkdirAll sys root rel mode w = _
      rw [Root.mkdirAll, he]
      rfl
    | _ => exact nomatch hop

theorem run_empty (h : Empty rel) (op : Operation) (w : World) :
    op.run sys root rel w =
      if op.takesEmpty then (.ok (), w) else (.error (.badRequest [.str "empty path"]), w) := by
  cases hop : op.takesEmpty with
  | false => exact run_refused (parentOf_empty h) op hop w
  | true =>
    cases op with
    | mkdirAll mode =>
      show Root.mkdirAll sys root rel mode w = _
      rw [Root.mkdirAll, components_empty h]
      rfl
    | _ => exact nomatch hop

/-- **A root is never left**: every call an operation makes finds its names in a directory that is below
the root at that moment, whatever the others do between the calls, as long as they take no directory out
from under it; and so are the directories that are handed back. A path with `..` and an absolute one are
refused before any call, and so is an empty one, but for `mkdir_all`, which makes nothing of it. A
destination that is so is refused when the source was walked to, and nothing was changed. -/
theorem never_left (sys : System) (root : Root) (rel : PathBuf) (op : Operation) (w : World)
    (h : sys.Spares root.dir (op.dest root).dir) :
    Within root.dir (op.dest root).dir w (op.run sys root rel w).2 ∧
    (∀ p w', root.parentOf sys rel w = (.ok p, w') → w'.fs.Below root.dir p.1) ∧
    (∀ sub w', root.sub sys rel w = (.ok sub, w') → w'.fs.Below root.dir sub.dir) ∧
    (Escaping rel → ∃ e, op.run sys root rel w = (.error e, w)) ∧
    (Empty rel → op.run sys root rel w =
      if op.takesEmpty then (.ok (), w) else (.error (.badRequest [.str "empty path"]), w)) ∧
    (∀ dest destRel, op = .renameTo dest destRel → Escaping destRel ∨ Empty destRel →
      (∃ e, (op.run sys root rel w).1 = .error e) ∧
        Inodes.Changes {root.dir, dest.dir} w.fs (op.run sys root rel w).2.fs) := by
  have hr : root.dir ∈ ({root.dir, (op.dest root).dir} : Set ℕ) := Or.inl rfl
  refine ⟨?_, ?_, ?_, fun hrel => run_escaping hrel op w, fun hrel => run_empty hrel op w, ?_⟩
  · apply Act.wp_state
    cases op with
    | parentOf =>
      rw [Operation.run, Act.wp_bind]
      exact Act.wp_mono (parentOf_wp h hr rfl rel w) (fun _ _ hw => hw.2.2) (fun _ _ hw => hw.2)
    | sub =>
      rw [Operation.run, Act.wp_bind]
      exact Act.wp_mono (sub_wp h hr rfl rel w) (fun _ _ hw => hw.2) (fun _ _ hw => hw)
    | createFile mode exclusive =>
      rw [Operation.run, Act.wp_bind]
      exact at_wp h hr rfl (stays_createFile h hr mode exclusive) rel w
    | openFile =>
      rw [Operation.run, Act.wp_bind]
      exact at_wp h hr rfl (stays_openRead h hr) rel w
    | mkdir mode fine => exact mkdir_wp h hr rfl rel mode fine w
    | mkdirAll mode =>
      rw [Operation.run, Root.mkdirAll, Act.wp_bind]
      cases Fs.Root.components rel rel with
      | error e => exact Within.refl _ _ w
      | ok parts => exact mkdirEach_wp h hr rfl mode [] parts w
    | symlink target => exact at_wp h hr rfl (stays_symlink h hr target) rel w
    | metadata =>
      rw [Operation.run, Act.wp_bind]
      exact at_wp h hr rfl (stays_stat h hr) rel w
    | remove dir => exact at_wp h hr rfl (stays_unlink h hr dir) rel w
    | renameTo dest destRel => exact renameTo_wp h rfl rfl rel destRel w
  · intro p w' hrun
    exact (Act.wp_ok (parentOf_wp h hr rfl rel w) hrun).1
  · intro sub w' hrun
    exact (Act.wp_ok (sub_wp h hr rfl rel w) hrun).1
  · intro dest destRel hop hdest
    subst hop
    have hto : ∃ e, ∀ w, dest.parentOf sys destRel w = (.error e, w) := by
      rcases hdest with hdest | hdest
      · exact parentOf_escaping hdest
      · exact ⟨_, parentOf_empty hdest⟩
    obtain ⟨e, he⟩ := hto
    have hwalk := parentOf_wp h hr rfl rel w
    show (∃ e, (Root.renameTo sys root rel dest destRel w).1 = .error e) ∧ _
    cases hfrom : root.parentOf sys rel w with
    | mk out w' =>
      cases out with
      | error e' =>
        have hrun : Root.renameTo sys root rel dest destRel w = (.error e', w') := by
          rw [Root.renameTo, Act.bind_of_error hfrom]
        show _ ∧ Inodes.Changes _ w.fs (Root.renameTo sys root rel dest destRel w).2.fs
        rw [hrun]
        exact ⟨⟨e', rfl⟩, (Act.wp_error hwalk hfrom).1⟩
      | ok p =>
        have hrun : Root.renameTo sys root rel dest destRel w = (.error e, w') := by
          rw [Root.renameTo, Act.bind_of_ok hfrom]
          exact Act.bind_of_error (he w') _
        show _ ∧ Inodes.Changes _ w.fs (Root.renameTo sys root rel dest destRel w).2.fs
        rw [hrun]
        exact ⟨⟨e, rfl⟩, (Act.wp_ok hwalk hfrom).2.1⟩

/-! ### Taken out from under a root -/

theorem isName_letters : IsName [97] ∧ IsName [98] ∧ IsName [99] := by decide

abbrev nameA : Name := ⟨[97], isName_letters.1⟩

abbrev nameB : Name := ⟨[98], isName_letters.2.1⟩

abbrev nameC : Name := ⟨[99], isName_letters.2.2⟩

/-- A directory that holds a root, 1, and another directory, 2; in the root, 3, and in it, 4. -/
def twoRoots : Files :=
  [.dir (.dir 0o755 .owner) [(nameA, 1), (nameB, 2)], .dir (.dir 0o755 .owner) [(nameA, 3)],
    .dir (.dir 0o755 .owner) [], .dir (.dir 0o755 .owner) [(nameB, 4)], .dir (.dir 0o755 .owner) []]

/-- The directory in the root is moved to another with a new name, and a link is put in its place. -/
def replaced (d : ℕ) (m : Name) : Files :=
  (((twoRoots.modify 1 (.unlink nameA)).modify d (.link m 3)) ++
    [Inode.leaf (Node.symlink [slash])]).modify 1 (.link nameA 5)

/-- A system in which nothing fails and nobody else is. -/
def calm : System := ⟨fun _ => none, fun _ fs => fs, 0o022⟩

/-- A system in which, before the third call, a component is replaced. -/
def swaps (d : ℕ) (m : Name) : System :=
  { calm with change := fun clock fs => if clock = 2 ∧ fs = twoRoots then replaced d m else fs }

/-- The root in them. -/
def inner : Root := ⟨1, []⟩

/-- Other processes can replace the component, as far as they spare the roots. -/
theorem changes_replaced {roots : Set ℕ} {d : ℕ} {m : Name} (hfree : twoRoots.entry d m = none)
    (hdir : twoRoots.isDir d = true) (hloop : d ≠ 3 ∧ d ≠ 4)
    (hin : ∀ r ∈ roots, twoRoots.Below r 1 → twoRoots.Below r d)
    (htaken : d = 1 → m ≠ nameA) : Inodes.Changes roots twoRoots (replaced d m) := by
  have hnot : ¬twoRoots.Below 3 d := by
    intro hbelow
    have hclosed : d = 3 ∨ d = 4 := by
      refine Inodes.Below.closed (P := fun i => i = 3 ∨ i = 4) ?_ (Or.inl rfl) hbelow
      intro e he n c hc
      rcases he with rfl | rfl
      · have hmem : (n, c) ∈ [(nameB, 4)] := Inode.mem_of_entry (c := Node.dir 0o755 .owner) hc
        exact Or.inr (Prod.mk.inj (List.mem_singleton.1 hmem)).2
      · exact nomatch hc
    exact hclosed.elim hloop.1 hloop.2
  have hmoved : Inodes.Change roots twoRoots _ :=
    Inodes.Change.rename (d := 1) (n := nameA) (by decide) hfree hdir hnot fun _ => hin
  have hagain : Inodes.entry ((twoRoots.modify 1 (.unlink nameA)).modify d (.link m 3)) 1 nameA =
      none := by
    rw [Inodes.entry_link, if_neg, Inodes.entry_unlink, if_pos ⟨rfl, rfl⟩]
    intro hand
    exact htaken hand.1.symm hand.2.1.symm
  have hlen : ((twoRoots.modify 1 (.unlink nameA)).modify d (.link m 3)).length = 5 := by
    rw [List.length_modify, List.length_modify]
    rfl
  have hput : Inodes.Change roots _ _ :=
    Inodes.Change.create (x := Inode.leaf (Node.symlink [slash])) hagain ⟨nofun, fun _ => rfl⟩
  rw [hlen] at hput
  exact (Relation.ReflTransGen.single hmoved).tail hput

/-- Where the directory is moved within the root, the operation stays below it. -/
theorem never_left_swapped :
    ((Operation.mkdir 0o755 false).run (swaps 1 nameC) inner
        [.normal [97], .normal [98], .normal [99]] ⟨twoRoots, 0, []⟩).1 = .ok () ∧
      Within 1 1 ⟨twoRoots, 0, []⟩ ((Operation.mkdir 0o755 false).run (swaps 1 nameC) inner
        [.normal [97], .normal [98], .normal [99]] ⟨twoRoots, 0, []⟩).2 := by
  refine ⟨by decide, (never_left (swaps 1 nameC) inner _ (.mkdir 0o755 false) _ ?_).1⟩
  intro clock fs
  show Inodes.Changes {1, 1} fs (if clock = 2 ∧ fs = twoRoots then replaced 1 nameC else fs)
  split
  · next hwhen =>
    rw [hwhen.2]
    exact changes_replaced (by decide) (by decide) (by decide) (fun _ _ h => h) (by decide)
  · exact Relation.ReflTransGen.refl

/-- Where other processes move the directory out from under the root and put a link in its place, the
operation goes on in it. An empty path is not refused, and calls are made before a destination is. -/
theorem root_left :
    Inodes.Changes ∅ twoRoots (replaced 2 nameC) ∧
      (Deed.node (replaced 2 nameC) 4 nameC ∈
          (inner.mkdir (swaps 2 nameC) [.normal [97], .normal [98], .normal [99]] 0o755 false
            ⟨twoRoots, 0, []⟩).2.deeds ∧ ¬(replaced 2 nameC).Below 1 4) ∧
      inner.mkdirAll calm [] 0o755 ⟨twoRoots, 0, []⟩ = (.ok (), ⟨twoRoots, 0, []⟩) ∧
      (inner.renameTo calm [.normal [97], .normal [98]] inner [.parentDir]
        ⟨twoRoots, 0, []⟩).2.clock = 2 := by
  refine ⟨changes_replaced (by decide) (by decide) (by decide)
    (fun _ hr => absurd hr (Set.notMem_empty _)) (by decide), ⟨by decide, ?_⟩, rfl,
    by decide⟩
  intro hbelow
  have hclosed : 4 = 1 ∨ 4 = 5 := by
    refine Inodes.Below.closed (P := fun i => i = 1 ∨ i = 5) ?_ (Or.inl rfl) hbelow
    intro d hd n c hc
    rcases hd with rfl | rfl
    · have hmem : (n, c) ∈ [(nameA, 5)] := Inode.mem_of_entry (c := Node.dir 0o755 .owner) hc
      exact Or.inr (Prod.mk.inj (List.mem_singleton.1 hmem)).2
    · exact nomatch hc
  exact absurd hclosed (by decide)

end

end Aurade.Fs.Live
