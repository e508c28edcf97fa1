import Aurade.Foundations.Act
import Aurade.Fs.Error

/-!
# The kernel

What the program asks of the kernel, as computations over a `World`: the file tree, a clock that
counts the calls made, and the running job (the reports made so far, and the `Progress` and
`Outcome` the source passes on by reference).

A `Kernel` says what is not in the tree. It may refuse any call at any moment with any errno
(`refuse`), which covers permissions, a failing disk and a name too long alike; it decides which
renames cross a file system (`crosses`, where `renameat` answers EXDEV, and no other call does),
which directories may be searched, whether a file can be cloned, how much of a failed write arrived,
the mask on new modes, the free space, and how many directories deep a recursion can go before the
process is out of descriptors. A call that is let through does what `Aurade.Fs.Tree` says.

`query_spec` and `change_spec` are all that later modules know of a call.
-/

namespace Aurade.Fs

/-- The answer a progress callback gives back. -/
inductive Flow
  | continue
  | cancel
  deriving DecidableEq

/-- Where a job has got to. -/
structure Progress where
  totalBytes : ℕ := 0
  doneBytes : ℕ := 0
  totalItems : ℕ := 0
  doneItems : ℕ := 0
  current : PathBuf := []
  deriving DecidableEq

/-- What a finished job did. -/
structure Outcome where
  written : List PathBuf := []
  skipped : List PathBuf := []
  renamed : List (PathBuf × PathBuf) := []
  bytes : ℕ := 0
  items : ℕ := 0
  cancelled : Bool := false
  deriving DecidableEq

/-- A progress callback. It is handed all the reports of the job, the newest first: what it answers
may depend on everything it has been told. -/
abbrev Reporter := List Progress → Flow

/-- `silent`: a reporter for callers that do not care. -/
def silent : Reporter := fun _ => .continue

/-- What the source passes on by reference while a job runs, and the reports it made. -/
structure Job where
  seen : List Progress := []
  progress : Progress := {}
  out : Outcome := {}
  deriving DecidableEq

/-- The state of the system and of the running job. -/
structure World where
  fs : Tree
  clock : ℕ := 0
  job : Job := {}

namespace World

/-- One more call was made. -/
def tick (w : World) : World := { w with clock := w.clock + 1 }

/-- One more call was made, and it left the tree `t`. -/
def turn (w : World) (t : Tree) : World := { w.tick with fs := t }

/-- The state with these nodes, before any job. -/
def ofList (nodes : List (Path × Node)) : World := { fs := Tree.ofList nodes }

@[simp] theorem tick_fs (w : World) : w.tick.fs = w.fs := rfl
@[simp] theorem tick_job (w : World) : w.tick.job = w.job := rfl
@[simp] theorem turn_fs (w : World) (t : Tree) : (w.turn t).fs = t := rfl
@[simp] theorem turn_job (w : World) (t : Tree) : (w.turn t).job = w.job := rfl

end World

/-- A call of the kernel, by the places it is about. -/
inductive Op
  | open (p : Path)
  | stat (p : Path)
  | list (p : Path)
  | create (p : Path)
  | read (p : Path)
  | write (p : Path)
  | clone (p q : Path)
  | chmod (p : Path)
  | mkdir (p : Path)
  | symlink (p : Path)
  | readlink (p : Path)
  | unlink (p : Path)
  | rmdir (p : Path)
  | rename (p q : Path)
  deriving DecidableEq

/-- What decides about calls beside the tree. -/
structure Kernel where
  refuse : ℕ → Op → Tree → Option Errno
  refuse_ne_xdev : ∀ n op t, refuse n op t ≠ some .xdev
  search : Path → Node → Bool
  crosses : Path → Path → Bool
  clones : Path → Path → Bool
  wrote : ℕ → ℕ
  umask : ℕ
  usage : ℕ → Path → Option ℕ
  levels : ℕ

namespace Kernel

/-- A kernel that refuses nothing, on one file system that clones no files. -/
def calm (levels : ℕ) : Kernel where
  refuse _ _ _ := none
  refuse_ne_xdev _ _ _ := by simp
  search _ _ := true
  crosses _ _ := false
  clones _ _ := false
  wrote _ := 0
  umask := 0o022
  usage _ _ := none
  levels := levels

/-- The same kernel, with another file system below each top directory. -/
def mounts (levels : ℕ) : Kernel :=
  { calm levels with crosses := fun p q => decide (p.head? ≠ q.head?) }

variable (k : Kernel)

/-- The mode a new file gets. -/
def fileMode (mode : ℕ) : ℕ := mode &&& 0o7777 &&& (0o7777 ^^^ (k.umask &&& 0o777))

/-- The mode a new directory gets: `mkdir` takes the permission and sticky bits only. -/
def dirMode (mode : ℕ) : ℕ := mode &&& 0o1777 &&& (0o7777 ^^^ (k.umask &&& 0o777))

/-! ## Calls -/

variable {α : Type}

/-- A call that reads the tree. -/
def query (op : Op) (f : Tree → Except Errno α) : Act World Errno α := fun w =>
  match k.refuse w.clock op w.fs with
  | some e => (.error e, w.tick)
  | none => (f w.fs, w.tick)

/-- A call that changes the tree when it succeeds. -/
def change (op : Op) (f : Tree → Except Errno Tree) : Act World Errno Unit := fun w =>
  match k.refuse w.clock op w.fs with
  | some e => (.error e, w.tick)
  | none =>
    match f w.fs with
    | .ok t => (.ok (), w.turn t)
    | .error e => (.error e, w.tick)

section Spec

variable {k} {op : Op} {w : World}

theorem query_refused {f : Tree → Except Errno α} {e : Errno}
    (hr : k.refuse w.clock op w.fs = some e) : k.query op f w = (.error e, w.tick) := by
  simp [query, hr]

theorem query_run {f : Tree → Except Errno α} (hr : k.refuse w.clock op w.fs = none) :
    k.query op f w = (f w.fs, w.tick) := by
  simp [query, hr]

theorem change_refused {f : Tree → Except Errno Tree} {e : Errno}
    (hr : k.refuse w.clock op w.fs = some e) : k.change op f w = (.error e, w.tick) := by
  simp [change, hr]

theorem change_run {f : Tree → Except Errno Tree} {t : Tree}
    (hr : k.refuse w.clock op w.fs = none) (hf : f w.fs = .ok t) :
    k.change op f w = (.ok (), w.turn t) := by
  simp [change, hr, hf]

theorem change_error {f : Tree → Except Errno Tree} {e : Errno}
    (hr : k.refuse w.clock op w.fs = none) (hf : f w.fs = .error e) :
    k.change op f w = (.error e, w.tick) := by
  simp [change, hr, hf]

end Spec

theorem query_spec (op : Op) (f : Tree → Except Errno α) (w : World) :
    (k.query op f).wp (fun a w' => w' = w.tick ∧ f w.fs = .ok a)
      (fun e w' => w' = w.tick ∧ (k.refuse w.clock op w.fs = some e ∨ f w.fs = .error e)) w := by
  cases hr : k.refuse w.clock op w.fs with
  | some e => exact Act.wp_of_error (query_refused hr) ⟨rfl, Or.inl rfl⟩
  | none =>
    have hrun := query_run (f := f) hr
    cases hf : f w.fs with
    | ok a => exact Act.wp_of_ok (hf ▸ hrun) ⟨rfl, rfl⟩
    | error e => exact Act.wp_of_error (hf ▸ hrun) ⟨rfl, Or.inr rfl⟩

theorem change_spec (op : Op) (f : Tree → Except Errno Tree) (w : World) :
    (k.change op f).wp (fun _ w' => ∃ t, f w.fs = .ok t ∧ w' = w.turn t)
      (fun e w' => w' = w.tick ∧ (k.refuse w.clock op w.fs = some e ∨ f w.fs = .error e)) w := by
  cases hr : k.refuse w.clock op w.fs with
  | some e => exact Act.wp_of_error (change_refused hr) ⟨rfl, Or.inl rfl⟩
  | none =>
    cases hf : f w.fs with
    | ok t => exact Act.wp_of_ok (change_run hr hf) ⟨t, rfl, rfl⟩
    | error e => exact Act.wp_of_error (change_error hr hf) ⟨rfl, Or.inr rfl⟩

/-- The node at a place, or why there is none. -/
def node (t : Tree) (p : Path) (n : Name) : Except Errno Node :=
  match t.get (p ++ [n]) with
  | some node => .ok node
  | none => .error (if t.isBranch p || (t.get p).isNone then .noent else .notdir)

theorem node_ok_iff {t : Tree} {p : Path} {n : Name} {nd : Node} :
    node t p n = .ok nd ↔ t.get (p ++ [n]) = some nd := by
  unfold node
  split <;> simp_all

/-- `statat` without following. -/
def stat (p : Path) (n : Name) : Act World Errno Stat :=
  k.query (.stat (p ++ [n])) fun t => (node t p n).map Node.stat

/-- `openat` with `O_DIRECTORY | O_NOFOLLOW`: Linux answers ENOTDIR for a link. -/
def openDir (p : Path) (n : Name) : Act World Errno Unit :=
  k.query (.open (p ++ [n])) fun t => do
    let nd ← node t p n
    if nd.isDir then pure () else .error .notdir

/-- `openat` for reading with `O_NOFOLLOW`. -/
def openRead (p : Path) (n : Name) : Act World Errno Unit :=
  k.query (.open (p ++ [n])) fun t => do
    let nd ← node t p n
    if nd.isSymlink then .error .loop else pure ()

/-- The names in a directory that is open. -/
def list (p : Path) : Act World Errno (List Name) :=
  k.query (.list p) fun t => if t.isBranch p then .ok (t.names p) else .error .noent

/-- `len` bytes of an open file from `pos` on, or as many as there are. -/
def read (p : Path) (pos len : ℕ) : Act World Errno Bytes :=
  k.query (.read p) fun t =>
    match t.get p with
    | some (.file _ _ b) => .ok ((b.drop pos).take len)
    | some (.dir ..) => .error .isdir
    | _ => .error .inval

/-- `readlinkat`. -/
def readlink (p : Path) (n : Name) : Act World Errno Bytes :=
  k.query (.readlink (p ++ [n])) fun t => do
    match ← node t p n with
    | .symlink target => pure target
    | _ => .error .inval

/-- `openat` with `O_CREAT | O_EXCL`. -/
def createNew (p : Path) (n : Name) (mode : ℕ) : Act World Errno Unit :=
  k.change (.create (p ++ [n])) fun t => t.add p n (.file (k.fileMode mode) .owner [])

/-- `openat` with `O_CREAT | O_TRUNC | O_NOFOLLOW`. -/
def createTrunc (p : Path) (n : Name) (mode : ℕ) : Act World Errno Unit :=
  k.change (.create (p ++ [n])) fun t =>
    match t.get (p ++ [n]) with
    | none => t.add p n (.file (k.fileMode mode) .owner [])
    | some (.dir ..) => .error .isdir
    | some (.symlink _) => .error .loop
    | some _ => t.modify (p ++ [n]) (Node.setBytes []) (Node.isDir_setBytes [])

/-- A write of all of `new` at the end of an open file. When it fails a part of it may have
arrived. -/
def write (p : Path) (new : Bytes) : Act World Errno Unit := fun w =>
  match k.refuse w.clock (.write p) w.fs with
  | some e =>
    let part := new.take (k.wrote w.clock)
    (.error e, w.turn (w.fs.update p (Node.append part) (Node.isDir_append part)))
  | none =>
    match w.fs.modify p (Node.append new) (Node.isDir_append new) with
    | .ok t => (.ok (), w.turn t)
    | .error e => (.error e, w.tick)

/-- The clone of a whole file into a new one. -/
def clone (p q : Path) : Act World Errno Unit :=
  k.change (.clone p q) fun t =>
    match t.get p with
    | some (.file _ _ b) =>
      if k.clones p q then t.modify q (Node.setBytes b) (Node.isDir_setBytes b) else .error .inval
    | _ => .error .inval

/-- `fchmod`. -/
def chmod (p : Path) (mode : ℕ) : Act World Errno Unit :=
  k.change (.chmod p) fun t => t.modify p (Node.setMode mode) (Node.isDir_setMode mode)

/-- `mkdirat`. -/
def mkdir (p : Path) (n : Name) (mode : ℕ) : Act World Errno Unit :=
  k.change (.mkdir (p ++ [n])) fun t => t.add p n (.dir (k.dirMode mode) .owner)

/-- `symlinkat`. -/
def symlink (p : Path) (n : Name) (target : Bytes) : Act World Errno Unit :=
  k.change (.symlink (p ++ [n])) fun t => t.add p n (.symlink target)

/-- `unlinkat`. -/
def unlink (p : Path) (n : Name) (dir : Bool) : Act World Errno Unit :=
  k.change (if dir then .rmdir (p ++ [n]) else .unlink (p ++ [n])) fun t => t.remove p n dir

/-- `renameat`. -/
def rename (p : Path) (n : Name) (q : Path) (m : Name) : Act World Errno Unit :=
  k.change (.rename (p ++ [n]) (q ++ [m])) fun t =>
    if k.crosses (p ++ [n]) (q ++ [m]) then .error .xdev else t.rename p n q m

/-- A failed write may have put a part of the bytes at the end of the file, and does nothing
else. -/
theorem write_spec (p : Path) (new : Bytes) (w : World) :
    (k.write p new).wp
      (fun _ w' => ∃ t, w' = w.turn t ∧ (w.fs.get p).isSome ∧
        ∀ x, t.get x = if x = p then (w.fs.get x).map (Node.append new) else w.fs.get x)
      (fun _ w' => ∃ t part, w' = w.turn t ∧
        ∀ x, t.get x = if x = p then (w.fs.get x).map (Node.append part) else w.fs.get x) w := by
  cases hr : k.refuse w.clock (.write p) w.fs with
  | some e =>
    refine Act.wp_of_error (by simp only [write, hr]; rfl)
      ⟨_, new.take (k.wrote w.clock), rfl, ?_⟩
    exact PathTree.get_update w.fs p _ _
  | none =>
    cases hf : w.fs.modify p (Node.append new) (Node.isDir_append new) with
    | ok t =>
      obtain ⟨hp, hx⟩ := Tree.modify_ok hf
      exact Act.wp_of_ok (by simp only [write, hr, hf]; rfl) ⟨t, rfl, hp, hx⟩
    | error e =>
      refine Act.wp_of_error (by simp only [write, hr, hf]; rfl) ⟨w.fs, [], rfl, fun x => ?_⟩
      split
      · cases w.fs.get x with
        | none => rfl
        | some nd => cases nd <;> simp [Node.append]
      · rfl

/-! ## What a call did -/

section Calls

variable {k}

theorem stat_spec (p : Path) (n : Name) (w : World) :
    (k.stat p n).wp
      (fun st w' => w' = w.tick ∧ ∃ nd, w.fs.get (p ++ [n]) = some nd ∧ st = nd.stat)
      (fun _ w' => w' = w.tick ∧ (w.fs.get (p ++ [n]) = none ∨
        (k.refuse w.clock (.stat (p ++ [n])) w.fs).isSome)) w := by
  refine Act.wp_mono (k.query_spec _ _ w) ?_ ?_
  · rintro st w' ⟨rfl, h⟩
    obtain ⟨nd, hnd, rfl⟩ := Act.except_map_eq_ok.1 h
    exact ⟨rfl, nd, node_ok_iff.1 hnd, rfl⟩
  · rintro e w' ⟨rfl, h | h⟩
    · exact ⟨rfl, Or.inr (by simp [h])⟩
    · refine ⟨rfl, Or.inl ?_⟩
      cases hg : w.fs.get (p ++ [n]) with
      | none => rfl
      | some nd => simp [node, hg, Except.map] at h

theorem openDir_spec (p : Path) (n : Name) (w : World) :
    (k.openDir p n).wp (fun _ w' => w' = w.tick ∧ w.fs.isBranch (p ++ [n]) = true)
      (fun _ w' => w' = w.tick) w := by
  refine Act.wp_mono (k.query_spec _ _ w) ?_ (fun _ _ h => h.1)
  rintro _ w' ⟨rfl, h⟩
  obtain ⟨nd, hnd, h⟩ := Act.except_bind_eq_ok.1 h
  refine ⟨rfl, w.fs.isBranch_iff.2 ⟨nd, node_ok_iff.1 hnd, ?_⟩⟩
  by_contra hd
  simp [hd] at h

theorem openRead_spec (p : Path) (n : Name) (w : World) :
    (k.openRead p n).wp
      (fun _ w' => w' = w.tick ∧ ∃ nd, w.fs.get (p ++ [n]) = some nd ∧ nd.isSymlink = false)
      (fun _ w' => w' = w.tick) w := by
  refine Act.wp_mono (k.query_spec _ _ w) ?_ (fun _ _ h => h.1)
  rintro _ w' ⟨rfl, h⟩
  obtain ⟨nd, hnd, h⟩ := Act.except_bind_eq_ok.1 h
  refine ⟨rfl, nd, node_ok_iff.1 hnd, ?_⟩
  cases hs : nd.isSymlink with
  | false => rfl
  | true => simp [hs] at h

theorem list_spec (p : Path) (w : World) :
    (k.list p).wp (fun ns w' => w' = w.tick ∧ w.fs.isBranch p = true ∧ ns = w.fs.names p)
      (fun _ w' => w' = w.tick) w := by
  refine Act.wp_mono (k.query_spec _ _ w) ?_ (fun _ _ h => h.1)
  rintro ns w' ⟨rfl, h⟩
  split at h
  · next hb => exact ⟨rfl, hb, (Except.ok.inj h).symm⟩
  · simp at h

theorem read_spec (p : Path) (pos len : ℕ) (w : World) :
    (k.read p pos len).wp
      (fun b w' => w' = w.tick ∧ ∃ m u c, w.fs.get p = some (.file m u c) ∧
        b = (c.drop pos).take len)
      (fun _ w' => w' = w.tick) w := by
  refine Act.wp_mono (k.query_spec _ _ w) ?_ (fun _ _ h => h.1)
  rintro b w' ⟨rfl, h⟩
  split at h
  · next m u c hg => exact ⟨rfl, m, u, c, hg, (Except.ok.inj h).symm⟩
  · simp at h
  · simp at h

theorem readlink_spec (p : Path) (n : Name) (w : World) :
    (k.readlink p n).wp
      (fun target w' => w' = w.tick ∧ w.fs.get (p ++ [n]) = some (.symlink target))
      (fun _ w' => w' = w.tick) w := by
  refine Act.wp_mono (k.query_spec _ _ w) ?_ (fun _ _ h => h.1)
  rintro target w' ⟨rfl, h⟩
  obtain ⟨nd, hnd, h⟩ := Act.except_bind_eq_ok.1 h
  cases nd with
  | symlink t =>
    obtain rfl : t = target := by simpa [pure, Except.pure] using h
    exact ⟨rfl, node_ok_iff.1 hnd⟩
  | _ => simp at h

/-- A new node under a free name: what `createNew`, `mkdir` and `symlink` do. -/
theorem add_spec (op : Op) (p : Path) (n : Name) (nd : Node) (w : World) :
    (k.change op fun t => t.add p n nd).wp
      (fun _ w' => ∃ t, w' = w.turn t ∧ w.fs.isBranch p = true ∧ w.fs.get (p ++ [n]) = none ∧
        ∀ x, t.get x = if x = p ++ [n] then some nd else w.fs.get x)
      (fun _ w' => w' = w.tick) w := by
  refine Act.wp_mono (k.change_spec _ _ w) ?_ (fun _ _ h => h.1)
  rintro - w' ⟨t, h, rfl⟩
  obtain ⟨hp, hfree, hx⟩ := Tree.add_ok h
  exact ⟨t, rfl, hp, hfree, hx⟩

theorem mkdir_spec (p : Path) (n : Name) (mode : ℕ) (w : World) :
    (k.mkdir p n mode).wp
      (fun _ w' => ∃ t, w' = w.turn t ∧ w.fs.isBranch p = true ∧ w.fs.get (p ++ [n]) = none ∧
        ∀ x, t.get x = if x = p ++ [n] then some (.dir (k.dirMode mode) .owner) else w.fs.get x)
      (fun e w' => w' = w.tick ∧ (e = .exist → (w.fs.get (p ++ [n])).isSome ∨
        (k.refuse w.clock (.mkdir (p ++ [n])) w.fs).isSome)) w := by
  refine Act.wp_mono (k.change_spec _ _ w) ?_ ?_
  · rintro - w' ⟨t, h, rfl⟩
    obtain ⟨hp, hfree, hx⟩ := Tree.add_ok h
    exact ⟨t, rfl, hp, hfree, hx⟩
  · rintro e w' ⟨rfl, h | h⟩
    · exact ⟨rfl, fun _ => Or.inr (by simp [h])⟩
    · refine ⟨rfl, fun he => Or.inl ?_⟩
      subst he
      unfold Tree.add at h
      split at h
      · split at h
        · simp at h
        · next hne => exact Option.isSome_iff_ne_none.2 hne
      · split at h <;> simp at h

/-- The truncating create: a new empty file, or a regular file that was there emptied. -/
theorem createTrunc_spec (p : Path) (n : Name) (mode : ℕ) (w : World) :
    (k.createTrunc p n mode).wp
      (fun _ w' => ∃ t nd, w' = w.turn t ∧ w.fs.isBranch p = true ∧
        (w.fs.get (p ++ [n]) = none ∧ nd = .file (k.fileMode mode) .owner [] ∨
          ∃ old, w.fs.get (p ++ [n]) = some old ∧ old.isDir = false ∧ old.isSymlink = false ∧
            nd = old.setBytes []) ∧
        ∀ x, t.get x = if x = p ++ [n] then some nd else w.fs.get x)
      (fun _ w' => w' = w.tick) w := by
  refine Act.wp_mono (k.change_spec _ _ w) ?_ (fun _ _ h => h.1)
  rintro - w' ⟨t, h, rfl⟩
  have hkeep : ∀ {old : Node}, w.fs.get (p ++ [n]) = some old → old.isDir = false →
      old.isSymlink = false →
      w.fs.modify (p ++ [n]) (Node.setBytes []) (Node.isDir_setBytes []) = .ok t →
      ∃ t' nd, w.turn t = w.turn t' ∧ w.fs.isBranch p = true ∧
        (w.fs.get (p ++ [n]) = none ∧ nd = .file (k.fileMode mode) .owner [] ∨
          ∃ old, w.fs.get (p ++ [n]) = some old ∧ old.isDir = false ∧ old.isSymlink = false ∧
            nd = old.setBytes []) ∧
        ∀ x, t'.get x = if x = p ++ [n] then some nd else w.fs.get x := by
    intro old hold hd hs hm
    obtain ⟨hsome, hx⟩ := Tree.modify_ok hm
    refine ⟨t, old.setBytes [], rfl, w.fs.isBranch_of_get hsome,
      Or.inr ⟨old, hold, hd, hs, rfl⟩, fun x => ?_⟩
    rw [hx]
    split
    · next hxe => rw [hxe, hold, Option.map_some]
    · rfl
  cases hg : w.fs.get (p ++ [n]) with
  | none =>
    simp only [hg] at h
    obtain ⟨hp, hfree, hx⟩ := Tree.add_ok h
    exact ⟨t, _, rfl, hp, Or.inl ⟨rfl, rfl⟩, hx⟩
  | some old =>
    simp only [hg] at h hkeep
    cases old with
    | dir m u => simp at h
    | symlink target => simp at h
    | file m u b => exact hkeep rfl rfl rfl h
    | special s => exact hkeep rfl rfl rfl h

theorem clone_spec (p q : Path) (w : World) :
    (k.clone p q).wp
      (fun _ w' => ∃ t m u b, w' = w.turn t ∧ w.fs.get p = some (.file m u b) ∧
        ∀ x, t.get x = if x = q then (w.fs.get x).map (Node.setBytes b) else w.fs.get x)
      (fun _ w' => w' = w.tick) w := by
  refine Act.wp_mono (k.change_spec _ _ w) ?_ (fun _ _ h => h.1)
  rintro - w' ⟨t, h, rfl⟩
  cases hg : w.fs.get p with
  | none => simp [hg] at h
  | some nd =>
    cases nd with
    | file m u b =>
      simp only [hg] at h
      split at h
      · exact ⟨t, m, u, b, rfl, rfl, (Tree.modify_ok h).2⟩
      · simp at h
    | _ => simp [hg] at h

theorem chmod_spec (p : Path) (mode : ℕ) (w : World) :
    (k.chmod p mode).wp
      (fun _ w' => ∃ t, w' = w.turn t ∧ ∀ x, t.get x =
        if x = p then (w.fs.get x).map (Node.setMode mode) else w.fs.get x)
      (fun _ w' => w' = w.tick) w := by
  refine Act.wp_mono (k.change_spec _ _ w) ?_ (fun _ _ h => h.1)
  rintro - w' ⟨t, h, rfl⟩
  exact ⟨t, rfl, (Tree.modify_ok h).2⟩

theorem unlink_spec (p : Path) (n : Name) (dir : Bool) (w : World) :
    (k.unlink p n dir).wp
      (fun _ w' => ∃ t, w' = w.turn t ∧
        (∃ nd, w.fs.get (p ++ [n]) = some nd ∧ nd.isDir = dir) ∧ w.fs.names (p ++ [n]) = [] ∧
        ∀ x, t.get x = if x = p ++ [n] then none else w.fs.get x)
      (fun _ w' => w' = w.tick) w := by
  refine Act.wp_mono (k.change_spec _ _ w) ?_ (fun _ _ h => h.1)
  rintro - w' ⟨t, h, rfl⟩
  exact ⟨t, rfl, Tree.remove_ok h⟩

theorem rename_spec (p : Path) (n : Name) (q : Path) (m : Name) (w : World) :
    (k.rename p n q m).wp
      (fun _ w' => ∃ t, w' = w.turn t ∧ k.crosses (p ++ [n]) (q ++ [m]) = false ∧
        k.refuse w.clock (.rename (p ++ [n]) (q ++ [m])) w.fs = none ∧
        w.fs.rename p n q m = .ok t)
      (fun e w' => w' = w.tick ∧ (e = .xdev → k.crosses (p ++ [n]) (q ++ [m]) = true)) w := by
  cases hr : k.refuse w.clock (.rename (p ++ [n]) (q ++ [m])) w.fs with
  | some e =>
    refine Act.wp_of_error (change_refused hr) ⟨rfl, fun he => ?_⟩
    exact absurd (he ▸ hr) (k.refuse_ne_xdev _ _ _)
  | none =>
    refine Act.wp_mono (k.change_spec _ _ w) ?_ ?_
    · rintro - w' ⟨t, h, rfl⟩
      split at h
      · simp at h
      · next hc => exact ⟨t, rfl, by simpa using hc, rfl, h⟩
    · rintro e w' ⟨rfl, h⟩
      refine ⟨rfl, fun he => ?_⟩
      subst he
      rcases h with h | h
      · exact absurd h (k.refuse_ne_xdev _ _ _)
      · split at h
        · next hc => exact hc
        · exact absurd h Tree.rename_ne_xdev

end Calls

/-! ## Following a path -/

/-- Follow the components of a path from the directory `cur`. What a link on the way says comes in
front of the rest, by `follow`. -/
def walk (t : Tree) (follow : Path → PathBuf → Except Errno Path) :
    Path → PathBuf → Except Errno Path
  | cur, [] => .ok cur
  | _, .rootDir :: rest => walk t follow [] rest
  | cur, .curDir :: rest => if t.isBranch cur then walk t follow cur rest else .error .notdir
  | cur, .parentDir :: rest =>
    if t.isBranch cur then walk t follow cur.dropLast rest else .error .notdir
  | cur, .normal b :: rest =>
    if !t.isBranch cur then .error .notdir
    else if !(t.get cur).any (k.search cur) then .error .acces
    else match toName? b with
    | none => .error .inval
    | some n =>
      match t.get (cur ++ [n]) with
      | none => .error .noent
      | some (.symlink target) => follow cur (components target ++ rest)
      | some _ => walk t follow (cur ++ [n]) rest

/-- Follow a path through at most `links` symlinks. -/
def resolveWith (t : Tree) : ℕ → Path → PathBuf → Except Errno Path
  | 0 => k.walk t fun _ _ => .error .loop
  | links + 1 => k.walk t (resolveWith t links)

/-- The place a path names, with every link followed. Linux gives up at the forty-first link. -/
def resolve (t : Tree) (path : PathBuf) : Except Errno Path :=
  if path = [] then .error .noent else k.resolveWith t 40 [] path

/-- The place a path names when its last component is not followed. -/
def place (t : Tree) (path : PathBuf) : Option Path :=
  match path.parent, path.fileName with
  | some parent, some name =>
    match k.resolve t parent, toName? name with
    | .ok dir, some n => some (dir ++ [n])
    | _, _ => none
  | _, _ => none

end Kernel

end Aurade.Fs
