import Aurade.Fs.Root

/-!
# Copying, moving, renaming

The file operations of the service, on a `World` and a `Kernel`. Every one goes through `split`, so
a path is turned into an open directory once; a taken name has four answers (`Conflict`,
`resolveConflict`); and a copy recreates links and never walks them (`copyNode`).

The recursions go as deep as the process has descriptors for: `Kernel.levels` bounds them, and at
the bound the next open fails with EMFILE. The loop over a file's bytes is bounded by the file's
length, which no other program changes. Timestamps are not modelled: the source sets them where it
can and reads them nowhere else.
-/

namespace Aurade.Ops

open Fs

/-- What to do when the destination name is taken. -/
inductive Conflict
  | fail
  | skip
  | replace
  | keepBoth
  deriving DecidableEq

/-- The size of the copy buffer. -/
def bufferSize : ℕ := 1 <<< 20

/-! ## Names -/

/-- ` (n)`. -/
def numberSuffix (n : ℕ) : Bytes := [32, 40] ++ decimal n ++ [41]

/-- `numbered` on bytes: the number goes before the extension; a leading dot starts none. -/
def numberedBytes (name : Bytes) (n : ℕ) : Bytes :=
  match rsplitOnce dot name with
  | some (stem, ext) =>
    if stem = [] then name ++ numberSuffix n else stem ++ numberSuffix n ++ dot :: ext
  | none => name ++ numberSuffix n

theorem mem_numberSuffix {n : ℕ} {b : UInt8} (h : b ∈ numberSuffix n) :
    b = 32 ∨ b = 40 ∨ b = 41 ∨ isDigit b = true := by
  simp only [numberSuffix, List.mem_append, List.mem_cons, List.not_mem_nil, or_false] at h
  rcases h with ((h | h) | h) | h
  · exact Or.inl h
  · exact Or.inr (Or.inl h)
  · exact Or.inr (Or.inr (Or.inr (List.all_eq_true.1 (all_isDigit_decimal n) b h)))
  · exact Or.inr (Or.inr (Or.inl h))

theorem numberSuffix_ne {n : ℕ} {b : UInt8} (h : b ∈ numberSuffix n) :
    b ≠ dot ∧ b ≠ slash ∧ b ≠ 0 := by
  rcases mem_numberSuffix h with rfl | rfl | rfl | h
  · decide
  · decide
  · decide
  · refine ⟨?_, ?_, ?_⟩ <;> rintro rfl <;> exact absurd h (by decide)

theorem numberSuffix_ascii {n : ℕ} {b : UInt8} (h : b ∈ numberSuffix n) : b < 0x80 := by
  rcases mem_numberSuffix h with rfl | rfl | rfl | h
  · decide
  · decide
  · decide
  · simp only [isDigit, Bool.and_eq_true, decide_eq_true_eq] at h
    exact UInt8.lt_of_le_of_lt h.2 (by decide)

/-- A number makes no name UTF-8 that was not, and none that was something else. -/
theorem valid_numberedBytes (name : Bytes) (n : ℕ) :
    Utf8.valid (numberedBytes name n) = Utf8.valid name := by
  have hsuffix : ∀ b, Utf8.valid (b ++ numberSuffix n) = Utf8.valid b :=
    Utf8.valid_append_of_ascii fun c hc => numberSuffix_ascii hc
  unfold numberedBytes
  split
  · next stem ext hs =>
    obtain ⟨rfl, -⟩ := eq_of_rsplitOnce hs
    split
    · exact hsuffix _
    · rw [Utf8.valid_append_ascii (by decide), Utf8.valid_append_ascii (by decide), hsuffix]
  · exact hsuffix _

theorem isName_numberedBytes (name : Name) (n : ℕ) : IsName (numberedBytes name.val n) := by
  have hplain : IsName (name.val ++ numberSuffix n) :=
    isName_append name.property (by simp [numberSuffix]) (fun b hb => (numberSuffix_ne hb).1)
      (fun h => (numberSuffix_ne h).2.1 rfl) (fun h => (numberSuffix_ne h).2.2 rfl)
  unfold numberedBytes
  split
  · next stem ext hs =>
    obtain ⟨heq, -⟩ := eq_of_rsplitOnce hs
    split
    · exact hplain
    · -- the bytes are those of the name and of the number, and a parenthesis is among them
      have hparen : (40 : UInt8) ∈ stem ++ numberSuffix n ++ dot :: ext := by simp [numberSuffix]
      obtain ⟨-, -, -, hslash, hnull⟩ := name.property
      rw [heq] at hslash hnull
      simp only [List.mem_append, List.mem_cons, not_or] at hslash hnull
      refine ⟨by simp, ?_, ?_, ?_, ?_⟩
      · exact fun h => absurd (h ▸ hparen) (by decide)
      · exact fun h => absurd (h ▸ hparen) (by decide)
      · simp only [List.mem_append, List.mem_cons, not_or]
        exact ⟨⟨hslash.1, fun h => (numberSuffix_ne h).2.1 rfl⟩, hslash.2⟩
      · simp only [List.mem_append, List.mem_cons, not_or]
        exact ⟨⟨hnull.1, fun h => (numberSuffix_ne h).2.2 rfl⟩, hnull.2⟩
  · exact hplain

/-- `report.txt` and 2 become `report (2).txt`. -/
def numbered (name : Name) (n : ℕ) : Name :=
  ⟨numberedBytes name.val n, isName_numberedBytes name n⟩

/-- A name typed for an item: one path component, and not one of the two that mean somewhere
else. -/
def checkName (name : Bytes) : Except Error Name :=
  if h : IsName name then .ok ⟨name, h⟩
  else .error (.badRequest [.name name, .str " is not a name"])

/-- A name the filesystem and the user can both live with. -/
def validateName (name : Bytes) : Except Error Name :=
  if name = [] then .error (.badRequest [.str "the name is empty"])
  else if name = [dot] ∨ name = [dot, dot] then
    .error (.badRequest [.name name, .str " is not a usable name"])
  else if h : IsName name then
    if name.length > 255 then .error (.badRequest [.str "the name is longer than 255 bytes"])
    else .ok ⟨name, h⟩
  else .error (.badRequest [.str "a name cannot contain a slash or a null"])

/-! ## Helpers -/

/-- The error of an open when the process is out of descriptors. -/
def tooDeep (rel : PathBuf) : Error := .io [.path rel] .mfile

/-- Change what is known of the running job. -/
def setJob (f : Job → Job) : Act World Error Unit :=
  Act.modify fun w => { w with job := f w.job }

/-- Change where the job has got to. -/
def setProgress (f : Progress → Progress) : Act World Error Unit :=
  setJob fun j => { j with progress := f j.progress }

/-- Change what the job has done. -/
def setOut (f : Outcome → Outcome) : Act World Error Unit :=
  setJob fun j => { j with out := f j.out }

/-- One more item is done, and counts. -/
def countItem : Act World Error Unit := do
  setProgress fun p => { p with doneItems := p.doneItems + 1 }
  setOut fun o => { o with items := o.items + 1 }

/-- So many more bytes are done. -/
def countBytes (n : ℕ) : Act World Error Unit := do
  setProgress fun p => { p with doneBytes := p.doneBytes + n }
  setOut fun o => { o with bytes := o.bytes + n }

/-- Tell the reporter where the job has got to, and take its answer. -/
def report (rep : Reporter) : Act World Error Flow := do
  setJob fun j => { j with seen := j.progress :: j.seen }
  let w ← Act.get
  pure (rep w.job.seen)

section Helpers

variable (k : Kernel)

/-- Open the parent of an absolute path as a root, and hand back the leaf name. A leaf with a null
in it is refused here, as the first call on it would. -/
def split (path : PathBuf) : Act World Error (Root × Name) :=
  match path.parent, path.fileName with
  | none, _ => Act.fail (.badRequest [.path path, .str " has no parent"])
  | some _, none => Act.fail (.badRequest [.path path, .str " has no name"])
  | some parent, some name => do
    let root ← Root.open k parent
    let n ← (nameOf name).mapErr (Error.ofRootErrno [.normal name])
    pure (root, n)

/-- The first free of the numbers from `n` on, `tries` of them. -/
def uniqueFrom (dir : Root) (name : Name) : ℕ → ℕ → Act World Error Name
  | 0, _ => Act.fail (.exists_ [.path (dir.displayPath name.rel)])
  | tries + 1, n => do
    if ← dir.exists k (numbered name n).rel then uniqueFrom dir name tries (n + 1)
    else pure (numbered name n)

/-- The first free name in `dir` based on `name`. -/
def uniqueName (dir : Root) (name : Name) : Act World Error Name := do
  if ← dir.exists k name.rel then uniqueFrom k dir name (10000 - 2) 2 else pure name

/-- The sum of what `f` counts, in items and bytes. -/
def sumOver {ι : Type} (f : ι → Act World Error (ℕ × ℕ)) : List ι → Act World Error (ℕ × ℕ)
  | [] => pure (0, 0)
  | x :: xs => do
    let (i, b) ← f x
    let (is, bs) ← sumOver f xs
    pure (i + is, b + bs)

/-- How many items a node is, and how many bytes, following nothing. -/
def measureOne : ℕ → Root → Name → Act World Error (ℕ × ℕ)
  | 0, _, name => Act.fail (tooDeep name.rel)
  | depth + 1, root, name => do
    let st ← root.metadata k name.rel
    match st.type with
    | .directory => do
      let sub ← root.sub k name.rel
      let children ← sub.readDir k
      let (i, b) ← sumOver (measureOne depth sub) children
      pure (i + 1, b)
    | .regular => pure (1, st.size)
    | _ => pure (1, 0)

/-- Total item count and byte count for a set of paths. -/
def measure (paths : List PathBuf) : Act World Error (ℕ × ℕ) :=
  sumOver (fun path => do
    let (root, name) ← split k path
    measureOne k k.levels root name) paths

/-- Is `inner` the same directory as `outer` or below it? A path that cannot be resolved is not. -/
def isInside (inner outer : PathBuf) : Act World Error Bool := do
  let w ← Act.get
  match k.resolve w.fs inner, k.resolve w.fs outer with
  | .ok a, .ok b => pure (decide (b <+: a))
  | _, _ => pure false

end Helpers

/-! ## Copy and move -/

section Copy

variable (k : Kernel) (rep : Reporter)

/-- Delete a file, or a directory and everything under it. -/
def removeTree : ℕ → Root → Name → Act World Error Unit
  | 0, _, name => Act.fail (tooDeep name.rel)
  | depth + 1, root, name => do
    let st ← root.metadata k name.rel
    if st.type = .directory then
      let sub ← root.sub k name.rel
      let children ← sub.readDir k
      Act.each () (removeTree depth sub) children
      root.remove k name.rel true
    else root.remove k name.rel false

/-- Decide the destination name, or `none` to skip this source entirely. -/
def resolveConflict (dest : Root) (leaf : Name) (conflict : Conflict) (src : PathBuf) :
    Act World Error (Option Name) := do
  if ← dest.exists k leaf.rel then
    match conflict with
    | .fail => Act.fail (.exists_ [.path (dest.displayPath leaf.rel)])
    | .skip => do
      setOut fun o => { o with skipped := o.skipped ++ [src] }
      pure none
    | .replace => do
      removeTree k k.levels dest leaf
      pure (some leaf)
    | .keepBoth => some <$> uniqueName k dest leaf
  else pure (some leaf)

/-- The byte loop: read a buffer, write it, say so; a half written file is removed on a cancel. The
number of turns left is more than the file has bytes. -/
def copyLoop (input output : Path) (dest : Root) (srcName destName : Name) :
    ℕ → ℕ → Act World Error Flow
  | 0, _ => pure .continue
  | turns + 1, pos => do
    let buf ← (k.read input pos bufferSize).mapErr (.ofErrno [.path srcName.rel])
    if buf = [] then pure .continue
    else
      (k.write output buf).mapErr (.ofErrno [.path destName.rel])
      countBytes buf.length
      match ← report rep with
      | .cancel => do
        let _ ← (dest.remove k destName.rel false).attempt
        pure .cancel
      | .continue => copyLoop input output dest srcName destName turns (pos + buf.length)

/-- The mode, copied onto the new file where it will take it. -/
def finishFile (file : Path) (st : Stat) : Act World Error Unit := do
  let _ ← (k.chmod file (st.mode &&& 0o7777)).attempt
  pure ()

/-- Copy a regular file: by a clone where that works, else byte by byte. -/
def copyFile (srcRoot : Root) (srcName : Name) (dest : Root) (destName : Name) (st : Stat) :
    Act World Error Flow := do
  let input ← srcRoot.openFile k srcName.rel
  let output ← dest.createFile k destName.rel (st.mode &&& 0o7777) true
  match ← (k.clone input output).attempt with
  | .ok () => do
    countBytes st.size
    finishFile k output st
    report rep
  | .error _ => do
    let flow ← copyLoop k rep input output dest srcName destName (st.size + 1) 0
    if flow = .cancel then pure .cancel
    else
      finishFile k output st
      pure .continue

/-- Copy one node, recursing for a directory. On a cancel everything already written stays. -/
def copyNode : ℕ → Root → Name → Root → Name → Act World Error Flow
  | 0, _, srcName, _, _ => Act.fail (tooDeep srcName.rel)
  | depth + 1, srcRoot, srcName, dest, destName => do
    let st ← srcRoot.metadata k srcName.rel
    setProgress fun p => { p with current := srcRoot.displayPath srcName.rel }
    match st.type with
    | .directory => do
      dest.mkdir k destName.rel (st.mode &&& 0o7777) true
      countItem
      let flow ← report rep
      if flow = .cancel then pure .cancel
      else
        let subSrc ← srcRoot.sub k srcName.rel
        let subDest ← dest.sub k destName.rel
        let children ← subSrc.readDir k
        Act.each .continue (fun child => copyNode depth subSrc child subDest child) children
    | .symlink => do
      -- recreated, never followed
      let (parent, name) ← srcRoot.parentOf k srcName.rel
      let target ← (k.readlink parent name).mapErr (.ofErrno [.path srcName.rel])
      dest.symlink k target destName.rel
      countItem
      report rep
    | .regular => do
      let flow ← copyFile k rep srcRoot srcName dest destName st
      countItem
      if flow = .cancel then pure .cancel else report rep
    | .other => do
      -- sockets, fifos and devices are counted and not reproduced
      setProgress fun p => { p with doneItems := p.doneItems + 1 }
      pure .continue

/-- The sources with the names typed for them. -/
def pairNames : List PathBuf → List (Option Name) → List (PathBuf × Option Name)
  | [], _ => []
  | src :: srcs, [] => (src, none) :: pairNames srcs []
  | src :: srcs, name :: names => (src, name) :: pairNames srcs names

/-- Check every typed name before anything moves. -/
def checkNames : List (Option Bytes) → Except Error (List (Option Name))
  | [] => .ok []
  | none :: names => (checkNames names).map (none :: ·)
  | some b :: names => do
    let n ← checkName b
    (checkNames names).map (some n :: ·)

/-- Copy one source to its place, and with `removeSource` delete it afterwards. -/
def copyOver (srcRoot : Root) (name : Name) (dest : Root) (target : Name) (removeSource : Bool) :
    Act World Error Flow := do
  let flow ← copyNode k rep k.levels srcRoot name dest target
  if flow = .cancel then pure .cancel
  else
    setOut fun o => { o with written := o.written ++ [dest.displayPath target.rel] }
    if removeSource then removeTree k k.levels srcRoot name
    pure .continue

/-- Count a source that a rename took over whole, and say so. -/
def countMoved (dest : Root) (target : Name) : Act World Error Flow := do
  let (n, b) ← measure k [dest.displayPath target.rel]
  setOut fun o =>
    { o with written := o.written ++ [dest.displayPath target.rel], items := o.items + n }
  setProgress fun p => { p with doneItems := p.doneItems + n, doneBytes := p.doneBytes + b }
  report rep

/-- Whether the source is a directory and the destination is inside it. -/
def holdsDest (st : Stat) (destDir src : PathBuf) : Act World Error Bool :=
  if st.type = .directory then isInside k destDir src else pure false

/-- Remember a source that got another name than was asked for. -/
def noteRenamed (leaf target : Name) (src dest : PathBuf) : Act World Error Unit :=
  if target ≠ leaf then setOut fun o => { o with renamed := o.renamed ++ [(src, dest)] }
  else pure ()

/-- Take one source to its place: a move tries a rename first. -/
def transfer (srcRoot : Root) (name : Name) (dest : Root) (target : Name) (removeSource : Bool) :
    Act World Error Flow :=
  if removeSource then do
    match ← (srcRoot.renameTo k name.rel dest target.rel).attempt with
    | .ok () => countMoved k rep dest target
    -- a rename that would cross a file system falls back to copy and delete
    | .error (.io _ .xdev) => copyOver k rep srcRoot name dest target removeSource
    | .error e => Act.fail e
  else copyOver k rep srcRoot name dest target removeSource

/-- One turn of the loop of `run`: one source, under its own name or the one typed for it. -/
def runItem (dest : Root) (destDir : PathBuf) (conflict : Conflict) (removeSource : Bool)
    (item : PathBuf × Option Name) : Act World Error Flow := do
  let src := item.1
  let (srcRoot, name) ← split k src
  let st ← srcRoot.metadata k name.rel
  if ← holdsDest k st destDir src then
    Act.fail (.badRequest [.path destDir, .str " is inside ", .path src])
  else
    let leaf := item.2.getD name.toStringLossy
    match ← resolveConflict k dest leaf conflict src with
    | none => pure .continue
    | some target => do
      noteRenamed leaf target src (dest.displayPath target.rel)
      transfer k rep srcRoot name dest target removeSource

/-- Refuse a job that would not fit, before anything is written. -/
def checkSpace (sources : List PathBuf) (dest : Root) (destDir : PathBuf) (totalBytes : ℕ) :
    Act World Error Unit := do
  let w ← Act.get
  match k.usage w.clock dest.dir with
  | none => pure ()
  | some available =>
    if totalBytes > available then
      Act.fail (.noSpace [.num sources.length, .str " needs ", .num totalBytes, .str " bytes and ",
        .path destDir, .str " has ", .num available, .str " free"])
    else pure ()

/-- Start a job with these totals. -/
def startJob (totalItems totalBytes : ℕ) : Act World Error Unit :=
  setJob fun j =>
    { j with progress := { totalItems := totalItems, totalBytes := totalBytes }, out := {} }

/-- End a job: what it did, and whether it was stopped. -/
def endJob (flow : Flow) : Act World Error Outcome := do
  if flow = .cancel then setOut fun o => { o with cancelled := true }
  let w ← Act.get
  pure w.job.out

/-- What comes before anything is written: the typed names are checked, the destination is opened,
and the sources are counted and found to fit. -/
def prepare (sources : List PathBuf) (names : List (Option Bytes)) (destDir : PathBuf) :
    Act World Error (Root × List (PathBuf × Option Name)) := do
  let typed ← Act.lift (checkNames names)
  let dest ← Root.open k destDir
  let (totalItems, totalBytes) ← measure k sources
  checkSpace k sources dest destDir totalBytes
  startJob totalItems totalBytes
  pure (dest, pairNames sources typed)

/-- Copy or move `sources` into `destDir`. -/
def run (sources : List PathBuf) (names : List (Option Bytes)) (destDir : PathBuf)
    (conflict : Conflict) (removeSource : Bool) : Act World Error Outcome := do
  if sources = [] then pure {}
  else
    let (dest, items) ← prepare k sources names destDir
    let flow ← Act.each .continue (runItem k rep dest destDir conflict removeSource) items
    endJob flow

/-- Copy `sources` into the directory `destDir`. -/
def copy (sources : List PathBuf) (destDir : PathBuf) (conflict : Conflict) :
    Act World Error Outcome :=
  run k rep sources [] destDir conflict false

/-- Move `sources` into `destDir`. -/
def moveItems (sources : List PathBuf) (destDir : PathBuf) (conflict : Conflict) :
    Act World Error Outcome :=
  run k rep sources [] destDir conflict true

/-- `copy`, with a name of the user's own for any source. -/
def copyAs (sources : List PathBuf) (names : List (Option Bytes)) (destDir : PathBuf)
    (conflict : Conflict) : Act World Error Outcome :=
  run k rep sources names destDir conflict false

/-- `moveItems`, with names of the user's own. -/
def moveAs (sources : List PathBuf) (names : List (Option Bytes)) (destDir : PathBuf)
    (conflict : Conflict) : Act World Error Outcome :=
  run k rep sources names destDir conflict true

/-- One turn of the loop of `delete`. -/
def deleteItem (path : PathBuf) : Act World Error Flow := do
  let (root, name) ← split k path
  setProgress fun p => { p with current := path }
  removeTree k k.levels root name
  countItem
  setOut fun o => { o with written := o.written ++ [path] }
  report rep

/-- Delete these paths outright. -/
def delete (paths : List PathBuf) : Act World Error Outcome := do
  let (totalItems, totalBytes) ← measure k paths
  startJob totalItems totalBytes
  let flow ← Act.each .continue (deleteItem k rep) paths
  endJob flow

end Copy

/-! ## Single items -/

section Single

variable (k : Kernel) (rep : Reporter)

/-- The name a rename goes to. -/
def renameTarget (root : Root) (newName : Name) (conflict : Conflict) : Act World Error Name := do
  if ← root.exists k newName.rel then
    match conflict with
    | .fail | .skip => Act.fail (.exists_ [.path (root.displayPath newName.rel)])
    | .replace => do
      removeTree k k.levels root newName
      pure newName
    | .keepBoth => uniqueName k root newName
  else pure newName

/-- Rename in place. A rename to the same name is a success and does nothing. -/
def rename (path : PathBuf) (newName : Bytes) (conflict : Conflict) :
    Act World Error PathBuf := do
  let newName ← Act.lift (validateName newName)
  let (root, name) ← split k path
  if name = newName then pure path
  else
    let target ← renameTarget k root newName conflict
    root.renameTo k name.rel root target.rel
    pure (root.displayPath target.rel)

/-- What a new item is. -/
inductive NewItem
  | folder
  | file
  | fromTemplate (template : PathBuf)

/-- Put the new item under a name that is free. -/
def createItem (root : Root) (target : Name) : NewItem → Act World Error Unit
  | .folder => root.mkdir k target.rel 0o755 false
  | .file => do
    let _ ← root.createFile k target.rel 0o644 true
    pure ()
  | .fromTemplate template => do
    let (tRoot, tName) ← split k template
    let _ ← tRoot.metadata k tName.rel
    startJob 0 0
    let _ ← copyNode k silent k.levels tRoot tName root target
    pure ()

/-- Create one new item in `dir`, never overwriting. -/
def create (dir : PathBuf) (name : Bytes) (kind : NewItem) : Act World Error PathBuf := do
  let name ← Act.lift (validateName name)
  let root ← Root.open k dir
  let target ← uniqueName k root name
  createItem k root target kind
  pure (root.displayPath target.rel)

/-- One turn of the loop of `duplicate`. -/
def duplicateItem (path : PathBuf) : Act World Error Flow := do
  let (root, name) ← split k path
  let target ← uniqueName k root name.toStringLossy
  let flow ← copyNode k rep k.levels root name root target
  setOut fun o => { o with
    written := o.written ++ [root.displayPath target.rel]
    renamed := o.renamed ++ [(path, root.displayPath target.rel)] }
  pure flow

/-- Copy each path next to itself under a free name. -/
def duplicate (paths : List PathBuf) : Act World Error Outcome := do
  let (totalItems, totalBytes) ← measure k paths
  startJob totalItems totalBytes
  let flow ← Act.each .continue (duplicateItem k rep) paths
  endJob flow

/-- The name of a shortcut where none is given. -/
def shortcutName (target : Bytes) : Bytes :=
  (((components target).fileName.map Utf8.lossy).getD (text "link")) ++ text " link"

/-- Create a shortcut: a symlink to `target` in `destDir`. -/
def makeShortcut (target : Bytes) (destDir : PathBuf) (name : Option Bytes) :
    Act World Error PathBuf := do
  let dest ← Root.open k destDir
  let base ← Act.lift (validateName (name.getD (shortcutName target)))
  let leaf ← uniqueName k dest base
  dest.symlink k target leaf.rel
  pure (dest.displayPath leaf.rel)

/-- New folder with selection: make the folder, then move the selection into it. -/
def folderWithSelection (sources : List PathBuf) (destDir : PathBuf) (name : Bytes) :
    Act World Error PathBuf := do
  if sources = [] then Act.fail (.badRequest [.str "nothing selected"])
  else
    let folder ← create k destDir name .folder
    match ← (moveItems k rep sources folder .keepBoth).attempt with
    | .ok _ => pure folder
    | .error e => do
      -- an empty folder would be litter, so it goes back
      let (root, leaf) ← split k folder
      let _ ← (root.remove k leaf.rel true).attempt
      Act.fail e

/-- Bring one file of a folder that is being flattened up to `top`. -/
def liftFile (src top : Root) (conflict : Conflict) (child : Name) : Act World Error Flow := do
  let leaf := child.toStringLossy
  let display := src.displayPath child.rel
  match ← resolveConflict k top leaf conflict display with
  | none => pure .continue
  | some target => do
    noteRenamed leaf target display (top.displayPath target.rel)
    src.renameTo k child.rel top target.rel
    setOut fun o => { o with
      written := o.written ++ [top.displayPath target.rel], items := o.items + 1 }
    setProgress fun p => { p with doneItems := p.doneItems + 1, current := display }
    let flow ← report rep
    if flow = .cancel then setOut fun o => { o with cancelled := true }
    pure flow

/-- One child of a folder that is being flattened: a directory is walked by `descend`, anything else
goes up to `top`. -/
def liftChild (descend : Root → Act World Error Unit) (src top : Root) (conflict : Conflict)
    (child : Name) : Act World Error Flow := do
  let st ← src.metadata k child.rel
  if st.type = .directory then
    let sub ← src.sub k child.rel
    descend sub
    pure .continue
  else liftFile k rep src top conflict child

/-- Bring everything below `src`, at any depth, up to `top`. A cancel ends the walk of the folder it
came in. -/
def lift (top : Root) (conflict : Conflict) : ℕ → Root → Act World Error Unit
  | 0, _ => Act.fail (tooDeep [])
  | depth + 1, src => do
    let children ← src.readDir k
    let _ ← Act.each .continue (liftChild k rep (lift top conflict depth) src top conflict) children
    pure ()

/-- One entry of the folder that is being flattened: a directory is emptied into the folder and
removed. -/
def flattenEntry (root : Root) (conflict : Conflict) (entry : Name) : Act World Error Unit := do
  let st ← root.metadata k entry.rel
  if st.type ≠ .directory then pure ()
  else
    let sub ← root.sub k entry.rel
    lift k rep root conflict k.levels sub
    removeTree k k.levels root entry

/-- Flatten folder: everything under `dir`, at any depth, ends up directly in `dir`, and the emptied
subdirectories go. -/
def flatten (dir : PathBuf) (conflict : Conflict) : Act World Error Outcome := do
  let root ← Root.open k dir
  startJob 0 0
  let entries ← root.readDir k
  Act.each () (flattenEntry k rep root conflict) entries
  let w ← Act.get
  pure w.job.out

end Single

end Aurade.Ops
