import Aurade.Foundations.History
import Aurade.Fs.Kernel

/-!
# Writing an archive

`compress` and what it calls, with `split_file` for the numbered parts. The state is the file tree
and the reports made; the surroundings answer each call, and may refuse any. The archive is made in
a directory that is there, by its name in it, and so are the parts; the other paths are places.

The codecs are another program's: `Setup.codec` says what the file holds once some entries have been
written, or how the library complains.
-/

namespace Aurade.Ops.Compress

open Fs

/-! ## Formats and options -/

inductive Format
  | zip | sevenZip | tar | tarGz | tarXz | tarZst
  deriving DecidableEq

namespace Format

def extension : Format → String
  | zip => "zip"
  | sevenZip => "7z"
  | tar => "tar"
  | tarGz => "tar.gz"
  | tarXz => "tar.xz"
  | tarZst => "tar.zst"

def takesPassword : Format → Bool
  | zip | sevenZip => true
  | _ => false

end Format

inductive Level
  | ultra | high | normal | low | fast | store
  deriving DecidableEq

/-- The preset of xz and lzma2. -/
def Level.lzma : Level → ℕ
  | .ultra => 9
  | .high => 7
  | .normal => 6
  | .low => 3
  | .fast => 1
  | .store => 0

/-- `SMALLEST_PART` -/
def smallestPart : ℕ := 64 * 1024

/-- `Split`: every size it is made from is one of a list or has been checked. -/
abbrev Split := Option {bytes : ℕ // smallestPart ≤ bytes}

structure Options where
  level : Level
  password : Option Bytes
  split : Split
  dictionary : Option ℕ
  wordSize : Option ℕ
  threads : ℕ

def dictionaryMin : ℕ := 64 * 2 ^ 10
def dictionaryMax : ℕ := 1024 * 2 ^ 20
def wordSizeMin : ℕ := 8
def wordSizeMax : ℕ := 273

/-- What `Lzma2Options` holds of what was chosen. -/
structure Lzma2 where
  dictionarySize : ℕ
  threads : ℕ
  chunkSize : Option ℕ

structure Lzma2Estimate where
  dictionary : ℕ
  threads : ℕ
  bytes : ℕ

/-- `lzma2_estimate` -/
def Options.lzma2Estimate (o : Options) (lzma2 : Lzma2) : Lzma2Estimate :=
  let threads := max lzma2.threads 1
  let chunk := if 1 < threads then lzma2.chunkSize.getD 0 else 0
  let dictionary := lzma2.dictionarySize
  let window := dictionary + min (dictionary / 2) (512 * 2 ^ 20) + 320 * 2 ^ 10
  let finder := if 4 ≤ o.level.lzma then 8 else 4
  let perEncoder := window + dictionary * (finder + 4) + 6 * 2 ^ 20
  { dictionary, threads, bytes := (perEncoder + chunk) * threads }

/-! ## The surroundings -/

/-- A call of the file system. -/
inductive Call
  /-- `symlink_metadata` -/
  | lookup (p : Path)
  | metadata (p : Path)
  | isDir (p : Path)
  | list (p : Path)
  | openFile (p : Path)
  | read (p : Path)
  | create (p : Path)
  | write (p : Path)
  | remove (p : Path)
  deriving DecidableEq

structure Answer where
  refusal : Option Errno
  /-- What a write that fails leaves in the file, and what is read from no regular file. -/
  data : Bytes
  /-- The entries of a directory that can be read. -/
  reads : Name → Bool

/-- An entry of an archive: a directory has no contents. -/
structure Item where
  name : Bytes
  content : Option Bytes

/-- A library's complaint, as text and as an errno. -/
structure Complaint where
  text : Msg
  errno : Errno

/-- What is not in the tree. -/
structure Setup where
  env : Surroundings Call Answer
  /-- What the archive holds after these entries, and after its end when that is set. -/
  codec : Format → Options → List Item → Bool → Except Complaint Bytes
  lzma2 : Options → Lzma2
  /-- `available_memory` -/
  availableMemory : Option ℕ
  humanSize : ℕ → Msg
  /-- The text of an errno. -/
  strerror : Errno → Msg
  /-- The mode of a new file. -/
  mode : ℕ
  /-- How many directories can be open at once. -/
  levels : ℕ

structure Vars where
  tree : Tree
  seen : List Progress := []

abbrev State := Recorded Call Answer Vars

variable (m : Setup) {α β : Type}

/-- A call that reads the tree. -/
def query (c : Call) (f : Answer → Tree → Except Errno α) : Act State Errno α := do
  let v ← Act.vars
  let a ← Act.ask m.env c
  match a.refusal with
  | some e => Act.fail e
  | none => Act.lift (f a v.tree)

/-- A call that changes the tree. Nobody is asked where the tree itself does not have it. -/
def change (c : Call) (f : Tree → Except Errno Tree) : Act State Errno Unit := do
  let v ← Act.vars
  let t ← Act.lift (f v.tree)
  let a ← Act.ask m.env c
  match a.refusal with
  | some e => Act.fail e
  | none => Act.assign fun v => { v with tree := t }

/-- The node that is there. -/
def node (t : Tree) (p : Path) : Except Errno Node :=
  match t.get p with
  | some nd => .ok nd
  | none => .error .noent

def lookup (p : Path) : Act State Errno Stat := query m (.lookup p) fun _ t => (node t p).map Node.stat

/-- `fs::metadata`, of what is no link. -/
def metadata (p : Path) : Act State Errno Stat :=
  query m (.metadata p) fun _ t => (node t p).map Node.stat

/-- `Path::is_dir`, of what is no link: a failure is a no. -/
def isDir (p : Path) : Act State Error Bool := do
  match ← Act.attempt (query m (.isDir p) fun _ t => (node t p).map Node.isDir) with
  | .ok dir => pure dir
  | .error _ => pure false

/-- `fs::read_dir`, without the entries that cannot be read. -/
def list (p : Path) : Act State Errno (List Name) :=
  query m (.list p) fun a t =>
    if t.isBranch p then .ok ((t.names p).filter a.reads) else .error .notdir

def openFile (p : Path) : Act State Errno Unit :=
  query m (.openFile p) fun _ t => (node t p).map fun _ => ()

/-- `len` bytes of an open file from `pos` on, or as many as there are. -/
def read (p : Path) (pos : ℕ) (len : Option ℕ) : Act State Errno Bytes :=
  query m (.read p) fun a t =>
    match t.get p with
    | some (.file _ _ b) => .ok (((b.drop pos).take (len.getD b.length)))
    | some (.dir ..) => .error .isdir
    | _ => .ok a.data

theorem isDir_emptied : ∀ nd : Node, (nd.setBytes []).isDir = nd.isDir := Node.isDir_setBytes []

/-- `File::create`. A link was looked for before, so none is there to be followed. -/
def create (dir : Path) (name : Name) : Act State Errno Unit :=
  change m (.create (dir ++ [name])) fun t =>
    match t.get (dir ++ [name]) with
    | some (.symlink _) => .error .loop
    | some (.dir ..) => .error .isdir
    | none => t.add dir name (.file m.mode .owner [])
    | some _ => t.modify (dir ++ [name]) (Node.setBytes []) isDir_emptied

/-- The file that is open is written, to hold `content`. -/
def write (p : Path) (content : Bytes) : Act State Errno Unit := do
  let a ← Act.ask m.env (.write p)
  match a.refusal with
  | some e => do
    Act.assign fun v =>
      { v with tree := v.tree.update p (Node.setBytes a.data) (Node.isDir_setBytes a.data) }
    Act.fail e
  | none => Act.assign fun v =>
      { v with tree := v.tree.update p (Node.setBytes content) (Node.isDir_setBytes content) }

/-- `fs::remove_file` -/
def remove (dir : Path) (name : Name) : Act State Errno Unit :=
  change m (.remove (dir ++ [name])) fun t => t.remove dir name false

/-- `let _ = fs::remove_file(..)` -/
def drop (dir : Path) (name : Name) : Act State Error Unit :=
  (fun _ => ()) <$> (Act.attempt (remove m dir name) : Act State Error (Except Errno Unit))

/-- A call whose error is reported with the path. -/
def at_ (p : Path) (act : Act State Errno α) : Act State Error α :=
  act.mapErr (Error.ofErrno [.path (PathBuf.ofPath p)])

/-! ## The plan -/

/-- What the function gives for each of the items, together. -/
def collect (f : α → Act State Error (List β)) : List α → Act State Error (List β)
  | [] => pure []
  | x :: xs => do
    let ys ← f x
    let rest ← collect f xs
    pure (ys ++ rest)

/-- One call of `walk`, and how it goes on below a directory. -/
def visit (below : Option (Path → Act State Error (List Path))) (path : Path) :
    Act State Error (List Path) := do
  let st ← at_ path (lookup m path)
  match st.type with
  | .directory =>
    match below with
    | none => Act.fail (Error.ofErrno [.path (PathBuf.ofPath path)] .mfile)
    | some below => do
      let names ← at_ path (list m path)
      let inside ← collect (fun n => below (path ++ [n])) names
      pure (path :: inside)
  | .symlink => pure []
  | _ => pure [path]

/-- `walk`, with this many directories left to open. -/
def walk : ℕ → Path → Act State Error (List Path)
  | 0 => visit m none
  | n + 1 => visit m (some (walk n))

/-- The size of a regular file. -/
def size (p : Path) : Act State Error (Option ℕ) := do
  match ← Act.attempt (lookup m p) with
  | .ok st => pure (if st.type = .regular then some st.size else none)
  | .error _ => pure none

def total : List Path → Act State Error ℕ
  | [] => pure 0
  | p :: ps => do
    let bytes ← size m p
    let rest ← total ps
    pure (bytes.getD 0 + rest)

structure Plan where
  paths : List Path
  bytes : ℕ

def plan (sources : List Path) : Act State Error Plan := do
  let paths ← collect (walk m m.levels) sources
  let bytes ← total m paths
  pure { paths, bytes }

/-! ## The writers -/

structure Done where
  items : ℕ := 0
  bytes : ℕ := 0
  cancelled : Bool := false
  parts : List Path := []
  deriving DecidableEq

/-- The path within `base`, where it is below it, as the archive is to name it; nothing for `base`
itself. -/
def relative (base path : Path) : Bytes :=
  if base <+: path then [slash].intercalate ((path.drop base.length).map Subtype.val)
  else if path = [] then [slash] else path.render

/-- A report, and whether to carry on. -/
def report (rep : Reporter) (progress : Progress) : Act State Error Flow := do
  Act.assign fun v => { v with seen := progress :: v.seen }
  let v ← Act.vars
  pure (rep v.seen)

/-- `starting` -/
def starting (p : Plan) : Progress := { totalItems := p.paths.length, totalBytes := p.bytes }

/-- `counted` -/
def counted (rep : Reporter) (progress : Progress) (done : Done) (path : Path) :
    Act State Error (Progress × Done) := do
  let bytes := (← size m path).getD 0
  let progress :=
    { progress with doneItems := progress.doneItems + 1, doneBytes := progress.doneBytes + bytes }
  let done := { done with items := done.items + 1, bytes := done.bytes + bytes }
  let _ ← report rep progress
  pure (progress, done)

/-- The loop of the writers over the plan. `entry` writes one path under its name. -/
def entries (base : Path) (rep : Reporter)
    (entry : Path → Bytes → List Item → Act State Error (List Item)) :
    List Path → Progress → Done → List Item → Act State Error (Done × List Item)
  | [], _, done, items => pure (done, items)
  | path :: paths, progress, done, items =>
    if relative base path = [] then entries base rep entry paths progress done items
    else do
      let progress := { progress with current := PathBuf.ofPath path }
      let flow ← report rep progress
      if flow = .cancel then pure ({ done with cancelled := true }, items)
      else do
        let items ← entry path (relative base path) items
        let (progress, done) ← counted m rep progress done path
        entries base rep entry paths progress done items

variable (format : Format) (options : Options) (out : Path)

/-- The library writes the archive on. -/
def save (items : List Item) (finish : Bool) : Act State Complaint Unit :=
  match m.codec format options items finish with
  | .error c => Act.fail c
  | .ok bytes => (write m out bytes).mapErr fun e => ⟨m.strerror e, e⟩

/-- The library's complaint as an error of its own. -/
def toolError (tool : String) (c : Complaint) : Error := .tool [.str tool] c.text

/-- The complaint as an io error of the path. -/
def ioError (path : Path) (c : Complaint) : Error := Error.ofErrno [.path (PathBuf.ofPath path)] c.errno

def zipEntry (path : Path) (name : Bytes) (items : List Item) : Act State Error (List Item) := do
  let name := Utf8.lossy name
  if ← isDir m path then do
    let items := items ++ [⟨name ++ [slash], none⟩]
    (save m format options out items false).mapErr (toolError "zip")
    pure items
  else do
    (save m format options out (items ++ [⟨name, some []⟩]) false).mapErr (toolError "zip")
    at_ path (openFile m path)
    let content ← at_ path (read m path 0 none)
    let items := items ++ [⟨name, some content⟩]
    (save m format options out items false).mapErr (ioError path)
    pure items

def sevenZipEntry (path : Path) (name : Bytes) (items : List Item) :
    Act State Error (List Item) := do
  let name := Utf8.lossy name
  if ← isDir m path then do
    let items := items ++ [⟨name, none⟩]
    (save m format options out items false).mapErr (toolError "7z")
    pure items
  else do
    at_ path (openFile m path)
    let content ← (read m path 0 none).mapErr fun e => toolError "7z" ⟨m.strerror e, e⟩
    let items := items ++ [⟨name, some content⟩]
    (save m format options out items false).mapErr (toolError "7z")
    pure items

def tarEntry (path : Path) (name : Bytes) (items : List Item) : Act State Error (List Item) := do
  if ← isDir m path then do
    let items := items ++ [⟨name, none⟩]
    (save m format options out items false).mapErr (ioError path)
    pure items
  else do
    at_ path (openFile m path)
    let content ← at_ path (read m path 0 none)
    let items := items ++ [⟨name, some content⟩]
    (save m format options out items false).mapErr (ioError path)
    pure items

variable (base dir : Path) (name : Name) (p : Plan) (rep : Reporter)

def compressZip : Act State Error Done := do
  let out := dir ++ [name]
  at_ out (create m dir name)
  let (done, items) ← entries m base rep (zipEntry m format options out) p.paths (starting p) {} []
  (save m format options out items true).mapErr (toolError "zip")
  pure done

def compress7z : Act State Error Done := do
  let out := dir ++ [name]
  (create m dir name).mapErr fun e => toolError "7z" ⟨m.strerror e, e⟩
  (save m format options out [] false).mapErr (toolError "7z")
  let (done, items) ←
    entries m base rep (sevenZipEntry m format options out) p.paths (starting p) {} []
  (save m format options out items true).mapErr (toolError "7z")
  pure done

def compressTar : Act State Error Done := do
  let out := dir ++ [name]
  at_ out (create m dir name)
  (save m format options out [] false).mapErr (ioError out)
  let (done, items) ← entries m base rep (tarEntry m format options out) p.paths (starting p) {} []
  (save m format options out items true).mapErr (ioError out)
  pure done

/-! ## Parts -/

theorem isName_part (n : Name) (index : ℕ) : IsName (n.val ++ dot :: padded 3 index) := by
  have hdigits := all_isDigit_padded 3 index
  have hlen := le_length_padded 3 index
  have hmem : ∀ b, isDigit b = false → b ∉ padded 3 index := fun b hb hx =>
    Bool.false_ne_true (hb.symm.trans (List.all_eq_true.1 hdigits b hx))
  have hlong : 4 ≤ (n.val ++ dot :: padded 3 index).length := by
    rw [List.length_append, List.length_cons]
    omega
  refine ⟨fun h => ?_, fun h => ?_, fun h => ?_, fun h => ?_, fun h => ?_⟩
  · rw [h] at hlong
    exact absurd hlong (by decide)
  · rw [h] at hlong
    exact absurd hlong (by decide)
  · rw [h] at hlong
    exact absurd hlong (by decide)
  · obtain h | h := List.mem_append.1 h
    · exact n.property.2.2.2.1 h
    · obtain h | h := List.mem_cons.1 h
      · exact absurd h (by decide)
      · exact hmem slash (by decide) h
  · obtain h | h := List.mem_append.1 h
    · exact n.property.2.2.2.2 h
    · obtain h | h := List.mem_cons.1 h
      · exact absurd h (by decide)
      · exact hmem 0 (by decide) h

/-- `part_name` -/
def partName (n : Name) (index : ℕ) : Name := ⟨n.val ++ dot :: padded 3 index, isName_part n index⟩

/-- The loop of `write_parts`, from the part with this index on. -/
def partsFrom (part : ℕ) : ℕ → List Name → Act State Error Unit
  | _, [] => pure ()
  | index, n :: names => do
    at_ (dir ++ [n]) (create m dir n)
    let content ← at_ (dir ++ [n]) (read m (dir ++ [name]) (index * part) (some part))
    at_ (dir ++ [n]) (write m (dir ++ [n]) content)
    partsFrom part (index + 1) names

def writeParts (part : ℕ) (names : List Name) : Act State Error Unit := do
  at_ (dir ++ [name]) (openFile m (dir ++ [name]))
  partsFrom m dir name part 0 names

/-- None of the names is taken. -/
def free : List Name → Act State Error Unit
  | [] => pure ()
  | n :: names => do
    match ← Act.attempt (lookup m (dir ++ [n])) with
    | .ok _ => Act.fail (.exists_ [.path (PathBuf.ofPath (dir ++ [n]))])
    | .error _ => free names

def dropAll : List Name → Act State Error Unit
  | [] => pure ()
  | n :: names => do
    drop m dir n
    dropAll names

/-- The names of so many parts. -/
def partNames (n : Name) (count : ℕ) : List Name :=
  (List.range count).map fun index => partName n (index + 1)

/-- `split_file` -/
def splitFile (part : ℕ) : Act State Error (List Name) := do
  if part < smallestPart then
    Act.fail (.badRequest [.str "a part of ", .num part, .str " bytes is under the ",
      .num smallestPart, .str " byte minimum"])
  else do
    let st ← at_ (dir ++ [name]) (metadata m (dir ++ [name]))
    let names := partNames name (max ((st.size + part - 1) / part) 1)
    free m dir names
    match ← Act.attempt (writeParts m dir name part names) with
    | .error e => do
      dropAll m dir names
      Act.fail e
    | .ok () => do
      at_ (dir ++ [name]) (remove m dir name)
      pure names

/-! ## The whole of it -/

/-- `Options::check` -/
def Options.check (o : Options) (format : Format) : Except Error Unit := do
  if o.split.isSome ∧ format ≠ .sevenZip then
    throw (.unsupported [.str "a .", .str format.extension, .str " is not written in parts"])
  if (o.dictionary.isSome ∨ o.wordSize.isSome) ∧ format ≠ .sevenZip then
    throw (.unsupported [.str "a .", .str format.extension,
      .str " has no dictionary or word size to set"])
  if let some d := o.dictionary then
    if ¬ (dictionaryMin ≤ d ∧ d ≤ dictionaryMax) then
      throw (.badRequest [.str "a dictionary is ", .num dictionaryMin, .str " to ",
        .num dictionaryMax, .str " bytes, not ", .num d])
  if let some w := o.wordSize then
    if ¬ (wordSizeMin ≤ w ∧ w ≤ wordSizeMax) then
      throw (.badRequest [.str "a word size is ", .num wordSizeMin, .str " to ", .num wordSizeMax,
        .str ", not ", .num w])
  if format = .sevenZip ∧ o.level ≠ .store then
    let estimate := o.lzma2Estimate (m.lzma2 o)
    if let some free := m.availableMemory then
      if free < estimate.bytes then
        throw (.badRequest ([.str "compressing with a "] ++ m.humanSize estimate.dictionary ++
          [.str " dictionary on ", .num estimate.threads, .str " thread",
            .str (if estimate.threads = 1 then "" else "s"), .str " needs about "] ++
          m.humanSize estimate.bytes ++ [.str " of memory, and "] ++ m.humanSize free ++
          [.str " is free"]))
  match o.password with
  | none => pure ()
  | some password =>
    if password = [] then throw (.badRequest [.str "an empty password is not a password"])
    if ¬ format.takesPassword then
      throw (.unsupported [.str "a .", .str format.extension, .str " cannot carry a password"])

/-- The writer of the format. -/
def writeArchive : Act State Error Done :=
  match format with
  | .zip => compressZip m format options base dir name p rep
  | .sevenZip => compress7z m format options base dir name p rep
  | _ => compressTar m format options base dir name p rep

/-- `compress`, to the file `name` in the directory `dir`. -/
def compress (sources : List Path) : Act State Error Done := do
  if sources = [] then Act.fail (.badRequest [.str "nothing to compress"])
  else do
    Act.lift (options.check m format)
    match ← Act.attempt (lookup m (dir ++ [name])) with
    | .ok _ => Act.fail (.exists_ [.path (PathBuf.ofPath (dir ++ [name]))])
    | .error _ => do
      let p ← plan m sources
      match ← Act.attempt (writeArchive m format options base dir name p rep) with
      | .error e => do
        drop m dir name
        Act.fail e
      | .ok done =>
        if done.cancelled then do
          drop m dir name
          pure done
        else match options.split with
          | none => pure done
          | some part => do
            match ← Act.attempt (splitFile m dir name part) with
            | .ok names => pure { done with parts := names.map fun n => dir ++ [n] }
            | .error e => do
              drop m dir name
              Act.fail e

end Aurade.Ops.Compress
