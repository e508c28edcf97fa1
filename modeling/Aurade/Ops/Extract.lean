import Mathlib
import Aurade.Fs.Confined
import Aurade.Ops.Compress
import Aurade.Ops.Fs

/-!
# Taking an archive apart

`extract_with` and what it calls. The readers of the three formats are libraries: an `Archive` is what they
hand over, entry after entry, until one of them gives up. What is asked of an entry, and in which order, is
the loop of its format, and the loops differ: a zip asks what an entry is after it has reported it, a tar
before, and a 7z reports an entry before its name is looked at.

The file tree and the calls are `Aurade.Fs.Kernel`; everything is done by path, so each call follows the
path again.
-/

namespace Aurade.Ops.Extract

open Fs Fs.Kernel
open Compress (Format)

/-! ## Names of archives -/

/-- `Format::from_name` of the source, by the suffix. -/
def suffixes : List (Bytes × Format) :=
  [(text ".tar.gz", .tarGz), (text ".tgz", .tarGz), (text ".tar.xz", .tarXz), (text ".txz", .tarXz),
    (text ".tar.zst", .tarZst), (text ".tzst", .tarZst), (text ".tar", .tar), (text ".zip", .zip),
    (text ".7z", .sevenZip)]

def formatFromName (name : Bytes) : Option Format :=
  (suffixes.find? fun s => s.1.isSuffixOf (name.map asciiLower)).map Prod.snd

/-- The name of the archive that a name is of a part of, and which part it is. -/
def numberedName (name : Bytes) : Option (Bytes × ℕ) :=
  if !Utf8.valid name then none
  else do
    let (base, digits) ← rsplitOnce dot name
    if base = [] ∨ digits.length < 3 ∨ !digits.all isDigit then none
    else if 2 ^ 64 ≤ parseDecimal digits ∨ parseDecimal digits = 0 then none
    else some (base, parseDecimal digits)

/-- `numbered` -/
def numbered (path : PathBuf) : Option (PathBuf × ℕ) := do
  let name ← path.fileName
  let (base, index) ← numberedName name
  some (path.dropLast ++ [.normal base], index)

/-- The name of a path, as text. -/
def nameOf (path : PathBuf) : Bytes := Utf8.lossy (path.fileName.getD [])

/-- `format_of` -/
def formatOf (path : PathBuf) : Except Error Format :=
  match formatFromName (nameOf path) with
  | some format => .ok format
  | none =>
    let unknown := Error.badRequest [.str "unknown archive type: ", .name (nameOf path)]
    match numbered path with
    | none => .error unknown
    | some (archive, _) =>
      match formatFromName (nameOf archive) with
      | some .sevenZip => .ok .sevenZip
      | some other => .error (.unsupported [.str "a .", .str other.extension, .str " is not read in parts"])
      | none => .error unknown

/-- `strip_archive_suffix` -/
def stripArchiveSuffix (name : Bytes) : Bytes :=
  let name := match rsplitOnce dot name with
    | some (base, digits) =>
      if 3 ≤ digits.length ∧ digits.all isDigit ∧ (text ".7z").isSuffixOf (base.map asciiLower) then base
      else name
    | none => name
  match [text ".tar.gz", text ".tar.xz", text ".tar.zst", text ".tgz", text ".txz", text ".tzst",
      text ".tar", text ".zip", text ".7z"].find? fun s => s.isSuffixOf (name.map asciiLower) with
  | some suffix => name.take (name.length - suffix.length)
  | none => name

/-- `Path::join` with a text. -/
def join (path : PathBuf) (s : Bytes) : PathBuf :=
  if path = [] ∨ s.head? = some slash then components s
  else path ++ (s.splitOn slash).filterMap component

/-! ## What the readers hand over -/

/-- A library that does not go on: for want of a password, or with what it says. -/
structure Trouble where
  password : Bool
  message : Msg
  errno : Errno

/-- An error while reading: its kind, and whether it is one of the system's. -/
structure ReadError where
  kind : Errno
  system : Bool

/-- What an entry is read as: the pieces that are written while it is read, what is left to be written at
the end, and the error that ended it. -/
structure Stream where
  pieces : List Bytes
  rest : Bytes
  trouble : Option ReadError := none

def Stream.content (s : Stream) : Bytes := s.pieces.flatten ++ s.rest

/-- An entry. The name is the text it is read as; `label` is the library's own reading of it. -/
structure Entry where
  name : Bytes
  label : Bytes
  isDir : Bool
  /-- a tar entry that says it is a link, of either kind -/
  isLink : Bool
  mode : Option ℕ
  /-- the Windows attributes of a 7z entry -/
  attributes : Option ℕ
  size : ℕ
  stream : Stream

/-- An entry of a listing. -/
structure Listed where
  name : Bytes
  size : ℕ

/-- What the libraries make of a file. -/
structure Archive where
  /-- `list_with` -/
  listing : Except Error (List Listed)
  /-- the error of opening it to be extracted -/
  opened : Option Trouble
  turns : List (Except Trouble Entry)

def Listed.first (e : Listed) : Bytes := (e.name.splitOn slash).head?.getD []

def singleRootFrom : Option Bytes → List Listed → Option Bytes
  | root, [] => root
  | root, e :: es =>
    if e.first = [] then none
    else match root with
    | none => singleRootFrom (some e.first) es
    | some r => if r = e.first then singleRootFrom root es else none

/-- `single_root` -/
def singleRoot (entries : List Listed) : Option Bytes := singleRootFrom none entries

/-! ## What is let through -/

/-- The components of a name on the way: where it goes, and whether anything was written. -/
def joinParts (name : Bytes) : PathBuf × Bool → PathBuf → Except Error (PathBuf × Bool)
  | out, [] => .ok out
  | (out, _), .normal p :: parts =>
    if (92 : UInt8) ∈ p then
      .error (.badRequest [.str "archive entry has a backslash in a component: ", .name name])
    else joinParts name (out ++ [.normal p], true) parts
  | out, .curDir :: parts => joinParts name out parts
  | _, .parentDir :: _ => .error (.escapes [.name name])
  | _, .rootDir :: _ => .error (.escapes [.name name])

/-- `safe_join` -/
def safeJoin (dest : PathBuf) (name : Bytes) : Except Error PathBuf := do
  let (out, wrote) ← joinParts name (dest, false) (components name)
  if wrote then .ok out else .error (.badRequest [.str "archive entry has no name: ", .name name])

def isSymlinkMode (mode : Option ℕ) : Bool := mode.any fun m => m &&& 0o170000 == 0o120000

/-- `unix_mode`, of a 7z entry. -/
def unixMode (entry : Entry) : Option ℕ :=
  match entry.attributes with
  | none => none
  | some attributes => if attributes &&& 0x8000 = 0 then none else some (attributes >>> 16)

def zipError (path : PathBuf) (t : Trouble) : Error :=
  if t.password then .needsPassword [.path path] else .tool [.str "zip"] t.message

def sevenZipError (path : PathBuf) (t : Trouble) : Error :=
  if t.password then .needsPassword [.path path] else .tool [.str "7z"] t.message

def tarError (path : PathBuf) (t : Trouble) : Error := .ofErrno [.path path] t.errno

/-! ## The calls -/

variable (k : Kernel)

def dirAll (path : PathBuf) : Act World Error Unit := (k.createDirAll path).mapErr (.ofErrno [.path path])

/-- `create_parent` -/
def createParent (path : PathBuf) : Act World Error Unit :=
  match PathBuf.parent path with
  | some parent => dirAll k parent
  | none => pure ()

/-- `set_mode` -/
def setMode (path : PathBuf) (mode : ℕ) : Act World Error Unit :=
  (k.setPermissions path (mode &&& 0o777)).mapErr (.ofErrno [.path path])

/-- The pieces of an entry, one write each. -/
def writePieces (p : Path) : List Bytes → Act World Errno Unit
  | [] => pure ()
  | piece :: pieces => do
    k.write p piece
    writePieces p pieces

/-- `io::copy` into a buffered file, and the flush. What a reader that fails has left in the buffer is
written all the same, and nobody hears how. -/
def copy (p : Path) (out : PathBuf) (readError : ReadError → Error) (s : Stream) : Act World Error Unit := do
  (writePieces k p s.pieces).mapErr (.ofErrno [.path out])
  let last : Act World Errno Unit := if s.rest = [] then pure () else k.write p s.rest
  match s.trouble with
  | some e => do
    let _ ← last.attempt
    Act.fail (readError e)
  | none => last.mapErr (.ofErrno [.path out])

/-- A file of the archive. -/
def writeFile (out : PathBuf) (readError : ReadError → Error) (s : Stream) (mode : Option ℕ) :
    Act World Error Unit := do
  createParent k out
  let p ← (k.createFile out).mapErr (.ofErrno [.path out])
  copy k p out readError s
  match mode with
  | some mode => setMode k out mode
  | none => pure ()

/-- Tell the reporter which entry is next, and ask whether to go on. -/
def step (rep : Reporter) (path : PathBuf) : Act World Error Flow := do
  Ops.setProgress fun p => { p with current := path }
  Ops.report rep

/-- Say what has now been done; the answer is not read. -/
def finished (rep : Reporter) : Act World Error Unit := do
  let _ ← Ops.report rep
  pure ()

def cancelled : Act World Error Flow := do
  Ops.setOut fun o => { o with cancelled := true }
  pure .cancel

/-- An entry is done. -/
def counted (rep : Reporter) (size : ℕ) : Act World Error Flow := do
  Ops.countItem
  Ops.countBytes size
  finished rep
  pure .continue

/-! ## The three loops -/

variable (rep : Reporter) (path target : PathBuf)

/-- A turn of `extract_zip`. -/
def zipTurn : Except Trouble Entry → Act World Error Flow
  | .error t => Act.fail (zipError path t)
  | .ok entry => do
    let out ← Act.lift (safeJoin target entry.name)
    if (← step rep out) = .cancel then cancelled
    else if entry.isDir then do
      dirAll k out
      counted rep 0
    else if isSymlinkMode entry.mode then
      Act.fail (.escapes [.name entry.label, .str " is a symlink entry"])
    else do
      writeFile k out (fun e => .ofErrno [.path out] e.kind) entry.stream entry.mode
      counted rep entry.size

/-- `write_7z_entry` -/
def writeSevenZipEntry (encrypted : Bool) (entry : Entry) : Act World Error Unit := do
  let out ← Act.lift (safeJoin target entry.name)
  if entry.isDir then dirAll k out
  else if isSymlinkMode (unixMode entry) then
    Act.fail (.escapes [.name entry.name, .str " is a symlink entry"])
  else
    writeFile k out (fun e =>
      if encrypted && !e.system then .needsPassword [.path path] else .ofErrno [.path out] e.kind)
      entry.stream (unixMode entry)

/-- A turn of `extract_7z`. -/
def sevenZipTurn (encrypted : Bool) : Except Trouble Entry → Act World Error Flow
  | .error t => Act.fail (sevenZipError path t)
  | .ok entry => do
    if (← step rep (join target entry.name)) = .cancel then cancelled
    else do
      writeSevenZipEntry k path target encrypted entry
      counted rep entry.size

/-- A turn of `extract_tar`. -/
def tarTurn : Except Trouble Entry → Act World Error Flow
  | .error t => Act.fail (tarError path t)
  | .ok entry => do
    if entry.isLink then Act.fail (.escapes [.name entry.name, .str " is a link entry"])
    else do
      let out ← Act.lift (safeJoin target entry.name)
      if (← step rep out) = .cancel then cancelled
      else if entry.isDir then do
        dirAll k out
        counted rep 0
      else do
        writeFile k out (fun e => .ofErrno [.path out] e.kind) entry.stream entry.mode
        counted rep entry.size

def turn (format : Format) (encrypted : Bool) : Except Trouble Entry → Act World Error Flow :=
  match format with
  | .zip => zipTurn k rep path target
  | .sevenZip => sevenZipTurn k rep path target encrypted
  | _ => tarTurn k rep path target

def openError (format : Format) (t : Trouble) : Error :=
  match format with
  | .zip => zipError path t
  | .sevenZip => sevenZipError path t
  | _ => tarError path t

/-! ## The whole -/

inductive Destination
  | here | childFolder | smart
  deriving DecidableEq

/-- The folder the contents go to. -/
def targetOf (a : Archive) (into : PathBuf) : Destination → Except Error PathBuf
  | .here => .ok into
  | .childFolder => .ok (join into (stripArchiveSuffix (nameOf path)))
  | .smart =>
    a.listing.map fun listed =>
      if (singleRoot listed).isSome then into else join into (stripArchiveSuffix (nameOf path))

/-- `extract_with` -/
def extractWith (a : Archive) (path into : PathBuf) (dest : Destination) (encrypted : Bool)
    (rep : Reporter) : Act World Error PathBuf := do
  let format ← Act.lift (formatOf path)
  let target ← Act.lift (targetOf path a into dest)
  dirAll k target
  let listed := a.listing.toOption.getD []
  Ops.setProgress fun _ => { totalItems := listed.length, totalBytes := (listed.map Listed.size).sum }
  Ops.setOut fun _ => {}
  match a.opened with
  | some t => Act.fail (openError path format t)
  | none => do
    let _ ← Act.each .continue (turn k rep path target format encrypted) a.turns
    pure target

end Aurade.Ops.Extract
