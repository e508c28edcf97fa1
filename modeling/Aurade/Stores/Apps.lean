import Aurade.Foundations.Percent
import Aurade.Stores.File
import Std.Data.ExtTreeMap

/-!
# Which application opens what

`mimeapps.list` and the part of the registry that `set_default` reads and changes. A list is a text
of sections, each with lines `type=id;id;...`: `parseMimeSection` reads one section, and
`upsertDefault` sets one line of `[Default Applications]` and leaves the others.
-/

namespace Aurade.Stores

open Fs

/-! ## URLs -/

/-- The bytes that stand for themselves in a URL. -/
def urlPlain (b : UInt8) : Bool :=
  (65 ≤ b && b ≤ 90) || (97 ≤ b && b ≤ 122) || isDigit b || [45, 95, 46, 126, 47].contains b

/-- A byte of a URL, with a percent sign and two digits where it has to be. -/
def urlByte (b : UInt8) : Bytes :=
  if urlPlain b then [b] else [37, hexUpper (b.toNat / 16), hexUpper (b.toNat % 16)]

/-- `file_url`. -/
def fileUrl (path : Bytes) : Bytes := text "file://" ++ (Utf8.lossy path).flatMap urlByte

/-- The bytes a URL is made of. -/
def urlSafe (b : UInt8) : Bool := urlPlain b || b = 37 || b = 58

theorem urlSafe_fileUrl (path : Bytes) : ∀ b ∈ fileUrl path, urlSafe b = true := by
  have hdigit : ∀ n < 16, urlSafe (hexUpper n) = true := by decide
  have hbyte : ∀ x, ∀ c ∈ urlByte x, urlSafe c = true := by
    intro x c hc
    have hlt : x.toNat < 256 := x.toNat_lt
    rw [urlByte] at hc
    split at hc
    · next hplain =>
      rw [List.mem_singleton.1 hc, urlSafe, hplain]
      rfl
    · rcases List.mem_cons.1 hc with rfl | hc
      · decide
      · rcases List.mem_pair.1 hc with rfl | rfl
        · exact hdigit _ (by omega)
        · exact hdigit _ (by omega)
  intro b hb
  rcases List.mem_append.1 hb with hb | hb
  · have hscheme : ∀ c ∈ text "file://", urlSafe c = true := by decide +kernel
    exact hscheme b hb
  · obtain ⟨x, -, hx⟩ := List.mem_flatMap.1 hb
    exact hbyte x b hx

/-! ## The lists -/

/-- The byte between a type and its applications. -/
abbrev equals : UInt8 := 61

/-- The applications of one line. -/
def parseIds (bs : Bytes) : List Bytes := ((bs.splitOn 59).map trimBytes).filter (· ≠ [])

/-- The loop of `parse_mime_section` from a line on, inside the section or not. -/
def mimeLines (section_ : Bytes) : Bool → List Bytes → List (Bytes × List Bytes)
  | _, [] => []
  | inside, line :: rest =>
    let line := trimBytes line
    if line.head? = some 91 then
      mimeLines section_ (line = text "[" ++ section_ ++ text "]") rest
    else if !inside || line = [] || line.head? = some 35 then mimeLines section_ inside rest
    else match splitOnce equals line with
      | some (mime, ids) => (trimBytes mime, parseIds ids) :: mimeLines section_ inside rest
      | none => mimeLines section_ inside rest

/-- `parse_mime_section`: each type of a section, with its applications. -/
def parseMimeSection (list section_ : Bytes) : List (Bytes × List Bytes) :=
  mimeLines section_ false (lines list)

/-- The name of the section of the defaults. -/
def defaultSection : Bytes := text "Default Applications"

/-- Its first line. -/
def defaultHeader : Bytes := text "[Default Applications]"

/-- The line that says which application opens a type. -/
def defaultLine (mime id : Bytes) : Bytes := mime ++ equals :: id

/-- A line about a type. -/
def isAbout (mime line : Bytes) : Bool :=
  (splitOnce equals line).any fun p => trimBytes p.1 = mime

/-- The lines of a list with the line of one type set. -/
def upsertLines (ls : List Bytes) (mime id : Bytes) : List Bytes :=
  match ls.findIdx? fun l => trimBytes l = defaultHeader with
  | some start =>
    let body := ls.drop (start + 1)
    let size := (body.findIdx? fun l => (trimStart l).head? = some 91).getD body.length
    match (body.take size).findIdx? (isAbout mime) with
    | some k => ls.set (start + 1 + k) (defaultLine mime id)
    | none => ls.insertIdx (start + 1 + size) (defaultLine mime id)
  | none =>
    (if (ls.getLast?.getD []) ≠ [] then ls ++ [[]] else ls) ++ [defaultHeader, defaultLine mime id]

/-- `upsert_default`. -/
def upsertDefault (list mime id : Bytes) : Bytes :=
  [newline].intercalate (upsertLines (lines list) mime id) ++ [newline]

/-! ## The registry -/

/-- What `set_default` reads and changes of the registry. `Entry` is what is known of an
application. -/
structure Registry (Entry : Type) where
  entries : Std.ExtTreeMap Bytes Entry
  defaults : Std.ExtTreeMap Bytes (List Bytes)
  removed : Std.ExtTreeMap Bytes (List Bytes)

/-- The registry and the user's own list. -/
structure Associations (Entry : Type) where
  registry : Registry Entry
  list : Option Bytes

/-- A type opened by an application from now on, and not kept from it any more. -/
def Registry.choose {Entry : Type} (r : Registry Entry) (mime id : Bytes) : Registry Entry :=
  { r with
    defaults := r.defaults.insert mime [id]
    removed := r.removed.modify mime fun ids => ids.filter (· ≠ id) }

section

variable {Entry : Type} (place : Option Place) (unreadable : Bool) (c : SaveCalls)

/-- `Registry::set_default`. -/
def setDefault (mime id : Bytes) : Act (Associations Entry) Error PathBuf := do
  let s ← Act.get
  if id ∉ s.registry.entries then
    Act.fail (.notFound [.str "no application ", .name id])
  else
    match place with
    | none => Act.fail (.badRequest [.str "no HOME, so no place to record this"])
    | some p => do
      Act.lift (answer p.dir c.createDir)
      let list := ((readToString unreadable s.list).map Subtype.val).getD []
      writeAtomically c p (fun bs s => { s with list := some bs }) (upsertDefault list mime id)
      Act.modify fun s => { s with registry := s.registry.choose mime id }
      pure p.path

end

end Aurade.Stores
