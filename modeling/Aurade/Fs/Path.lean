import Aurade.Foundations.Bytes

/-!
# Names and paths

File names are byte strings; a `Name` is one that a directory can hold. A `Path` is where a node
is: the names from the root down, with no link and no `..` in it. A `PathBuf` is a path as a caller
writes it, by the components `std::path` reads it as: what it names depends on the links on the way
(`Aurade.Fs.resolve`). `parent`, `fileName` and `join` are the lexical functions of `std::path`.
-/

namespace Aurade.Fs

/-- The byte `/`. -/
abbrev slash : UInt8 := 47

/-- The byte `.`. -/
abbrev dot : UInt8 := 46

/-- A name a directory can hold: not empty, not `.` or `..`, with no slash and no null. -/
def IsName (b : Bytes) : Prop := b ≠ [] ∧ b ≠ [dot] ∧ b ≠ [dot, dot] ∧ slash ∉ b ∧ 0 ∉ b

instance : DecidablePred IsName := fun _ => inferInstanceAs (Decidable (_ ∧ _))

/-- A file name. -/
abbrev Name := {b : Bytes // IsName b}

/-- The bytes as a file name, where they are one. -/
def toName? (b : Bytes) : Option Name := if h : IsName b then some ⟨b, h⟩ else none

@[simp] theorem toName?_val (n : Name) : toName? n.val = some n := dif_pos n.property

theorem toName?_eq_some {b : Bytes} {n : Name} (h : toName? b = some n) : b = n.val := by
  unfold toName? at h
  split at h
  · exact (congrArg Subtype.val (Option.some.inj h))
  · simp at h

/-- Where a node is: the names from the root down. -/
abbrev Path := List Name

/-- The place with these names, for examples; what is no name is left out. -/
def Path.of (names : List String) : Path := names.filterMap fun s => toName? (text s)

/-- A component of a path as it is written. -/
inductive Component
  | rootDir
  | curDir
  | parentDir
  | normal (b : Bytes)
  deriving DecidableEq

/-- A path as it is written, absolute when it starts with `rootDir`. -/
abbrev PathBuf := List Component

/-- What a part between slashes is: nothing, where it is empty or `.`. -/
def component (part : Bytes) : Option Component :=
  if part = [] ∨ part = [dot] then none
  else if part = [dot, dot] then some .parentDir
  else some (.normal part)

/-- `Path::components`: empty parts and every `.` but a leading one are dropped. -/
def components (s : Bytes) : PathBuf :=
  if s.head? = some slash then .rootDir :: (s.splitOn slash).filterMap component
  else (if (s.splitOn slash).head? = some [dot] then [.curDir] else []) ++
    (s.splitOn slash).filterMap component

/-- `Path::parent`. -/
def PathBuf.parent (p : PathBuf) : Option PathBuf :=
  match p.getLast? with
  | none | some .rootDir => none
  | some _ => some p.dropLast

/-- `Path::file_name`. -/
def PathBuf.fileName (p : PathBuf) : Option Bytes :=
  match p.getLast? with
  | some (.normal b) => some b
  | _ => none

/-- `Path::join` with one name. -/
def PathBuf.join (p : PathBuf) (n : Name) : PathBuf := p ++ [.normal n.val]

/-- The absolute path of a place. -/
def PathBuf.ofPath (p : Path) : PathBuf := .rootDir :: p.map fun n => .normal n.val

/-- The bytes of the absolute path of a place. -/
def Path.render (p : Path) : Bytes := p.flatMap fun n => slash :: n.val

theorem splitOn_eq_singleton {b : Bytes} (h : slash ∉ b) : b.splitOn slash = [b] := by
  have := List.splitOn_intercalate slash (show ∀ l ∈ [b], slash ∉ l by simpa using h) (by simp)
  simpa using this

theorem component_name (n : Name) : component n.val = some (.normal n.val) := by
  obtain ⟨h, h', h'', -, -⟩ := n.property
  simp [component, h, h', h'']

/-- A name is read as the one component it is. -/
theorem components_name (n : Name) : components n.val = [.normal n.val] := by
  obtain ⟨h, h', h'', hs, -⟩ := n.property
  have hhead : n.val.head? ≠ some slash := fun hh => hs (List.mem_of_mem_head? hh)
  rw [components, if_neg hhead, splitOn_eq_singleton hs]
  simp [component_name, h']

theorem splitOn_render (n : Name) (p : Path) :
    (Path.render (n :: p)).splitOn slash = [] :: n.val :: p.map Subtype.val := by
  have hrender : ∀ p : Path, Path.render p = (p.map fun n => slash :: n.val).flatten :=
    fun p => by rw [Path.render, List.flatMap_def]
  have h : Path.render (n :: p) =
      [slash].intercalate ([] :: n.val :: p.map Subtype.val) := by
    rw [hrender]
    induction p generalizing n with
    | nil => simp [List.intercalate]
    | cons m p ih =>
      have := ih m
      simp only [List.map_cons, List.flatten_cons, List.intercalate, List.intersperse] at this ⊢
      simp only [List.nil_append, List.cons_append] at this ⊢
      rw [← this]
  rw [h, List.splitOn_intercalate]
  · intro l hl
    rcases List.mem_cons.1 hl with rfl | hl
    · simp
    · obtain ⟨m, -, rfl⟩ := List.mem_map.1 (show l ∈ (n :: p).map Subtype.val from hl)
      exact m.property.2.2.2.1
  · simp

/-- **A place is read back from its bytes.** -/
theorem components_render {p : Path} (hp : p ≠ []) :
    components (Path.render p) = PathBuf.ofPath p := by
  cases p with
  | nil => exact absurd rfl hp
  | cons n p =>
    have hhead : (Path.render (n :: p)).head? = some slash := by simp [Path.render]
    have hmap : ∀ q : Path, (q.map Subtype.val).filterMap component =
        q.map fun n => Component.normal n.val := by
      intro q
      rw [List.filterMap_map]
      induction q with
      | nil => rfl
      | cons m q ih =>
        rw [List.filterMap_cons_some (b := .normal m.val) (component_name m), ih]
        rfl
    rw [components, if_pos hhead, splitOn_render, PathBuf.ofPath]
    have := hmap (n :: p)
    rw [List.map_cons] at this
    rw [List.filterMap_cons_none (by simp [component]), this]

@[simp] theorem parent_join (p : PathBuf) (n : Name) : (p.join n).parent = some p := by
  simp [PathBuf.parent, PathBuf.join]

@[simp] theorem fileName_join (p : PathBuf) (n : Name) : (p.join n).fileName = some n.val := by
  simp [PathBuf.fileName, PathBuf.join]

theorem ofPath_append (p : Path) (n : Name) :
    PathBuf.ofPath (p ++ [n]) = (PathBuf.ofPath p).join n := by
  simp [PathBuf.ofPath, PathBuf.join]

/-! ## Names made from names -/

theorem isName_append {b c : Bytes} (hb : IsName b) (hc : c ≠ []) (hdot : ∀ x ∈ c, x ≠ dot)
    (hs : slash ∉ c) (h0 : 0 ∉ c) : IsName (b ++ c) := by
  obtain ⟨hne, -, -, hbs, hb0⟩ := hb
  obtain ⟨x, c', rfl⟩ := List.exists_cons_of_ne_nil hc
  have hx : x ≠ dot := hdot x List.mem_cons_self
  refine ⟨by simp, ?_, ?_, by simp_all, by simp_all⟩
  · intro h
    exact hdot x List.mem_cons_self
      (List.mem_singleton.1 (h ▸ List.mem_append_right b List.mem_cons_self))
  · intro h
    have : x ∈ ([dot, dot] : Bytes) := h ▸ List.mem_append_right b List.mem_cons_self
    simp [hx] at this

/-- `to_string_lossy` of a name is a name. -/
theorem isName_lossy (n : Name) : IsName (Utf8.lossy n.val) := by
  obtain ⟨hne, h1, h2, hs, h0⟩ := n.property
  have hmem : ∀ c, c ∈ Utf8.lossy n.val → c ∉ n.val → c ∈ Utf8.replacement :=
    fun c hc hn => (Utf8.mem_lossy hc).resolve_left hn
  refine ⟨Utf8.lossy_ne_nil hne, fun h => h1 ?_, fun h => h2 ?_, fun h => ?_, fun h => ?_⟩
  · rw [← h]
    exact (Utf8.lossy_eq_self_of_ascii (by simp [h, dot])).symm
  · rw [← h]
    exact (Utf8.lossy_eq_self_of_ascii (by simp [h, dot])).symm
  · exact absurd (hmem _ h hs) (by decide)
  · exact absurd (hmem _ h h0) (by decide)

/-- `to_string_lossy` of a name. -/
def Name.toStringLossy (n : Name) : Name := ⟨Utf8.lossy n.val, isName_lossy n⟩

/-- A name that is UTF-8 is its own text. -/
theorem toStringLossy_eq_self_iff {n : Name} :
    n.toStringLossy = n ↔ Utf8.valid n.val = true := by
  rw [← Utf8.lossy_eq_self_iff, Name.toStringLossy, Subtype.ext_iff]

end Aurade.Fs
