import Aurade.Foundations.PathTree
import Aurade.Foundations.Text
import Aurade.Fs.Error

/-!
# Searching a folder

`search` walks a folder and hands over what its query accepts, until a limit, the deadline or the
caller stops it. The tree holds still; what the clock says, which calls fail and what the caller
answers is open. A directory's entries are all looked at before its subdirectories are entered, which
are kept for later.

`eligible` is what should be found, as a condition on a place and what is there.
`search_finished` says that a search that finishes has handed over exactly that.
-/

namespace Aurade.Ops.Search

open Fs

/-! ## Queries -/

/-- The categories of the search box. -/
inductive Kind
  | folder | file | image | video | audio | document | archive | code
  deriving DecidableEq

/-- The extensions of a category. -/
def Kind.extensions : Kind → List String
  | folder | file => []
  | image => ["png", "jpg", "jpeg", "gif", "webp", "bmp", "svg", "avif", "heic", "tif", "tiff", "ico"]
  | video => ["mp4", "mkv", "webm", "mov", "avi", "m4v", "mpg", "mpeg", "wmv"]
  | audio => ["mp3", "flac", "ogg", "opus", "wav", "m4a", "aac", "wma"]
  | document => ["pdf", "txt", "md", "rtf", "doc", "docx", "odt", "xls", "xlsx", "ods", "ppt", "pptx",
      "odp", "epub"]
  | archive => ["zip", "7z", "tar", "gz", "xz", "zst", "bz2", "rar", "tgz", "txz"]
  | code => ["rs", "py", "js", "ts", "tsx", "jsx", "c", "h", "cc", "cpp", "hpp", "java", "go", "rb",
      "sh", "html", "css", "json", "toml", "yaml", "yml", "xml", "sql"]

/-- What a query is looking for. -/
structure Query where
  terms : List Bytes := []
  excluded : List Bytes := []
  content : Option Bytes := none
  extensions : List Bytes := []
  kinds : List Kind := []
  tags : List Bytes := []
  minSize : Option ℕ := none
  maxSize : Option ℕ := none
  modifiedAfter : Option ℤ := none
  modifiedBefore : Option ℤ := none
  caseSensitive : Bool := false

/-- Whether a query asks for nothing. -/
def Query.isEmpty (q : Query) : Bool :=
  q.terms = [] && q.excluded = [] && q.content = none && q.extensions = [] && q.kinds = [] &&
    q.tags = [] && q.minSize = none && q.maxSize = none && q.modifiedAfter = none &&
    q.modifiedBefore = none

/-- Where to stop; the deadline is the clock's. -/
structure Limits where
  maxResults : ℕ := 5000
  maxDepth : ℕ := 32
  maxContentBytes : ℕ := 8 * 2 ^ 20
  includeHidden : Bool := false
  crossDevices : Bool := false

/-! ## What there is to find -/

/-- A node, as a search sees it: what `statat` answers, its tags (none where they cannot be read) and
what reading it gives. -/
structure Info where
  type : FileType
  device : ℕ := 0
  size : ℤ := 0
  modified : ℤ := 0
  tags : List Bytes := []
  contents : Option Bytes := none
  deriving DecidableEq

def Info.isDir (info : Info) : Bool := info.type = .directory

/-- A result. -/
structure Hit where
  path : PathBuf
  name : Bytes
  isDir : Bool
  size : ℕ
  modified : ℤ
  line : Option (ℕ × Bytes)
  deriving DecidableEq

/-- The first `n` characters of a text. -/
def takeChars : ℕ → Bytes → Bytes
  | _, [] => []
  | n, b :: rest =>
    if Utf8.isCont b then b :: takeChars n rest
    else match n with
      | 0 => []
      | n + 1 => b :: takeChars n rest

section

variable (lower : Bytes → Bytes)

/-- A text as a query compares it: `lower` is `to_lowercase`. -/
def fold (caseSensitive : Bool) (t : Bytes) : Bytes := if caseSensitive then t else lower t

/-- What follows the last dot of a name, in lower case. -/
def extension (name : Bytes) : Bytes :=
  ((rsplitOnce 46 name).map fun p => p.2.map asciiLower).getD []

/-- `kind_matches`. -/
def kindMatches (q : Query) (name : Bytes) (isDir : Bool) : Bool :=
  q.kinds.any fun
    | .folder => isDir
    | .file => !isDir
    | other => !isDir && other.extensions.any fun e => text e = extension name

/-- The loop of `find_in_file`, from a line on: the end of a file that is no text is not reached. -/
def findLine (caseSensitive : Bool) (needle : Bytes) : ℕ → List Bytes → Option (ℕ × Bytes)
  | _, [] => none
  | index, line :: rest =>
    if !Utf8.valid line then none
    else if needle <:+: fold lower caseSensitive line then
      some (index + 1,
        if 300 < (line.filter fun b => !Utf8.isCont b).length then takeChars 300 line ++ text "…"
        else line)
    else findLine caseSensitive needle (index + 1) rest

/-- `find_in_file`, of what reading the file gives. -/
def findInFile (contents : Option Bytes) (needle : Bytes) (caseSensitive : Bool) :
    Option (ℕ × Bytes) :=
  contents.bind fun bs =>
    if 0 ∈ bs.take 1024 then none
    else findLine lower caseSensitive (fold lower caseSensitive needle) 0 (lines bs)

/-- `consider`. -/
def consider (q : Query) (limits : Limits) (full : PathBuf) (name : Bytes) (info : Info) :
    Option Hit :=
  let haystack := fold lower q.caseSensitive name
  if !q.terms.all fun t => fold lower q.caseSensitive t <:+: haystack then none
  else if q.excluded.any fun t => fold lower q.caseSensitive t <:+: haystack then none
  else if q.kinds ≠ [] && !kindMatches q name info.isDir then none
  else if q.extensions ≠ [] && !q.extensions.any fun e => e = extension name then none
  else if (q.minSize ≠ none || q.maxSize ≠ none) && (info.isDir ||
      q.minSize.any (info.size.toNat < ·) || q.maxSize.any (· < info.size.toNat)) then none
  else if q.modifiedAfter.any (info.modified < ·) then none
  else if q.modifiedBefore.any (· < info.modified) then none
  else if q.tags ≠ [] && !q.tags.all fun want =>
      info.tags.any fun t => t.map asciiLower = want.map asciiLower then none
  else
    let hit := fun line => Hit.mk full name info.isDir info.size.toNat info.modified line
    match q.content with
    | none => some (hit none)
    | some needle =>
      if info.isDir || limits.maxContentBytes < info.size.toNat then none
      else (findInFile lower info.contents needle q.caseSensitive).map fun line => hit (some line)

end

/-! ## The walk -/

/-- Why a search stopped. -/
inductive Stopped
  | finished | hitResultLimit | ranOutOfTime | cancelled
  deriving DecidableEq

/-- The calls of a search that can fail. -/
inductive Call
  | list (p : Path)
  | stat (p : Path)
  | «open» (p : Path)

/-- What a search meets: the tree below the folder, the calls that fail, whether the deadline is over
when the clock is read for the nth time, and the caller's answer to the hits so far. -/
structure Scene where
  tree : PathTree Name Info Info.isDir
  fails : Call → Option Errno := fun _ => none
  late : ℕ → Bool := fun _ => false
  found : List Hit → Bool := fun _ => true

/-- The search so far. -/
structure Walk where
  hits : ℕ := 0
  examined : ℕ := 0
  stopped : Stopped := .finished
  /-- How often the clock was read. -/
  looks : ℕ := 0
  /-- What was handed over. -/
  given : List Hit := []

/-- What a search did. -/
structure Report where
  hits : ℕ
  examined : ℕ
  stopped : Stopped
  deriving DecidableEq

/-- `skip_for_device`. -/
def skipForDevice (isDir crossDevices : Bool) (entryDevice startDevice : ℕ) : Bool :=
  isDir && !crossDevices && entryDevice ≠ startDevice

section

variable (s : Scene) (lower : Bytes → Bytes) (q : Query) (limits : Limits) (dir : PathBuf)

/-- The device of the folder. -/
def Scene.device : ℕ := ((s.tree.get []).map Info.device).getD 0

/-- The path of a place below the folder. -/
def full (p : Path) : PathBuf := dir ++ p.map fun n => .normal n.val

/-- What is done with an entry that is looked at. -/
def handOver (p : Path) (name : Bytes) (info : Info) (w : Walk) : Walk :=
  match consider lower q limits (full dir p) name info with
  | none => w
  | some hit =>
    let w := { w with hits := w.hits + 1, given := w.given ++ [hit] }
    if !s.found w.given then { w with stopped := .cancelled }
    else if limits.maxResults ≤ w.hits then { w with stopped := .hitResultLimit }
    else w

/-- Whether the walk looks at what is at a place. -/
def Scene.sees (p : Path) (name : Bytes) (info : Info) : Bool :=
  (limits.includeHidden || name.head? ≠ some dot) && s.fails (.stat p) = none &&
    info.type ≠ .symlink &&
    !skipForDevice info.isDir limits.crossDevices info.device s.device

/-- The loop of `descend` over the names of a directory; with it, the directories for later. -/
def visit (here : Path) : List Name → List Name → Walk → Walk × List Name
  | [], subdirs, w => (w, subdirs)
  | n :: names, subdirs, w =>
    if w.stopped ≠ .finished then (w, subdirs)
    else if s.late w.looks then
      ({ w with looks := w.looks + 1, stopped := .ranOutOfTime }, subdirs)
    else
      let w := { w with looks := w.looks + 1 }
      match s.tree.get (here ++ [n]) with
      | none => visit here names subdirs w
      | some info =>
        if s.sees limits (here ++ [n]) (Utf8.lossy n.val) info then
          let w := { w with examined := w.examined + 1 }
          let w := handOver s lower q limits dir (here ++ [n]) (Utf8.lossy n.val) info w
          if w.stopped ≠ .finished then (w, subdirs)
          else visit here names (if info.isDir then subdirs ++ [n] else subdirs) w
        else visit here names subdirs w

/-- `descend`, with so many levels left down to `max_depth`. -/
def descend : ℕ → Path → Walk → Walk
  | 0, _, w => w
  | left + 1, here, w =>
    if w.stopped ≠ .finished || s.fails (.list here) ≠ none then w
    else
      let (w, subdirs) := visit s lower q limits dir here (s.tree.names here) [] w
      subdirs.foldl (fun w n =>
        if w.stopped ≠ .finished || s.fails (.open (here ++ [n])) ≠ none then w
        else descend left (here ++ [n]) w) w

/-- `search`: the report, and what was handed over. -/
def search : Except Error (Report × List Hit) :=
  match s.fails (.open []), s.fails (.stat []) with
  | some e, _ => .error (.ofErrno [.path dir] e)
  | none, some e => .error (.ofRootErrno [.curDir] e)
  | none, none =>
    let w := if q.isEmpty then {} else descend s lower q limits dir (limits.maxDepth + 1) [] {}
    .ok (⟨w.hits, w.examined, w.stopped⟩, w.given)

end

/-! ## What should be found -/

/-- What a query accepts. -/
structure Query.Accepts (lower : Bytes → Bytes) (limits : Limits) (q : Query) (name : Bytes)
    (info : Info) : Prop where
  terms : ∀ t ∈ q.terms, fold lower q.caseSensitive t <:+: fold lower q.caseSensitive name
  excluded : ∀ t ∈ q.excluded, ¬fold lower q.caseSensitive t <:+: fold lower q.caseSensitive name
  kinds : q.kinds ≠ [] → kindMatches q name info.isDir = true
  extensions : q.extensions ≠ [] → extension name ∈ q.extensions
  minSize : ∀ m ∈ q.minSize, info.isDir = false ∧ m ≤ info.size.toNat
  maxSize : ∀ m ∈ q.maxSize, info.isDir = false ∧ info.size.toNat ≤ m
  after : ∀ t ∈ q.modifiedAfter, t ≤ info.modified
  before : ∀ t ∈ q.modifiedBefore, info.modified ≤ t
  tags : ∀ want ∈ q.tags, ∃ t ∈ info.tags, t.map asciiLower = want.map asciiLower
  content : ∀ needle ∈ q.content, info.isDir = false ∧ info.size.toNat ≤ limits.maxContentBytes ∧
    (findInFile lower info.contents needle q.caseSensitive).isSome

/-- The result of a query at a place. -/
def hitOf (lower : Bytes → Bytes) (q : Query) (dir : PathBuf) (p : Path) (name : Bytes)
    (info : Info) : Hit where
  path := full dir p
  name
  isDir := info.isDir
  size := info.size.toNat
  modified := info.modified
  line := q.content.bind fun needle => findInFile lower info.contents needle q.caseSensitive

section

variable {s : Scene} {lower : Bytes → Bytes} {q : Query} {limits : Limits} {dir : PathBuf}

/-- `consider` is the filter of the query. -/
theorem consider_eq_some_iff {p : Path} {name : Bytes} {info : Info} {hit : Hit} :
    consider lower q limits (full dir p) name info = some hit ↔
      q.Accepts lower limits name info ∧ hit = hitOf lower q dir p name info := by
  have hstep : ∀ {c : Bool} {x : Option Hit}, (if c then none else x) = some hit ↔
      c = false ∧ x = some hit := by
    intro c x
    cases c <;> simp
  have hsize : ((q.minSize ≠ none || q.maxSize ≠ none) && (info.isDir ||
      q.minSize.any (info.size.toNat < ·) || q.maxSize.any (· < info.size.toNat))) = false ↔
      (∀ m ∈ q.minSize, info.isDir = false ∧ m ≤ info.size.toNat) ∧
        ∀ m ∈ q.maxSize, info.isDir = false ∧ info.size.toNat ≤ m := by
    cases q.minSize <;> cases q.maxSize <;> cases info.isDir <;> simp
  have hcontent : (match q.content with
      | none => some (Hit.mk (full dir p) name info.isDir info.size.toNat info.modified none)
      | some needle =>
        if info.isDir || limits.maxContentBytes < info.size.toNat then none
        else (findInFile lower info.contents needle q.caseSensitive).map fun line =>
          Hit.mk (full dir p) name info.isDir info.size.toNat info.modified (some line)) = some hit ↔
      (∀ needle ∈ q.content, info.isDir = false ∧ info.size.toNat ≤ limits.maxContentBytes ∧
        (findInFile lower info.contents needle q.caseSensitive).isSome) ∧
        hit = hitOf lower q dir p name info := by
    have hsame : ∀ {a b : Hit}, some a = some b ↔ b = a := by
      intro a b
      rw [Option.some.injEq]
      exact eq_comm
    rw [hitOf]
    cases q.content with
    | none =>
      rw [hsame]
      exact (and_iff_right nofun).symm
    | some needle =>
      dsimp only
      rw [hstep, Option.bind_some]
      simp only [Option.mem_some_iff, forall_eq', Bool.or_eq_false_iff, decide_eq_false_iff_not,
        not_lt, and_assoc]
      generalize findInFile lower info.contents needle q.caseSensitive = found
      cases found with
      | none => simp
      | some line =>
        rw [Option.map_some, hsame]
        exact ⟨fun h => ⟨h.1, h.2.1, rfl, h.2.2⟩, fun h => ⟨h.1, h.2.1, h.2.2.2⟩⟩
  have hdate : ∀ (date : Option ℤ) (late : ℤ → Bool),
      date.any late = false ↔ ∀ t ∈ date, late t = false := by
    intro date late
    cases date <;> simp
  have htags : (q.tags ≠ [] && !q.tags.all fun want =>
      info.tags.any fun t => t.map asciiLower = want.map asciiLower) = false ↔
      ∀ want ∈ q.tags, ∃ t ∈ info.tags, t.map asciiLower = want.map asciiLower := by
    cases q.tags <;> simp
  rw [consider]
  simp only [hstep, hsize, hcontent, hdate, htags]
  constructor
  · intro h
    obtain ⟨hterms, hexcluded, hkinds, hextensions, ⟨hmin, hmax⟩, hafter, hbefore, htag, hneedle,
      hhit⟩ := h
    exact ⟨⟨by simpa using hterms, by simpa using hexcluded, by simpa using hkinds,
      by simpa using hextensions, hmin, hmax, by simpa using hafter, by simpa using hbefore, htag,
      hneedle⟩, hhit⟩
  · intro h
    obtain ⟨⟨hterms, hexcluded, hkinds, hextensions, hmin, hmax, hafter, hbefore, htag, hneedle⟩,
      hhit⟩ := h
    exact ⟨by simpa using hterms, by simpa using hexcluded, by simpa using hkinds,
      by simpa using hextensions, ⟨hmin, hmax⟩, by simpa using hafter, by simpa using hbefore, htag,
      hneedle, hhit⟩

/-! ## What is walked -/

variable (s limits) in
/-- Whether the walk looks at an entry. -/
def Scene.seesAt (here : Path) (n : Name) : Bool :=
  (s.tree.get (here ++ [n])).any (s.sees limits (here ++ [n]) (Utf8.lossy n.val))

variable (s limits) in
/-- The directories among the entries it looks at. -/
def Scene.entersAt (here : Path) (n : Name) : Bool :=
  s.seesAt limits here n && (s.tree.get (here ++ [n])).any Info.isDir

variable (s limits) in
/-- The places looked at below one, so many levels down, in their order. -/
def Scene.walked : ℕ → Path → List Path
  | 0, _ => []
  | left + 1, here =>
    ((s.tree.names here).filter (s.seesAt limits here)).map (fun n => here ++ [n]) ++
      ((s.tree.names here).filter (s.entersAt limits here)).flatMap fun n =>
        walked left (here ++ [n])

/-- The last name of a place, as text. -/
def leafName (p : Path) : Bytes := Utf8.lossy ((p.getLast?.map Subtype.val).getD [])

variable (s lower q limits dir) in
/-- What is handed over at a place. -/
def hitAt (p : Path) : Option Hit :=
  (s.tree.get p).bind fun info => consider lower q limits (full dir p) (leafName p) info

theorem leafName_append (here : Path) (n : Name) : leafName (here ++ [n]) = Utf8.lossy n.val := by
  rw [leafName, List.getLast?_concat]
  rfl

theorem handOver_finished {p : Path} {name : Bytes} {info : Info} {w : Walk}
    (h : (handOver s lower q limits dir p name info w).stopped = .finished) :
    w.stopped = .finished ∧ (handOver s lower q limits dir p name info w).given =
      w.given ++ (consider lower q limits (full dir p) name info).toList := by
  rw [handOver] at h ⊢
  generalize consider lower q limits (full dir p) name info = found at h ⊢
  cases found with
  | none => exact ⟨h, (List.append_nil _).symm⟩
  | some hit =>
    dsimp only at h ⊢
    by_cases hfound : (!s.found (w.given ++ [hit])) = true
    · rw [if_pos hfound] at h
      cases h
    · rw [if_neg hfound] at h ⊢
      by_cases hlimit : limits.maxResults ≤ w.hits + 1
      · rw [if_pos hlimit] at h
        cases h
      · rw [if_neg hlimit] at h ⊢
        exact ⟨h, rfl⟩

/-- The loop over the names, where it comes to its end. -/
theorem visit_finished {here : Path} {names subdirs : List Name} {w : Walk}
    (h : (visit s lower q limits dir here names subdirs w).1.stopped = .finished) :
    w.stopped = .finished ∧
      (visit s lower q limits dir here names subdirs w).1.given = w.given ++
        ((names.filter (s.seesAt limits here)).map fun n => here ++ [n]).filterMap
          (hitAt s lower q limits dir) ∧
      (visit s lower q limits dir here names subdirs w).2 =
        subdirs ++ names.filter (s.entersAt limits here) := by
  induction names generalizing subdirs w with
  | nil => exact ⟨h, (List.append_nil _).symm, (List.append_nil _).symm⟩
  | cons n names ih =>
    rw [visit] at h ⊢
    by_cases hstopped : w.stopped ≠ .finished
    · rw [if_pos hstopped] at h
      exact absurd h hstopped
    · rw [if_neg hstopped] at h ⊢
      by_cases hlate : s.late w.looks = true
      · rw [if_pos hlate] at h
        cases h
      · rw [if_neg hlate] at h ⊢
        dsimp only at h ⊢
        refine ⟨not_not.1 hstopped, ?_⟩
        rw [List.filter_cons, List.filter_cons, Scene.entersAt, Scene.seesAt]
        cases hget : s.tree.get (here ++ [n]) with
        | none =>
          rw [hget] at h
          exact (ih h).2
        | some info =>
          rw [hget] at h
          rw [Option.any_some, Option.any_some]
          dsimp only at h ⊢
          by_cases hsees : s.sees limits (here ++ [n]) (Utf8.lossy n.val) info = true
          · rw [if_pos hsees] at h ⊢
            split at h
            · next hno => exact absurd h hno
            · next hgoes =>
              rw [if_neg hgoes, if_pos hsees, hsees, Bool.true_and, List.map_cons]
              obtain ⟨-, hgiven, hsubdirs⟩ := ih h
              obtain ⟨-, hhit⟩ := handOver_finished (not_not.1 hgoes)
              have hplace : hitAt s lower q limits dir (here ++ [n]) =
                  consider lower q limits (full dir (here ++ [n])) (Utf8.lossy n.val) info := by
                rw [hitAt, hget, Option.bind_some, leafName_append]
              rw [hgiven, hsubdirs, hhit, List.filterMap_cons, hplace]
              constructor
              · cases consider lower q limits (full dir (here ++ [n])) (Utf8.lossy n.val) info <;>
                  simp
              · cases info.isDir <;> simp
          · rw [if_neg hsees] at h ⊢
            rw [if_neg hsees, Bool.eq_false_iff.2 hsees]
            exact (ih h).2

/-- The whole walk, where it comes to its end and every call goes well. -/
theorem descend_finished (hfails : ∀ c, s.fails c = none) {left : ℕ} {here : Path} {w : Walk}
    (h : (descend s lower q limits dir left here w).stopped = .finished) :
    w.stopped = .finished ∧ (descend s lower q limits dir left here w).given =
      w.given ++ (s.walked limits left here).filterMap (hitAt s lower q limits dir) := by
  induction left generalizing here w with
  | zero => exact ⟨h, (List.append_nil _).symm⟩
  | succ left ih =>
    have hsubdirs : ∀ (subdirs : List Name) (w : Walk),
        (subdirs.foldl (fun w n =>
          if w.stopped ≠ .finished || s.fails (.open (here ++ [n])) ≠ none then w
          else descend s lower q limits dir left (here ++ [n]) w) w).stopped = .finished →
        w.stopped = .finished ∧ (subdirs.foldl (fun w n =>
          if w.stopped ≠ .finished || s.fails (.open (here ++ [n])) ≠ none then w
          else descend s lower q limits dir left (here ++ [n]) w) w).given =
          w.given ++ (subdirs.flatMap fun n => s.walked limits left (here ++ [n])).filterMap
            (hitAt s lower q limits dir) := by
      intro subdirs
      induction subdirs with
      | nil => exact fun w h => ⟨h, (List.append_nil _).symm⟩
      | cons n subdirs ihs =>
        intro w h
        rw [List.foldl_cons] at h ⊢
        obtain ⟨hfirst, hgiven⟩ := ihs _ h
        rw [hgiven]
        by_cases hstopped : w.stopped = .finished
        · have hgo : ¬(decide (w.stopped ≠ .finished) ||
              decide (s.fails (.open (here ++ [n])) ≠ none)) = true := by
            simp [hstopped, hfails]
          rw [if_neg hgo] at hfirst ⊢
          refine ⟨hstopped, ?_⟩
          rw [(ih hfirst).2, List.flatMap_cons, List.filterMap_append, List.append_assoc]
        · rw [if_pos (by simp [hstopped])] at hfirst
          exact absurd hfirst hstopped
    rw [descend] at h ⊢
    by_cases hstopped : w.stopped = .finished
    · have hgo : ¬(decide (w.stopped ≠ .finished) || decide (s.fails (.list here) ≠ none)) = true := by
        simp [hstopped, hfails]
      rw [if_neg hgo] at h ⊢
      refine ⟨hstopped, ?_⟩
      obtain ⟨hvisit, hgiven⟩ := hsubdirs _ _ h
      obtain ⟨-, hentries, hlater⟩ := visit_finished hvisit
      rw [hgiven, hentries, hlater, List.nil_append, Scene.walked, List.filterMap_append,
        List.append_assoc]
    · rw [if_pos (by simp [hstopped])] at h
      exact absurd h hstopped

theorem isSome_of_seesAt {here : Path} {n : Name} (h : s.seesAt limits here n = true) :
    (s.tree.get (here ++ [n])).isSome := by
  rw [Scene.seesAt] at h
  obtain ⟨info, hinfo, -⟩ := (Option.any_eq_true _ _).1 h
  rw [hinfo]
  rfl

/-- A place is looked at where every entry on the way to it is. -/
theorem mem_walked {left : ℕ} {here p : Path} :
    p ∈ s.walked limits left here ↔ ∃ r, r ≠ [] ∧ p = here ++ r ∧ r.length ≤ left ∧
      ∀ u n, u ++ [n] <+: r → s.seesAt limits (here ++ u) n = true := by
  induction left generalizing here p with
  | zero =>
    refine iff_of_false List.not_mem_nil fun h => ?_
    obtain ⟨r, hr, -, hlen, -⟩ := h
    exact hr (List.length_eq_zero_iff.1 (Nat.le_zero.1 hlen))
  | succ left ih =>
    rw [Scene.walked, List.mem_append, List.mem_map, List.mem_flatMap]
    constructor
    · intro h
      rcases h with ⟨n, hn, rfl⟩ | ⟨n, hn, hp⟩
      · refine ⟨[n], by simp, rfl, by simp, fun u m hu => ?_⟩
        obtain ⟨rfl, rfl⟩ : u = [] ∧ m = n := by
          cases u with
          | nil => exact ⟨rfl, (List.cons_prefix_cons.1 hu).1⟩
          | cons x u => exact absurd hu.length_le (by simp)
        rw [List.append_nil]
        exact (List.mem_filter.1 hn).2
      · obtain ⟨r, hr, rfl, hlen, hall⟩ := ih.1 hp
        have hsees : s.seesAt limits here n = true := by
          have henters := (List.mem_filter.1 hn).2
          rw [Scene.entersAt, Bool.and_eq_true] at henters
          exact henters.1
        refine ⟨n :: r, by simp, by simp, by simpa using hlen, fun u m hu => ?_⟩
        cases u with
        | nil =>
          rw [List.append_nil, (List.cons_prefix_cons.1 hu).1]
          exact hsees
        | cons x u =>
          obtain ⟨rfl, hrest⟩ := List.cons_prefix_cons.1 hu
          rw [List.append_cons]
          exact hall u m hrest
    · intro h
      obtain ⟨r, hr, rfl, hlen, hall⟩ := h
      obtain ⟨n, r, rfl⟩ := List.exists_cons_of_ne_nil hr
      have hsees := hall [] n (List.prefix_append [n] r)
      rw [List.append_nil] at hsees
      have hname : n ∈ s.tree.names here := s.tree.mem_names.2 (isSome_of_seesAt hsees)
      cases r with
      | nil => exact Or.inl ⟨n, List.mem_filter.2 ⟨hname, hsees⟩, rfl⟩
      | cons m r =>
        have hnext := hall [n] m (List.prefix_append [n, m] r)
        obtain ⟨info, hinfo, hdir⟩ :=
          s.tree.isBranch_iff.1 (s.tree.isBranch_of_get (isSome_of_seesAt hnext))
        have henters : s.entersAt limits here n = true := by
          rw [Scene.entersAt, hsees, hinfo]
          exact hdir
        refine Or.inr ⟨n, List.mem_filter.2 ⟨hname, henters⟩, ih.2 ⟨m :: r, by simp, by simp,
          by simpa using hlen, fun u k hu => ?_⟩⟩
        have hrest := hall (n :: u) k (List.cons_prefix_cons.2 ⟨rfl, hu⟩)
        rwa [List.append_assoc]

/-- No place is looked at twice. -/
theorem nodup_walked (left : ℕ) (here : Path) : (s.walked limits left here).Nodup := by
  induction left generalizing here with
  | zero => exact List.nodup_nil
  | succ left ih =>
    have hnames := s.tree.nodup_names here
    rw [Scene.walked, List.nodup_append]
    refine ⟨?_, ?_, ?_⟩
    · exact (hnames.filter _).map fun a b hab => by simpa using hab
    · rw [List.nodup_flatMap]
      refine ⟨fun n _ => ih _, (hnames.filter _).imp fun hne p hp hp' => ?_⟩
      obtain ⟨r, -, rfl, -, -⟩ := mem_walked.1 hp
      obtain ⟨r', -, heq, -, -⟩ := mem_walked.1 hp'
      rw [List.append_assoc, List.append_assoc] at heq
      exact hne (List.cons.inj (List.append_cancel_left heq)).1
    · intro p hp p' hp' heq
      subst heq
      obtain ⟨n, -, rfl⟩ := List.mem_map.1 hp
      obtain ⟨m, -, hm⟩ := List.mem_flatMap.1 hp'
      obtain ⟨r, hr, heq, -, -⟩ := mem_walked.1 hm
      rw [List.append_assoc] at heq
      exact hr (List.cons.inj (List.append_cancel_left heq)).2.symm

/-! ## The results -/

variable (s limits) in
/-- What a search should look at: an entry below the folder that is no symlink, with no hidden name
and no directory of another device on the way to it, and not too deep. -/
structure Scene.Eligible (p : Path) (info : Info) : Prop where
  there : s.tree.get p = some info
  below : p ≠ []
  link : info.type ≠ .symlink
  hidden : limits.includeHidden = false → ∀ n ∈ p, n.val.head? ≠ some dot
  device : limits.crossDevices = false → ∀ r i, r ≠ [] → r <+: p → s.tree.get r = some i →
    i.isDir = true → i.device = s.device
  depth : p.length ≤ limits.maxDepth + 1

/-- An entry that is looked at. -/
theorem seesAt_iff (hfails : ∀ c, s.fails c = none) {here : Path} {n : Name} :
    s.seesAt limits here n = true ↔ ∃ info, s.tree.get (here ++ [n]) = some info ∧
      info.type ≠ .symlink ∧ (limits.includeHidden = false → n.val.head? ≠ some dot) ∧
      (limits.crossDevices = false → info.isDir = true → info.device = s.device) := by
  rw [Scene.seesAt, Option.any_eq_true]
  apply exists_congr
  intro info
  apply and_congr_right
  intro _
  have hhead := Utf8.head_lossy (show dot < 0x80 by decide) n.val
  rw [Scene.sees, skipForDevice]
  simp only [hfails, Bool.and_eq_true, Bool.or_eq_true, decide_eq_true_eq, ne_eq, hhead,
    Bool.not_eq_true', Bool.and_eq_false_iff, decide_eq_false_iff_not, Classical.not_not]
  cases limits.includeHidden <;> cases limits.crossDevices <;> cases info.isDir <;> simp <;> tauto

/-- The places that are looked at are the eligible ones. -/
theorem eligible_iff (hfails : ∀ c, s.fails c = none) {p : Path} {info : Info} :
    (p ∈ s.walked limits (limits.maxDepth + 1) [] ∧ s.tree.get p = some info) ↔
      s.Eligible limits p info := by
  rw [mem_walked]
  constructor
  · intro ⟨⟨r, hr, hp, hlen, hall⟩, hinfo⟩
    rw [List.nil_append] at hp
    subst hp
    have hseen : ∀ u n, u ++ [n] <+: p → ∃ i, s.tree.get (u ++ [n]) = some i ∧ i.type ≠ .symlink ∧
        (limits.includeHidden = false → n.val.head? ≠ some dot) ∧
        (limits.crossDevices = false → i.isDir = true → i.device = s.device) := fun u n hu =>
      (seesAt_iff hfails).1 (hall u n hu)
    refine ⟨hinfo, hr, ?_, fun hhidden n hn => ?_, fun hcross q i hq hqp hi hdir => ?_, hlen⟩
    · obtain ⟨u, n, rfl⟩ := (List.eq_nil_or_concat' p).resolve_left hr
      obtain ⟨i, hi, hlink, -⟩ := hseen u n List.prefix_rfl
      rw [hinfo] at hi
      rwa [Option.some.inj hi]
    · obtain ⟨u, v, rfl⟩ := List.append_of_mem hn
      obtain ⟨i, -, -, hdot, -⟩ := hseen u n ⟨v, by simp⟩
      exact hdot hhidden
    · obtain ⟨u, n, rfl⟩ := (List.eq_nil_or_concat' q).resolve_left hq
      obtain ⟨j, hj, -, -, hdevice⟩ := hseen u n hqp
      rw [hi] at hj
      obtain rfl := Option.some.inj hj
      exact hdevice hcross hdir
  · intro h
    refine ⟨⟨p, h.below, rfl, h.depth, fun u n hu => ?_⟩, h.there⟩
    obtain ⟨v, rfl⟩ := hu
    rw [List.nil_append, seesAt_iff hfails]
    obtain ⟨i, hi⟩ := Option.isSome_iff_exists.1
      (s.tree.isSome_of_append (p := u ++ [n]) (r := v) (by rw [h.there]; rfl))
    refine ⟨i, hi, ?_, fun hhidden => h.hidden hhidden n (by simp), fun hcross hdir => ?_⟩
    · -- what has something below it is a directory
      intro hlink
      rcases eq_or_ne v [] with rfl | hv
      · have hthere := h.there
        rw [List.append_nil, hi] at hthere
        exact h.link (Option.some.inj hthere ▸ hlink)
      · have hbranch := s.tree.isBranch_of_append hv (by rw [h.there]; rfl)
        obtain ⟨j, hj, hdir⟩ := s.tree.isBranch_iff.1 hbranch
        rw [hi] at hj
        obtain rfl := Option.some.inj hj
        rw [Info.isDir, hlink] at hdir
        cases hdir
    · exact h.device hcross (u ++ [n]) i (by simp) (List.prefix_append _ v) hi hdir

/-- The count is right, and within the limit where the limit lets anything through. -/
structure Counted (limits : Limits) (w : Walk) : Prop where
  hits : w.hits = w.given.length
  most : 1 ≤ limits.maxResults → w.hits ≤ limits.maxResults
  room : 1 ≤ limits.maxResults → w.stopped = .finished → w.hits < limits.maxResults

theorem handOver_counted {p : Path} {name : Bytes} {info : Info} {w : Walk} (h : Counted limits w)
    (hw : w.stopped = .finished) : Counted limits (handOver s lower q limits dir p name info w) := by
  rw [handOver]
  generalize consider lower q limits (full dir p) name info = found
  cases found with
  | none => exact h
  | some hit =>
    have hhits : w.hits + 1 = (w.given ++ [hit]).length := by
      rw [h.hits, List.length_append, List.length_singleton]
    have hmost : 1 ≤ limits.maxResults → w.hits + 1 ≤ limits.maxResults := fun hone => h.room hone hw
    dsimp only
    split
    · exact ⟨hhits, hmost, fun _ => nofun⟩
    · split
      · exact ⟨hhits, hmost, fun _ => nofun⟩
      · next hlimit => exact ⟨hhits, hmost, fun _ _ => Nat.lt_of_not_le hlimit⟩

theorem visit_counted {here : Path} {names subdirs : List Name} {w : Walk} (h : Counted limits w) :
    Counted limits (visit s lower q limits dir here names subdirs w).1 := by
  induction names generalizing subdirs w with
  | nil => exact h
  | cons n names ih =>
    rw [visit]
    by_cases hstopped : w.stopped ≠ .finished
    · rw [if_pos hstopped]
      exact h
    · rw [if_neg hstopped]
      have hlook : Counted limits { w with looks := w.looks + 1 } := ⟨h.hits, h.most, h.room⟩
      split
      · exact ⟨h.hits, h.most, fun _ => nofun⟩
      · dsimp only
        split
        · exact ih hlook
        · next info _ =>
          have hexamined : Counted limits { w with looks := w.looks + 1, examined := w.examined + 1 } :=
            ⟨h.hits, h.most, h.room⟩
          have hgiven := @handOver_counted s lower q limits dir (here ++ [n]) (Utf8.lossy n.val) info
            _ hexamined (not_not.1 hstopped)
          split
          · split
            · exact hgiven
            · exact ih hgiven
          · exact ih hlook

theorem descend_counted {left : ℕ} {here : Path} {w : Walk} (h : Counted limits w) :
    Counted limits (descend s lower q limits dir left here w) := by
  induction left generalizing here w with
  | zero => exact h
  | succ left ih =>
    rw [descend]
    split
    · exact h
    · have hvisit := @visit_counted s lower q limits dir here (s.tree.names here) [] w h
      generalize visit s lower q limits dir here (s.tree.names here) [] w = found at hvisit ⊢
      obtain ⟨w, subdirs⟩ := found
      dsimp only at hvisit ⊢
      induction subdirs generalizing w with
      | nil => exact hvisit
      | cons n subdirs ihs =>
        rw [List.foldl_cons]
        refine ihs _ ?_
        split
        · exact hvisit
        · exact ih hvisit

theorem full_injective {p p' : Path} (h : full dir p = full dir p') : p = p' := by
  have hmap := List.append_cancel_left h
  refine List.map_injective_iff.2 (fun n m hnm => ?_) hmap
  exact Subtype.ext (Component.normal.inj hnm)

/-- What is handed over at a place has its path. -/
theorem hitAt_eq_some_iff {p : Path} {hit : Hit} :
    hitAt s lower q limits dir p = some hit ↔ ∃ info, s.tree.get p = some info ∧
      q.Accepts lower limits (leafName p) info ∧ hit = hitOf lower q dir p (leafName p) info := by
  rw [hitAt, Option.bind_eq_some_iff]
  simp only [consider_eq_some_iff]

/-- **A search that finishes found everything and nothing else.** Where no call fails, what was handed
over is, each once, what the query accepts of what is eligible. The count is right in any case, and
where the limit is no zero it is never passed. A query that asks for nothing is given nothing. -/
theorem search_finished {report : Report} {given : List Hit}
    (h : search s lower q limits dir = .ok (report, given)) :
    (q.isEmpty = false → report.stopped = .finished → (∀ c, s.fails c = none) →
      (given.map Hit.path).Nodup ∧ ∀ hit, hit ∈ given ↔ ∃ p info, s.Eligible limits p info ∧
        q.Accepts lower limits (leafName p) info ∧ hit = hitOf lower q dir p (leafName p) info) ∧
      (q.isEmpty = true → report.stopped = .finished ∧ given = []) ∧
      report.hits = given.length ∧ (1 ≤ limits.maxResults → report.hits ≤ limits.maxResults) := by
  rw [search] at h
  split at h
  · cases h
  · cases h
  · have hstart : Counted limits {} := ⟨rfl, fun _ => Nat.zero_le _, fun hone _ => hone⟩
    obtain ⟨rfl, rfl⟩ := Prod.mk.inj (Except.ok.inj h)
    refine ⟨fun hq hfinished hfails => ?_, fun hq => ?_, ?_⟩
    · rw [hq] at hfinished ⊢
      obtain ⟨-, hgiven⟩ := descend_finished hfails hfinished
      have hwalked : (descend s lower q limits dir (limits.maxDepth + 1) [] {}).given =
          (s.walked limits (limits.maxDepth + 1) []).filterMap (hitAt s lower q limits dir) := by
        rw [hgiven]
        rfl
      rw [if_neg Bool.false_ne_true, hwalked]
      constructor
      · rw [List.map_filterMap]
        refine (nodup_walked _ _).filterMap fun p p' path hp hp' => ?_
        obtain ⟨hit, hhit, rfl⟩ := Option.map_eq_some_iff.1 hp
        obtain ⟨hit', hhit', heq⟩ := Option.map_eq_some_iff.1 hp'
        obtain ⟨info, -, -, rfl⟩ := hitAt_eq_some_iff.1 hhit
        obtain ⟨info', -, -, rfl⟩ := hitAt_eq_some_iff.1 hhit'
        exact full_injective heq.symm
      · intro hit
        rw [List.mem_filterMap]
        constructor
        · intro hmem
          obtain ⟨p, hp, hhit⟩ := hmem
          obtain ⟨info, hinfo, haccepts, rfl⟩ := hitAt_eq_some_iff.1 hhit
          exact ⟨p, info, (eligible_iff hfails).1 ⟨hp, hinfo⟩, haccepts, rfl⟩
        · intro hmem
          obtain ⟨p, info, heligible, haccepts, rfl⟩ := hmem
          obtain ⟨hp, hinfo⟩ := (eligible_iff hfails).2 heligible
          exact ⟨p, hp, hitAt_eq_some_iff.2 ⟨info, hinfo, haccepts, rfl⟩⟩
    · rw [hq]
      exact ⟨rfl, rfl⟩
    · have hcounted : Counted limits (if q.isEmpty then {} else
          descend s lower q limits dir (limits.maxDepth + 1) [] {}) := by
        split
        · exact hstart
        · exact descend_counted hstart
      exact ⟨hcounted.hits, hcounted.most⟩

end

/-- A name. -/
def note : Name := ⟨text "note", by decide⟩

/-- A file. -/
def noteInfo : Info := { type := .regular, size := 5, contents := some (text "hello") }

/-- A folder with one file. -/
def oneNote : Scene where
  tree := (PathTree.single { type := .directory } rfl).insert [] note noteInfo rfl rfl

/-- Looking for it. -/
def noteQuery : Query := { terms := [text "not"], content := some (text "ell") }

/-- What is found. -/
def noteHit : Hit := hitOf id noteQuery [] [note] (leafName [note]) noteInfo

theorem search_finished_note :
    ([noteHit].map Hit.path).Nodup ∧ ∀ hit, hit ∈ [noteHit] ↔ ∃ p info,
      oneNote.Eligible {} p info ∧ noteQuery.Accepts id {} (leafName p) info ∧
        hit = hitOf id noteQuery [] p (leafName p) info := by
  have hrun : search oneNote id noteQuery {} [] = .ok (⟨1, 1, .finished⟩, [noteHit]) := by rfl
  exact (search_finished hrun).1 rfl rfl fun _ => rfl

/-- **A query that asks for nothing** is given nothing, though it accepts everything; and a limit of no
results at all lets one through. -/
theorem search_nothing :
    (search oneNote id {} {} [] = .ok (⟨0, 0, .finished⟩, []) ∧
      oneNote.Eligible {} [note] noteInfo ∧
      ({} : Query).Accepts id {} (leafName [note]) noteInfo) ∧
    search oneNote id noteQuery { maxResults := 0 } [] =
      .ok (⟨1, 1, .hitResultLimit⟩, [noteHit]) := by
  refine ⟨⟨by rfl, ?_, ?_⟩, by rfl⟩
  · refine ⟨rfl, by simp, by decide, by decide, fun _ r i hr hpre hi hdir => ?_, by decide⟩
    obtain ⟨t, ht⟩ := hpre
    obtain ⟨n, r, rfl⟩ := List.exists_cons_of_ne_nil hr
    obtain ⟨rfl, hnil⟩ := List.cons.inj ht
    obtain ⟨rfl, -⟩ := List.append_eq_nil_iff.1 hnil
    obtain rfl : noteInfo = i := Option.some.inj hi
    cases hdir
  · constructor <;> exact nofun

end Aurade.Ops.Search
