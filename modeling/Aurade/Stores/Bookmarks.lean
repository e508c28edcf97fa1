import Aurade.Foundations.Arrange
import Aurade.Stores.Defaults
import Aurade.Stores.Places
import Aurade.Stores.Url

/-!
# The order of the bookmarks

`reorder_bookmarks` reads the bookmarks as places, puts the ones it is given first, and writes a line
for each. What a line denotes (`denoted`) is a target and a label; `Reorders` is that the file denotes
the same bookmarks as before, the given ones in front.
-/

namespace Aurade.Stores

open Fs

/-- What is read from a line: a `Place` less its kind, which is none, and whether it is there. -/
structure Bookmark where
  path : Bytes
  label : Bytes
  deriving DecidableEq

/-- The own name of a folder. -/
def nameLossy (path : Bytes) : Option Bytes := (components path).fileName.map Utf8.lossy

/-- A line up to its first space, and the label behind it. -/
def cutLine (line : Bytes) : Bytes × Option Bytes :=
  match splitOnce 32 line with
  | some (uri, label) => (uri, some (trimBytes label))
  | none => (line, none)

/-- One turn of the loop in `parse_bookmarks`. Nothing is the stop of the program; a line that is no
local folder gives no bookmark. -/
def parseLine (line : Bytes) : Option (Option Bookmark) :=
  let (uri, label) := cutLine line
  (fromFileUrl uri).map fun path =>
    path.map fun path => ⟨path, label.getD ((nameLossy path).getD uri)⟩

/-- The lines with something in them, trimmed. -/
def entryLines (list : Bytes) : List Bytes := ((lines list).map trimBytes).filter (· ≠ [])

/-- `parse_bookmarks`. -/
def parseBookmarks (list : Bytes) : Option (List Bookmark) :=
  ((entryLines list).mapM parseLine).map List.reduceOption

/-- `bookmark_line`. -/
def bookmarkLine (b : Bookmark) : Bytes :=
  if b.label = (nameLossy b.path).getD [] then fileUrl b.path else fileUrl b.path ++ 32 :: b.label

/-- The two loops of `reorder_bookmarks`: the bookmarks in the order of their lines. -/
def reordered (order : List PathBuf) (current : List Bookmark) : List Bookmark :=
  let used := order.filterMap fun wanted => current.find? fun b => components b.path = wanted
  used ++ current.filter fun b => !used.any fun u => components u.path = components b.path

/-- The lines, joined. -/
def joined (ls : List Bytes) : Bytes :=
  let list := [newline].intercalate ls
  if list ≠ [] then list ++ [newline] else list

variable (place : Option Place) (unreadable : Bool) (c : SaveCalls) (order : List PathBuf)

/-- `reorder_bookmarks`. The error `none` is the stop of the program. -/
def reorderBookmarks : Act (Option Bytes) (Option Error) Unit := do
  match place with
  | none => Act.fail (some (.notFound [.str "no config directory"]))
  | some p => do
    let file ← Act.get
    match parseBookmarks (((readToString unreadable file).map Subtype.val).getD []) with
    | none => Act.fail none
    | some current =>
      Act.mapErr some
        (writeNew c p (fun bs _ => some bs) (joined ((reordered order current).map bookmarkLine)))

/-! ## What a line denotes -/

/-- What a bookmark leads to. -/
inductive Target
  | folder (path : Bytes)
  | other (uri : Bytes)
  deriving DecidableEq

/-- A line of the bookmarks as its reader takes it. -/
structure Entry where
  target : Target
  label : Bytes
  deriving DecidableEq

/-- A folder with its label. -/
def Bookmark.entry (b : Bookmark) : Entry := ⟨.folder b.path, b.label⟩

/-- What a line denotes: the folder of a local URI, any other URI itself; the label is the text behind
it, without one the name of the folder. -/
def denoted (line : Bytes) : Entry :=
  match parseLine line with
  | some (some b) => b.entry
  | _ => ⟨.other (cutLine line).1, (cutLine line).2.getD (cutLine line).1⟩

/-- The bookmarks of the file. -/
def entriesIn (file : Option Bytes) : List Entry := (entryLines (file.getD [])).map denoted

/-- The path of a bookmark that is one. -/
def Entry.key (e : Entry) : Option PathBuf :=
  match e.target with
  | .folder path => some (components path)
  | .other _ => none

/-- The named bookmarks come first, as they are named: a run for each name, then the others. -/
def InOrder (es : List Entry) : Prop :=
  ∃ runs rest, es = List.flatten runs ++ rest ∧
    List.Forall₂ (fun wanted run => ∀ e ∈ run, e.key = some wanted) order runs ∧
    ∀ e ∈ rest, ∀ wanted ∈ order, e.key ≠ some wanted

/-- What a call should do: where it ends well the same bookmarks are there, in the order asked for,
and where it fails nothing has changed. -/
def Reorders (file : Option Bytes) : Except (Option Error) Unit × Option Bytes → Prop
  | (.ok (), after) => (entriesIn after).Perm (entriesIn file) ∧ InOrder order (entriesIn after)
  | (.error (some _), after) => after = file
  | (.error none, _) => False

/-- The file and the order with which it does: the file is text, its lines are local folders with
names that are text, and each of them that is named is named as often as it has lines, which all
have the same label. -/
structure Orderly (file : Option Bytes) : Prop where
  readable : entriesIn file ≠ [] → (readToString unreadable file).isSome
  folders : ∀ e ∈ entriesIn file, ∃ path : Text, e.target = .folder path.val
  called : Called Entry.key (order.map some) (entriesIn file)

/-- No line stops the program. -/
def Reads (file : Option Bytes) : Prop :=
  ∀ list, readToString unreadable file = some list →
    ∀ line ∈ entryLines list.val, (fromFileUrl (cutLine line).1).isSome

/-! ## Lines are read back -/

theorem solid_of_urlSafe (b : UInt8) : urlSafe b = true → Solid b ∧ b ≠ 32 ∧ b ≠ newline := by
  revert b
  exact forall_byte (by decide +kernel)

theorem fileUrl_head (path : Bytes) : ∃ rest, fileUrl path = 102 :: rest := ⟨_, rfl⟩

theorem notMem_fileUrl {b : UInt8} (h : b = 32 ∨ b = newline) (path : Bytes) : b ∉ fileUrl path := by
  intro hmem
  obtain ⟨-, hspace, hline⟩ := solid_of_urlSafe b (urlSafe_fileUrl path b hmem)
  exact h.elim hspace hline

/-- The URL of a path leads to what the path is as a text. -/
theorem fromFileUrl_fileUrl {path : Bytes} (h : path.head? = some 47) :
    fromFileUrl (fileUrl path) = some (some (Utf8.lossy path)) := by
  have hhead := (Utf8.head_lossy (c := 47) (by decide) path).2 h
  have hurl : fileUrl path = text "file://" ++ percentEncode urlPlain (Utf8.lossy path) := rfl
  rw [hurl, fromFileUrl_append, if_pos ((head_percentEncode _).2 hhead),
    decodeLoop_percentEncode urlPlain_spec]
  rfl

/-- What a local URI leads to is an absolute path. -/
theorem head_of_fromFileUrl {uri path : Bytes} (h : fromFileUrl uri = some (some path)) :
    path.head? = some 47 := by
  unfold fromFileUrl at h
  split at h
  · dsimp only at h
    split at h
    · next hslash =>
      obtain ⟨rest, hrest⟩ : ∃ rest, uri.drop 7 = 47 :: rest := by
        cases hdrop : uri.drop 7 with
        | nil => simp [hdrop] at hslash
        | cons b rest => exact ⟨rest, by simpa [hdrop] using hslash⟩
      rw [hrest, decodeLoop_cons (by decide), Option.map_map, Option.map_eq_some_iff] at h
      obtain ⟨tail, -, htail⟩ := h
      rw [← Option.some.inj htail]
      rfl
    · cases h
  · cases h

/-- A label at the end of a line ends it, where it is a text that is trimmed. -/
theorem trimEnd_append_label {label : Bytes} (hvalid : Utf8.valid label = true) (hne : label ≠ [])
    (htrim : trimEnd label = label) (a : Bytes) : trimEnd (a ++ label) = a ++ label := by
  have hwhole : spaces.all fun q => q.tails.all fun t => t = q || t = [] || !Utf8.valid t := by
    decide
  refine trimEnd_eq_iff.2 ⟨⟨[], by simp, rfl⟩, fun p hp hpre => ?_⟩
  obtain ⟨q, hq, rfl⟩ := List.mem_map.1 hp
  have hstop := (trimEnd_eq_iff.1 htrim).2 q.reverse hp
  rw [List.reverse_prefix] at hpre hstop
  rcases List.suffix_or_suffix_of_suffix hpre (List.suffix_append a label) with hql | hlq
  · exact hstop hql
  · have htail := List.all_eq_true.1 (List.all_eq_true.1 hwhole q hq) label ((List.mem_tails _ _).2 hlq)
    simp only [hvalid, hne, decide_false, Bool.or_false, Bool.not_true, decide_eq_true_eq] at htail
    exact hstop (htail ▸ List.suffix_rfl)

/-- What the reader makes of a line, and the writer needs to know of it: an absolute path, and the
name of the folder for a label or a text that stands at the end of a line. -/
structure Bookmark.Legible (b : Bookmark) : Prop where
  root : b.path.head? = some 47
  label : nameLossy b.path = some b.label ∨
    trimBytes b.label = b.label ∧ b.label ≠ [] ∧ newline ∉ b.label ∧ Utf8.valid b.label = true

namespace Bookmark.Legible

variable {b : Bookmark} (h : b.Legible)

include h

/-- The line of a bookmark: its label is left out only where it is the name of the folder. -/
theorem line_cases : nameLossy b.path = some b.label ∧ bookmarkLine b = fileUrl b.path ∨
    (trimBytes b.label = b.label ∧ b.label ≠ [] ∧ newline ∉ b.label ∧
      Utf8.valid b.label = true) ∧ bookmarkLine b = fileUrl b.path ++ 32 :: b.label := by
  unfold bookmarkLine
  by_cases hname : nameLossy b.path = some b.label
  · left
    rw [hname]
    exact ⟨rfl, if_pos rfl⟩
  · right
    have hlabel := h.label.resolve_left hname
    refine ⟨hlabel, if_neg fun heq => ?_⟩
    cases hown : nameLossy b.path with
    | none =>
      rw [hown] at heq
      exact hlabel.2.1 heq
    | some own =>
      rw [hown] at heq
      exact hname (by rw [hown, heq]; rfl)

/-- A line is whole: it is trimmed, and there is something on it. -/
theorem line_whole : trimBytes (bookmarkLine b) = bookmarkLine b ∧ bookmarkLine b ≠ [] ∧
    newline ∉ bookmarkLine b := by
  have hurl := notMem_fileUrl (Or.inr rfl) b.path
  have hsafe : ∀ x ∈ fileUrl b.path, Solid x := fun x hx =>
    (solid_of_urlSafe x (urlSafe_fileUrl b.path x hx)).1
  obtain ⟨rest, hrest⟩ := fileUrl_head b.path
  rcases h.line_cases with ⟨-, hline⟩ | ⟨⟨htrim, hne, hnl, hvalid⟩, hline⟩
  · rw [hline]
    exact ⟨trimBytes_solid hsafe, by simp [hrest], hurl⟩
  · rw [hline]
    refine ⟨?_, by simp, ?_⟩
    · have hstart : trimStart (fileUrl b.path ++ 32 :: b.label) = fileUrl b.path ++ 32 :: b.label := by
        rw [hrest, List.cons_append]
        exact trimStart_cons (by decide) _
      have hend := trimEnd_append_label hvalid hne (trimStart_of_trim htrim).2 (fileUrl b.path ++ [32])
      rw [List.append_assoc, List.singleton_append] at hend
      rw [trimBytes, hstart, hend]
    · intro hmem
      rcases List.mem_append.1 hmem with hmem | hmem
      · exact hurl hmem
      · rcases List.mem_cons.1 hmem with heq | hmem
        · revert heq
          decide
        · exact hnl hmem

/-- **A line leads where the bookmark did**, as far as its path is a text. -/
theorem parseLine_line : ∃ label, parseLine (bookmarkLine b) = some (some ⟨Utf8.lossy b.path, label⟩) ∧
    (Utf8.valid b.path = true → label = b.label) := by
  have hurl := notMem_fileUrl (Or.inl rfl) b.path
  rcases h.line_cases with ⟨hname, hline⟩ | ⟨⟨htrim, -, -, -⟩, hline⟩
  · have hcut : cutLine (fileUrl b.path) = (fileUrl b.path, none) := by
      rw [cutLine, splitOnce, if_neg hurl]
    refine ⟨(nameLossy (Utf8.lossy b.path)).getD (fileUrl b.path), ?_, fun hvalid => ?_⟩
    · rw [hline, parseLine, hcut]
      dsimp only
      rw [fromFileUrl_fileUrl h.root]
      rfl
    · rw [Utf8.lossy_eq_self_iff.2 hvalid, hname]
      rfl
  · have hcut : cutLine (fileUrl b.path ++ 32 :: b.label) = (fileUrl b.path, some b.label) := by
      rw [cutLine, splitOnce_append hurl]
      dsimp only
      rw [htrim]
    refine ⟨b.label, ?_, fun _ => rfl⟩
    rw [hline, parseLine, hcut]
    dsimp only
    rw [fromFileUrl_fileUrl h.root]
    rfl

theorem denoted_line (hvalid : Utf8.valid b.path = true) : denoted (bookmarkLine b) = b.entry := by
  obtain ⟨label, hparse, hlabel⟩ := h.parseLine_line
  rw [denoted, hparse, hlabel hvalid, Utf8.lossy_eq_self_iff.2 hvalid]

theorem target_line : (denoted (bookmarkLine b)).target = .folder (Utf8.lossy b.path) := by
  obtain ⟨label, hparse, -⟩ := h.parseLine_line
  rw [denoted, hparse]
  rfl

end Bookmark.Legible

/-- A line that is cut: the URI, a space, and more that the label is trimmed from. -/
theorem cutLine_cases (line : Bytes) : cutLine line = (line, none) ∨
    ∃ uri rest, line = uri ++ 32 :: rest ∧ cutLine line = (uri, some (trimBytes rest)) := by
  unfold cutLine
  by_cases hmem : (32 : UInt8) ∈ line
  · obtain ⟨uri, rest, rfl, hno⟩ := List.eq_append_cons_of_mem hmem
    exact Or.inr ⟨uri, rest, rfl, by rw [splitOnce_append hno]⟩
  · exact Or.inl (by rw [splitOnce, if_neg hmem])

/-- Behind a space in a line that is trimmed there is something. -/
theorem trimBytes_ne_nil {uri rest : Bytes} (htrim : trimEnd (uri ++ 32 :: rest) = uri ++ 32 :: rest) :
    trimBytes rest ≠ [] := by
  intro hnil
  obtain ⟨ws, we, hws, hwe, hrest⟩ := trimBytes_split rest
  rw [hnil, List.nil_append, List.reverse_flatten] at hrest
  have hqs : ∀ q ∈ [32] :: (ws ++ (we.map List.reverse).reverse), q ∈ spaces := by
    intro q hq
    rcases List.mem_cons.1 hq with rfl | hq
    · decide
    · rcases List.mem_append.1 hq with hq | hq
      · exact hws q hq
      · obtain ⟨w, hw, rfl⟩ := List.mem_map.1 (List.mem_reverse.1 hq)
        obtain ⟨v, hv, rfl⟩ := List.mem_map.1 (hwe w hw)
        rwa [List.reverse_reverse]
  have hflat : uri ++ 32 :: rest =
      uri ++ ([32] :: (ws ++ (we.map List.reverse).reverse)).flatten := by
    rw [List.flatten_cons, List.flatten_append, ← hrest]
    rfl
  obtain ⟨front, q, hlast⟩ : ∃ front q,
      [32] :: (ws ++ (we.map List.reverse).reverse) = front ++ [q] :=
    ⟨_, _, (List.dropLast_append_getLast (List.cons_ne_nil _ _)).symm⟩
  rw [hlast] at hqs hflat
  refine (trimEnd_eq_iff.1 htrim).2 q.reverse (List.mem_map_of_mem (hqs q (by simp))) ?_
  rw [List.reverse_prefix, hflat, List.flatten_append, List.flatten_singleton, ← List.append_assoc]
  exact List.suffix_append _ q

/-- What the reader makes of a whole line can be written. -/
theorem legible_of_parseLine {line : Bytes} (htrim : trimBytes line = line) (hne : line ≠ [])
    (hnl : newline ∉ line) (hvalid : Utf8.valid line = true) {b : Bookmark}
    (h : parseLine line = some (some b)) : b.Legible := by
  obtain ⟨path, hpath, hlabel⟩ : ∃ path, fromFileUrl (cutLine line).1 = some (some path) ∧
      b = ⟨path, (cutLine line).2.getD ((nameLossy path).getD (cutLine line).1)⟩ := by
    simp only [parseLine, Option.map_eq_some_iff] at h
    obtain ⟨path?, hpath, path, rfl, rfl⟩ := h
    exact ⟨path, hpath, rfl⟩
  subst hlabel
  refine ⟨head_of_fromFileUrl hpath, ?_⟩
  rcases cutLine_cases line with hcut | ⟨uri, rest, rfl, hcut⟩
  · rw [hcut]
    cases hown : nameLossy path with
    | some own => exact Or.inl rfl
    | none => exact Or.inr ⟨htrim, hne, hnl, hvalid⟩
  · rw [hcut]
    rw [Utf8.valid_append_ascii (by decide), Bool.and_eq_true] at hvalid
    refine Or.inr ⟨trimBytes_idem rest, trimBytes_ne_nil (trimStart_of_trim htrim).2, ?_,
      valid_trimEnd (valid_trimStart hvalid.2)⟩
    intro hmem
    exact hnl (List.mem_append_right _ (List.mem_cons_of_mem _ ((infix_trimBytes rest).subset hmem)))

/-! ## The lines of a file -/

theorem joined_cons {line : Bytes} {ls : List Bytes} (hline : line ≠ []) (hls : ∀ l ∈ ls, l ≠ []) :
    joined (line :: ls) = line ++ newline :: joined ls := by
  cases ls with
  | nil => simp [joined, hline]
  | cons l ls =>
    obtain ⟨hl, -⟩ := List.forall_mem_cons.1 hls
    have hne : [newline].intercalate (l :: ls) ≠ [] := by
      cases ls with
      | nil => simpa using hl
      | cons l' ls => simp [List.intercalate_cons_cons]
    simp [joined, List.intercalate_cons_cons, hne]

/-- **What is joined is read line by line.** -/
theorem entryLines_joined {ls : List Bytes}
    (h : ∀ l ∈ ls, trimBytes l = l ∧ l ≠ [] ∧ newline ∉ l) : entryLines (joined ls) = ls := by
  induction ls with
  | nil => rfl
  | cons l ls ih =>
    obtain ⟨⟨htrim, hne, hnl⟩, hls⟩ := List.forall_mem_cons.1 h
    have hlines := ih hls
    rw [entryLines] at hlines ⊢
    rw [joined_cons hne fun l' hl' => (hls l' hl').2.1, lines_append_newline,
      List.splitOn_eq_singleton hnl, List.map_append, List.filter_append, hlines]
    simp [trimBytes_chomp, htrim, hne]

/-- The lines of a text are texts on their own. -/
theorem entryLines_spec (list : Text) : ∀ line ∈ entryLines list.val,
    trimBytes line = line ∧ line ≠ [] ∧ newline ∉ line ∧ Utf8.valid line = true := by
  intro line hline
  obtain ⟨hmem, hne⟩ := List.mem_filter.1 hline
  obtain ⟨l, hl, rfl⟩ := List.mem_map.1 hmem
  refine ⟨trimBytes_idem l, by simpa using hne, fun hmem => ?_,
    valid_trimEnd (valid_trimStart (valid_of_mem_lines list.property hl))⟩
  exact notMem_newline_of_mem_lines hl ((infix_trimBytes l).subset hmem)

theorem parseLine_isSome (line : Bytes) :
    (parseLine line).isSome ↔ (fromFileUrl (cutLine line).1).isSome := by
  simp [parseLine]

/-- What is read from the lines of a list. -/
def current (list : Bytes) : List Bookmark :=
  (entryLines list).filterMap fun line => (parseLine line).join

theorem parseBookmarks_eq (list : Bytes) : parseBookmarks list =
    if ∀ line ∈ entryLines list, (parseLine line).isSome then some (current list) else none := by
  have hall : ∀ ls : List Bytes, (ls.mapM parseLine).map List.reduceOption =
      if ∀ line ∈ ls, (parseLine line).isSome then
        some (ls.filterMap fun line => (parseLine line).join) else none := by
    intro ls
    induction ls with
    | nil => rfl
    | cons line ls ih =>
      rw [List.mapM_cons]
      cases hline : parseLine line with
      | none => simp [hline]
      | some found =>
        have hrest : ((ls.mapM parseLine).map fun rest => (found :: rest).reduceOption) =
            ((ls.mapM parseLine).map List.reduceOption).map (found.toList ++ ·) := by
          rw [Option.map_map]
          congr 1
          funext rest
          cases found <;> rfl
        have hcons : (some found >>= fun x => ls.mapM parseLine >>= fun xs => pure (x :: xs)).map
            List.reduceOption = (ls.mapM parseLine).map fun rest => (found :: rest).reduceOption := by
          cases ls.mapM parseLine <;> rfl
        rw [hcons, hrest, ih]
        by_cases hall : ∀ line ∈ ls, (parseLine line).isSome
        · rw [if_pos hall, if_pos (List.forall_mem_cons.2 ⟨by rw [hline]; rfl, hall⟩)]
          cases found <;> simp [hline]
        · rw [if_neg hall, if_neg fun h => hall (List.forall_mem_cons.1 h).2]
          rfl
  exact hall _

/-- The writer's loops are the arranging by paths. -/
theorem reordered_eq (current : List Bookmark) :
    reordered order current = arrange (fun b => components b.path) order current := by
  rw [reordered, arrange]
  congr 1
  apply List.filter_congr
  intro b hb
  have hused : ((order.filterMap fun wanted =>
      current.find? fun b => components b.path = wanted).any fun u =>
        components u.path = components b.path) = decide (components b.path ∈ order) := by
    rw [Bool.eq_iff_iff, List.any_eq_true, decide_eq_true_eq]
    constructor
    · rintro ⟨u, hu, heq⟩
      obtain ⟨wanted, hwanted, hfind⟩ := List.mem_filterMap.1 hu
      have hkey : components u.path = wanted := by simpa using List.find?_some hfind
      have heq : components u.path = components b.path := by simpa using heq
      rwa [← heq, hkey]
    · intro hmem
      obtain ⟨u, hu⟩ : ∃ u, (current.find? fun u => components u.path = components b.path) =
          some u := by
        rw [← Option.isSome_iff_exists, List.find?_isSome]
        exact ⟨b, hb, by simp⟩
      exact ⟨u, List.mem_filterMap.2 ⟨_, hmem, hu⟩, by simpa using List.find?_some hu⟩
  rw [hused]
  simp

/-! ## The reordering -/

theorem legible_of_mem_current {list : Text} {b : Bookmark} (h : b ∈ current list.val) :
    b.Legible := by
  obtain ⟨line, hline, hparse⟩ := List.mem_filterMap.1 h
  obtain ⟨htrim, hne, hnl, hvalid⟩ := entryLines_spec list line hline
  exact legible_of_parseLine htrim hne hnl hvalid (Option.join_eq_some_iff.1 hparse)

/-- What is written is read line by line. -/
theorem entriesIn_written (list : Text) :
    entriesIn (some (joined ((reordered order (current list.val)).map bookmarkLine))) =
      (arrange (fun b => components b.path) order (current list.val)).map fun b =>
        denoted (bookmarkLine b) := by
  rw [reordered_eq, entriesIn, Option.getD_some, entryLines_joined, List.map_map]
  · rfl
  · intro l hl
    obtain ⟨b, hb, rfl⟩ := List.mem_map.1 hl
    exact (legible_of_mem_current (mem_of_mem_arrange hb)).line_whole

/-- Where all lines are folders, the bookmarks are what is read from them. -/
theorem entriesIn_eq {list : Bytes}
    (h : ∀ e ∈ entriesIn (some list), ∃ path : Text, e.target = .folder path.val) :
    entriesIn (some list) = (current list).map Bookmark.entry ∧
      ∀ b ∈ current list, Utf8.valid b.path = true := by
  have hline : ∀ line ∈ entryLines list, ∃ b : Bookmark, parseLine line = some (some b) ∧
      denoted line = b.entry ∧ Utf8.valid b.path = true := by
    intro line hline
    obtain ⟨path, hpath⟩ := h _ (List.mem_map_of_mem hline)
    unfold denoted at hpath ⊢
    split at hpath
    · next b hb => exact ⟨b, hb, rfl, Target.folder.inj hpath ▸ path.property⟩
    · cases hpath
  constructor
  · rw [entriesIn, Option.getD_some, current, List.map_filterMap, ← List.filterMap_eq_map]
    apply List.filterMap_congr
    intro line hmem
    obtain ⟨b, hparse, hdenoted, -⟩ := hline line hmem
    rw [hparse]
    exact congrArg some hdenoted
  · intro b hb
    obtain ⟨line, hmem, hparse⟩ := List.mem_filterMap.1 hb
    obtain ⟨b', hparse', -, hvalid⟩ := hline line hmem
    rw [hparse'] at hparse
    exact Option.some.inj hparse ▸ hvalid

/-- **When the same bookmarks are there.** -/
theorem written_perm_iff (list : Text) :
    (entriesIn (some (joined ((reordered order (current list.val)).map bookmarkLine)))).Perm
        (entriesIn (some list.val)) ∧
      InOrder order
        (entriesIn (some (joined ((reordered order (current list.val)).map bookmarkLine)))) ↔
    (∀ e ∈ entriesIn (some list.val), ∃ path : Text, e.target = .folder path.val) ∧
      Called Entry.key (order.map some) (entriesIn (some list.val)) := by
  have hfolders (h : ∀ e ∈ entriesIn (some list.val), ∃ path : Text, e.target = .folder path.val) :
      entriesIn (some (joined ((reordered order (current list.val)).map bookmarkLine))) =
        arrange Entry.key (order.map some) (entriesIn (some list.val)) := by
    obtain ⟨hentries, hvalid⟩ := entriesIn_eq h
    have hkey : ∀ b : Bookmark, b.entry.key = some (components b.path) := fun b => rfl
    rw [entriesIn_written, hentries, arrange_map (Option.some_injective _) hkey]
    apply List.map_congr_left
    intro b hb
    have hmem := mem_of_mem_arrange hb
    exact (legible_of_mem_current hmem).denoted_line (hvalid b hmem)
  constructor
  · rintro ⟨hperm, -⟩
    have hall : ∀ e ∈ entriesIn (some list.val), ∃ path : Text, e.target = .folder path.val := by
      intro e he
      have hmem := hperm.symm.subset he
      rw [entriesIn_written] at hmem
      obtain ⟨b, hb, rfl⟩ := List.mem_map.1 hmem
      exact ⟨⟨Utf8.lossy b.path, Utf8.valid_lossy b.path⟩,
        (legible_of_mem_current (mem_of_mem_arrange hb)).target_line⟩
    refine ⟨hall, arrange_perm_iff.1 ?_⟩
    rwa [← hfolders hall]
  · rintro ⟨hall, hcalled⟩
    rw [hfolders hall]
    obtain ⟨runs, rest, heq, hruns, hrest⟩ :=
      @arrange_runs _ _ _ Entry.key (order.map some) (entriesIn (some list.val))
    refine ⟨arrange_perm_iff.2 hcalled, runs, rest, heq, ?_, ?_⟩
    · exact List.forall₂_map_left_iff.1 hruns
    · intro e he wanted hwanted
      exact hrest e he _ (List.mem_map_of_mem hwanted)

section

variable {order unreadable c} {p : Place} {file : Option Bytes}

theorem reorders_of_stop
    (h : parseBookmarks (((readToString unreadable file).map Subtype.val).getD []) = none) :
    ¬Reorders order file (reorderBookmarks (some p) unreadable c order file) := by
  unfold reorderBookmarks
  dsimp only
  rw [Act.bind_of_ok (rfl : (Act.get : Act _ (Option Error) _) file = (.ok file, file)), h]
  exact id

/-- A call that gets to its writes changes the file where they go through, and only there. -/
theorem reorders_of_read {found : List Bookmark}
    (h : parseBookmarks (((readToString unreadable file).map Subtype.val).getD []) = some found) :
    Reorders order file (reorderBookmarks (some p) unreadable c order file) ↔
      (c.Works →
        (entriesIn (some (joined ((reordered order found).map bookmarkLine)))).Perm
            (entriesIn file) ∧
          InOrder order (entriesIn (some (joined ((reordered order found).map bookmarkLine))))) := by
  unfold reorderBookmarks
  dsimp only
  rw [Act.bind_of_ok (rfl : (Act.get : Act _ (Option Error) _) file = (.ok file, file)), h]
  dsimp only
  by_cases hworks : c.Works
  · rw [Act.mapErr, writeNew_ok _ _ _ _ _ hworks]
    exact ⟨fun hdone _ => hdone, fun hdone => hdone hworks⟩
  · obtain ⟨e, he⟩ := writeNew_error c p (fun bs _ => some bs)
      (joined ((reordered order found).map bookmarkLine)) file hworks
    rw [Act.mapErr, he]
    exact iff_of_true rfl fun hyes => absurd hyes hworks

end

theorem file_of_readToString {file : Option Bytes} {list : Text}
    (h : readToString unreadable file = some list) : file = some list.val := by
  unfold readToString at h
  split at h
  · cases h
  · obtain ⟨bs, rfl, hbs⟩ := Option.bind_eq_some_iff.1 h
    unfold Text.ofBytes? at hbs
    split at hbs
    · rw [← Option.some.inj hbs]
    · cases hbs

/-- **When reordering loses and doubles nothing**: every call reorders, or fails and changes nothing,
if and only if no line stops it and, where its writes go through, the file is orderly. -/
theorem reorderBookmarks_keeps (file : Option Bytes) :
    Reorders order file (reorderBookmarks place unreadable c order file) ↔
      (place.isSome → Reads unreadable file ∧ (c.Works → Orderly unreadable order file)) := by
  cases place with
  | none => exact iff_of_true rfl fun h => Bool.noConfusion h
  | some p =>
    simp only [Option.isSome_some, true_imp_iff]
    cases hread : readToString unreadable file with
    | none =>
      -- nothing is read, and nothing is written back
      have hparse : parseBookmarks (((readToString unreadable file).map Subtype.val).getD []) =
          some [] := by
        rw [hread]
        rfl
      have hreads : Reads unreadable file := fun list hlist => by
        rw [hread] at hlist
        cases hlist
      have hempty : reordered order [] = [] := by
        rw [reordered_eq, arrange]
        simp
      have hwritten : entriesIn (some (joined (([] : List Bookmark).map bookmarkLine))) = [] := rfl
      rw [reorders_of_read hparse, hempty, and_iff_right hreads, hwritten]
      refine imp_congr_right fun _ => ⟨fun h => ?_, fun h => ?_⟩
      · have hnone : entriesIn file = [] := List.nil_perm.1 h.1
        exact ⟨fun hne => absurd hnone hne, by simp [hnone], by simp [Called, hnone]⟩
      · have hnone : entriesIn file = [] := by
          by_contra hne
          have := h.readable hne
          rw [hread] at this
          cases this
        rw [hnone]
        refine ⟨List.Perm.refl _, order.map fun _ => [], [], ?_, ?_, by simp⟩
        · simp
        · rw [List.forall₂_map_right_iff, List.forall₂_same]
          simp
    | some list =>
      obtain rfl := file_of_readToString unreadable hread
      have hiff : Reads unreadable (some list.val) ↔
          ∀ line ∈ entryLines list.val, (parseLine line).isSome := by
        constructor
        · intro h line hline
          exact (parseLine_isSome line).2 (h list hread line hline)
        · intro h list' hlist' line hline
          rw [hread] at hlist'
          obtain rfl := Option.some.inj hlist'
          exact (parseLine_isSome line).1 (h line hline)
      have hparse : parseBookmarks
          (((readToString unreadable (some list.val)).map Subtype.val).getD []) =
            if ∀ line ∈ entryLines list.val, (parseLine line).isSome then
              some (current list.val) else none := by
        rw [hread]
        exact parseBookmarks_eq list.val
      by_cases hall : ∀ line ∈ entryLines list.val, (parseLine line).isSome
      · rw [if_pos hall] at hparse
        rw [reorders_of_read hparse, and_iff_right (hiff.2 hall), written_perm_iff]
        refine imp_congr_right fun _ => ⟨fun h => ?_, fun h => ?_⟩
        · exact ⟨fun _ => by rw [hread]; rfl, h.1, h.2⟩
        · exact ⟨h.folders, h.called⟩
      · rw [if_neg hall] at hparse
        exact iff_of_false (reorders_of_stop hparse) fun h => hall (hiff.1 h.1)

/-- A bookmark of another machine is lost when the one below it is put first. -/
theorem reorderBookmarks_loses :
    ¬∀ file : Option Bytes, Reorders [components (text "/home/cam/Music")] file
      (reorderBookmarks (some ⟨[], [], []⟩) false {} [components (text "/home/cam/Music")] file) := by
  intro h
  have hrun : reorderBookmarks (some ⟨[], [], []⟩) false {} [components (text "/home/cam/Music")]
      (some (text "sftp://nas/media Films\nfile:///home/cam/Music\n")) =
        (.ok (), some (text "file:///home/cam/Music\n")) := by
    rfl
  have hperm := h (some (text "sftp://nas/media Films\nfile:///home/cam/Music\n"))
  rw [hrun] at hperm
  have hlength := hperm.1.length_eq
  revert hlength
  decide

end Aurade.Stores
