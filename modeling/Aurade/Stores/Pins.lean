import Aurade.Stores.Bookmarks
import Aurade.Stores.Unreadable

/-!
# Pinning and unpinning

The bookmarks are read by decoding what their lines name, while `addBookmark` and `removeBookmark`
compare the text of a line with the URL that `fileUrl` writes. The two agree on a folder where every
line that leads to it is written so, and where the label that is written with it is one line
(`pins_iff`).
-/

namespace Aurade.Stores

open Fs

/-- The bookmarks without the lines of one folder. -/
def unpinned (list uri : Bytes) : Bytes := joined ((lines list).filter fun l => uriOf l ≠ uri)

/-- `remove_bookmark`. -/
def removeBookmark (place : Option Place) (unreadable : Bool) (c : SaveCalls) (path : Bytes) :
    Act (Option Bytes) Error Unit := do
  match place with
  | none => Act.fail (.notFound [.str "no config directory"])
  | some p => do
    let file ← Act.get
    match readToString unreadable file with
    | none => pure ()
    | some list => writeNew c p (fun bs _ => some bs) (unpinned list.val (fileUrl path))

/-- The text of the bookmarks, empty where it cannot be read. -/
def bookmarksText (unreadable : Bool) (file : Option Bytes) : Bytes :=
  ((readToString unreadable file).map Subtype.val).getD []

/-- `bookmarks`. Nothing is the stop of the program. -/
def bookmarks (unreadable : Bool) (file : Option Bytes) : Option (List Bookmark) :=
  parseBookmarks (bookmarksText unreadable file)

/-- A bookmark of a folder, as paths are compared. -/
def Bookmark.leadsTo (path : Bytes) (b : Bookmark) : Bool := components b.path = components path

/-- What is read from a line, as it stands in the file. -/
def bookmarkOf (line : Bytes) : Option Bookmark := (parseLine (trimBytes line)).join

/-- A line that is read as a bookmark of a folder. -/
def isOf (path line : Bytes) : Bool := (bookmarkOf line).any (Bookmark.leadsTo path)

/-- A folder is listed once, and every other bookmark as before. -/
def Pinned (path : Bytes) (before after : Option (List Bookmark)) : Prop :=
  ∃ bs bs', before = some bs ∧ after = some bs' ∧ bs'.countP (Bookmark.leadsTo path) = 1 ∧
    bs'.filter (fun b => !b.leadsTo path) = bs.filter fun b => !b.leadsTo path

/-- A folder is not listed, and every other bookmark as before. -/
def Unpinned (path : Bytes) (before after : Option (List Bookmark)) : Prop :=
  ∃ bs bs', before = some bs ∧ after = some bs' ∧ bs'.countP (Bookmark.leadsTo path) = 0 ∧
    bs'.filter (fun b => !b.leadsTo path) = bs.filter fun b => !b.leadsTo path

/-- The bookmarks name a folder as `fileUrl` does and at most once; and where they do not name it, no
line of its label but the first is a bookmark. -/
structure Clear (path : Bytes) (label : Option Bytes) (list : Bytes) : Prop where
  reads : (parseBookmarks list).isSome
  spelled : ∀ l ∈ lines list, isOf path l = true → uriOf l = fileUrl path
  once : (lines list).countP (isOf path) ≤ 1
  label : (∀ l ∈ lines list, uriOf l ≠ fileUrl path) →
    ∀ l ∈ labelLines label, parseLine (trimBytes l) = some none

/-! ## Lines -/

/-- What a list is read as, by lines that have its entries. -/
theorem parseBookmarks_of {list : Bytes} {ls : List Bytes}
    (h : entryLines list = (ls.map trimBytes).filter (· ≠ [])) : parseBookmarks list =
      if ∀ l ∈ ls, (parseLine (trimBytes l)).isSome then some (ls.filterMap bookmarkOf) else none := by
  have hnil : parseLine [] = some none := by decide
  have hcurrent : current list = ls.filterMap bookmarkOf := by
    rw [current, h, List.filterMap_filter, List.filterMap_map]
    apply List.filterMap_congr
    intro l _
    rw [Function.comp_apply, bookmarkOf]
    by_cases hl : trimBytes l = []
    · rw [if_neg (by simpa using hl), hl, hnil]
      rfl
    · rw [if_pos (by simpa using hl)]
  have hreads : (∀ line ∈ entryLines list, (parseLine line).isSome) ↔
      ∀ l ∈ ls, (parseLine (trimBytes l)).isSome := by
    rw [h]
    constructor
    · intro h l hl
      by_cases hnone : trimBytes l = []
      · rw [hnone, hnil]
        rfl
      · exact h _ (List.mem_filter.2 ⟨List.mem_map_of_mem hl, by simpa using hnone⟩)
    · intro h line hline
      obtain ⟨l, hl, rfl⟩ := List.mem_map.1 (List.mem_of_mem_filter hline)
      exact h l hl
  rw [parseBookmarks_eq, hcurrent]
  simp only [hreads]

/-- Where it can be read, a list is read as the bookmarks of its lines. -/
theorem parseBookmarks_eq_some {list : Bytes} {ls : List Bytes} {bs : List Bookmark}
    (h : entryLines list = (ls.map trimBytes).filter (· ≠ [])) : parseBookmarks list = some bs ↔
      (∀ l ∈ ls, (parseLine (trimBytes l)).isSome) ∧ bs = ls.filterMap bookmarkOf := by
  rw [parseBookmarks_of h, Option.ite_none_right_eq_some, Option.some.injEq, eq_comm (a := bs)]

theorem fst_cutLine (line : Bytes) : (cutLine line).1 = uriOf line := by
  rw [cutLine, splitOnce, uriOf]
  split
  · next h =>
    split at h
    · exact (Prod.mk.inj (Option.some.inj h)).1.symm
    · cases h
  · next h =>
    split at h
    · cases h
    · next hmem =>
      refine (List.takeWhile_eq_self_iff.2 fun b hb => decide_eq_true ?_).symm
      rintro rfl
      exact hmem hb

/-- The URL of a line is the same whether the line is trimmed or not. -/
theorem uriOf_trimBytes {uri line : Bytes} (huri : ∀ b ∈ uri, urlSafe b = true) (hne : uri ≠ [])
    (h : uriOf line = uri) : uriOf (trimBytes line) = uri := by
  have hplain : ∀ b ∈ uri, decide (b ≠ 32) = true := fun b hb =>
    decide_eq_true (solid_of_urlSafe b (huri b hb)).2.1
  obtain ⟨x, front, hfront⟩ := List.exists_cons_of_ne_nil hne
  obtain ⟨back, z, hback⟩ := List.eq_nil_or_concat' uri |>.resolve_left hne
  have hx : Solid x := (solid_of_urlSafe x (huri x (by rw [hfront]; exact List.mem_cons_self))).1
  have hz : Solid z := (solid_of_urlSafe z (huri z (by rw [hback]; simp))).1
  obtain ⟨rest, hline⟩ : ∃ rest, line = uri ++ rest ∧ ∀ b ∈ rest.head?, b = 32 := by
    refine ⟨line.dropWhile (· ≠ 32), ?_, fun b hb => ?_⟩
    · rw [← h, uriOf, List.takeWhile_append_dropWhile]
    · have hstop := List.head?_dropWhile_not (fun b : UInt8 => decide (b ≠ 32)) line
      rw [Option.mem_def.1 hb] at hstop
      simpa using hstop
  obtain ⟨hline, hrest⟩ := hline
  have htrim : trimBytes line = uri ++ trimEnd rest := by
    have hstart : trimStart line = line := by
      rw [hline, hfront, List.cons_append, trimStart_cons hx]
    rw [trimBytes, hstart, hline, hback, List.append_assoc, List.singleton_append,
      trimEnd_append_cons hz, List.append_assoc, List.singleton_append]
  have hstop : (trimEnd rest).takeWhile (· ≠ 32) = [] := by
    obtain ⟨more, hmore⟩ := prefix_trimEnd rest
    cases hend : trimEnd rest with
    | nil => rfl
    | cons b t =>
      have hb : b = 32 := hrest b (by rw [← hmore, hend]; rfl)
      rw [hb, List.takeWhile_cons_of_neg (by simp)]
  rw [htrim, uriOf, List.takeWhile_append_of_pos hplain, hstop, List.append_nil]

theorem parseLine_eq (line : Bytes) : ∃ label : Bytes → Bytes, parseLine line =
    (fromFileUrl (uriOf line)).map fun path => path.map fun path => ⟨path, label path⟩ := by
  rw [← fst_cutLine]
  exact ⟨fun path => (cutLine line).2.getD ((nameLossy path).getD (cutLine line).1), rfl⟩

section

variable {path : Bytes}

/-- A line with the URL of a folder is a bookmark of the folder. -/
theorem parseLine_of_uriOf (hroot : path.head? = some 47) (hvalid : Utf8.valid path = true)
    {line : Bytes} (h : uriOf line = fileUrl path) :
    ∃ b, parseLine (trimBytes line) = some (some b) ∧ b.leadsTo path = true := by
  have hurl : uriOf (trimBytes line) = fileUrl path :=
    uriOf_trimBytes (urlSafe_fileUrl path) (by rw [(fileUrl_head path).choose_spec]; simp) h
  obtain ⟨label, hparse⟩ := parseLine_eq (trimBytes line)
  rw [hurl, fromFileUrl_fileUrl hroot, Utf8.lossy_eq_self_iff.2 hvalid] at hparse
  exact ⟨⟨path, label path⟩, hparse, decide_eq_true rfl⟩

theorem isOf_of_uriOf (hroot : path.head? = some 47) (hvalid : Utf8.valid path = true) {line : Bytes}
    (h : uriOf line = fileUrl path) : isOf path line = true := by
  obtain ⟨b, hb, hleads⟩ := parseLine_of_uriOf hroot hvalid h
  rw [isOf, bookmarkOf, hb]
  exact hleads

end

/-- As many bookmarks lead to a folder as lines are of it. -/
theorem countP_bookmarkOf (path : Bytes) (ls : List Bytes) :
    (ls.filterMap bookmarkOf).countP (Bookmark.leadsTo path) = ls.countP (isOf path) := by
  induction ls with
  | nil => rfl
  | cons l ls ih =>
    cases hl : bookmarkOf l with
    | none =>
      rw [List.filterMap_cons_none hl, ih, List.countP_cons_of_neg]
      rw [isOf, hl]
      exact Bool.false_ne_true
    | some b =>
      rw [List.filterMap_cons_some hl, List.countP_cons, List.countP_cons, ih, isOf, hl,
        Option.any_some]

/-! ## Lists -/

/-- Lines that are added behind a list that is closed with a newline. -/
theorem trimmed_append (list more : Bytes) :
    (lines ((if list ≠ [] ∧ list.getLast? ≠ some newline then list ++ [newline] else list) ++ more)).map
        trimBytes = (lines list).map trimBytes ++ (lines more).map trimBytes := by
  have hchomp : ∀ ls : List Bytes, (ls.map chomp).map trimBytes = ls.map trimBytes := by
    intro ls
    rw [List.map_map]
    exact List.map_congr_left fun l _ => trimBytes_chomp l
  by_cases hmem : newline ∈ list
  · obtain ⟨⟨a, b⟩, hcut⟩ := Option.isSome_iff_exists.1 (isSome_rsplitOnce hmem)
    obtain ⟨rfl, hb⟩ := eq_of_rsplitOnce hcut
    rw [lines_append_newline, List.map_append, hchomp]
    by_cases hnone : b = []
    · subst hnone
      rw [if_neg (by simp), List.append_assoc, List.singleton_append, lines_append_newline,
        List.map_append, hchomp, lines_nil, List.map_nil, List.append_nil]
    · have hlast : (a ++ newline :: b).getLast? ≠ some newline := by
        intro hlast
        rw [List.getLast?_append_of_ne_nil _ (by simp), List.getLast?_cons_of_ne_nil hnone] at hlast
        exact hb (List.mem_of_getLast? hlast)
      rw [if_pos ⟨by simp, hlast⟩]
      simp only [List.append_assoc, List.cons_append, List.nil_append]
      rw [lines_append_newline, lines_append_newline, List.splitOn_eq_singleton hb, List.map_append,
        List.map_append, hchomp, hchomp, ← List.append_assoc]
      have hlines : lines b = [b] := by
        rw [lines, List.splitOn_eq_singleton hb]
        simp [hnone]
      rw [hlines, List.append_assoc]
  · by_cases hnone : list = []
    · subst hnone
      rfl
    · have hlast : list.getLast? ≠ some newline := fun hlast => hmem (List.mem_of_getLast? hlast)
      rw [if_pos ⟨hnone, hlast⟩, List.append_assoc, List.singleton_append, lines_append_newline,
        List.map_append, hchomp, List.splitOn_eq_singleton hmem]
      have hlines : lines list = [list] := by
        rw [lines, List.splitOn_eq_singleton hmem]
        simp [hnone]
      rw [hlines]

/-- The lines of a list with one more folder. -/
theorem entryLines_pinned {list uri updated : Bytes} {label : Option Bytes}
    (huri : ∀ b ∈ uri, urlSafe b = true) (h : pinned list uri label = some updated) :
    (∀ l ∈ lines list, uriOf l ≠ uri) ∧ ∃ own, uriOf own = uri ∧ entryLines updated =
      ((lines list ++ own :: labelLines label).map trimBytes).filter (· ≠ []) := by
  obtain ⟨own, hown, hlines⟩ := lines_own huri label
  have hnil := pinned_nil uri label
  rw [pinned] at h hnil
  split at h
  · cases h
  · next hnew =>
    have hwritten := Option.some.inj hnil
    simp only [Option.some.injEq, List.append_assoc] at h
    simp only [ne_eq, not_true_eq_false, false_and, if_false, List.nil_append] at hwritten
    refine ⟨by simpa using hnew, own, hown, ?_⟩
    rw [← hwritten] at hlines
    rw [List.append_assoc] at hlines
    rw [entryLines, ← h, trimmed_append, hlines, List.map_append]

/-- The lines of a list without a folder. -/
theorem entryLines_unpinned (list uri : Bytes) : entryLines (unpinned list uri) =
    (((lines list).filter fun l => uriOf l ≠ uri).map trimBytes).filter (· ≠ []) := by
  have hjoined : ∀ ls : List Bytes, (∀ l ∈ ls, newline ∉ l) →
      entryLines (joined ls) = (ls.map trimBytes).filter (· ≠ []) := by
    intro ls hls
    by_cases hnil : [newline].intercalate ls = []
    · -- no line, or a single empty one
      rw [joined, hnil, if_neg (by simp)]
      cases ls with
      | nil => rfl
      | cons l ls =>
        cases ls with
        | nil =>
          rw [List.intercalate_singleton] at hnil
          rw [hnil]
          rfl
        | cons l' ls =>
          simp [List.intercalate_cons_cons] at hnil
    · have hne : ls ≠ [] := fun h => hnil (by rw [h]; rfl)
      have hchomp : (ls.map chomp).map trimBytes = ls.map trimBytes := by
        rw [List.map_map]
        exact List.map_congr_left fun l _ => trimBytes_chomp l
      rw [joined, if_pos hnil, entryLines, lines_join hne hls, hchomp]
  exact hjoined _ fun l hl => notMem_newline_of_mem_lines (List.mem_of_mem_filter hl)

/-! ## Calls -/

section

variable {place : Option Place} {unreadable : Bool} {c : SaveCalls} {file after : Option Bytes}

/-- What a call that pins has done. -/
theorem addBookmark_returned {isDir : Bool} {path : Bytes} {label : Option Bytes}
    (h : addBookmark place unreadable c isDir path label file = (.ok (), after)) :
    (pinned (bookmarksText unreadable file) (fileUrl path) label = none ∧ after = file) ∨
      ∃ updated, pinned (bookmarksText unreadable file) (fileUrl path) label = some updated ∧
        after = some updated := by
  unfold addBookmark at h
  split at h
  · cases h
  · cases place with
    | none => cases h
    | some p =>
      simp only at h
      rw [Act.bind_of_ok (show Act.get file = (.ok file, file) from rfl)] at h
      rw [bookmarksText]
      cases hpinned : pinned (((readToString unreadable file).map Subtype.val).getD [])
          (fileUrl path) label with
      | none =>
        simp only [hpinned] at h
        exact Or.inl ⟨rfl, (Prod.mk.inj h).2.symm⟩
      | some updated =>
        simp only [hpinned] at h
        right
        by_cases hworks : c.Works
        · rw [writeNew_ok _ _ _ _ _ hworks] at h
          exact ⟨updated, rfl, (Prod.mk.inj h).2.symm⟩
        · obtain ⟨e, he⟩ := writeNew_error c p (fun bs _ => some bs) updated file hworks
          rw [he] at h
          cases h

/-- What a call that unpins has done. -/
theorem removeBookmark_returned {path : Bytes}
    (h : removeBookmark place unreadable c path file = (.ok (), after)) :
    (readToString unreadable file = none ∧ after = file) ∨
      ∃ list, readToString unreadable file = some list ∧
        after = some (unpinned list.val (fileUrl path)) := by
  unfold removeBookmark at h
  cases place with
  | none => cases h
  | some p =>
    simp only at h
    rw [Act.bind_of_ok (show Act.get file = (.ok file, file) from rfl)] at h
    cases hread : readToString unreadable file with
    | none =>
      simp only [hread] at h
      exact Or.inl ⟨rfl, (Prod.mk.inj h).2.symm⟩
    | some list =>
      simp only [hread] at h
      right
      by_cases hworks : c.Works
      · rw [writeNew_ok _ _ _ _ _ hworks] at h
        exact ⟨list, rfl, (Prod.mk.inj h).2.symm⟩
      · obtain ⟨e, he⟩ := writeNew_error c p (fun bs _ => some bs)
          (unpinned list.val (fileUrl path)) file hworks
        rw [he] at h
        cases h

/-- A folder that is pinned. -/
theorem addBookmark_ok (p : Place) (hworks : c.Works) {path updated : Bytes} {label : Option Bytes}
    (h : pinned (bookmarksText unreadable file) (fileUrl path) label = some updated) :
    addBookmark (some p) unreadable c true path label file = (.ok (), some updated) := by
  rw [bookmarksText] at h
  unfold addBookmark
  simp only [Bool.not_true, Bool.false_eq_true, if_false]
  rw [Act.bind_of_ok (show Act.get file = (.ok file, file) from rfl)]
  simp only [h]
  exact writeNew_ok _ _ _ _ _ hworks

/-- A folder that is unpinned. -/
theorem removeBookmark_ok (p : Place) (hworks : c.Works) {list : Text}
    (h : readToString unreadable file = some list) (path : Bytes) :
    removeBookmark (some p) unreadable c path file =
      (.ok (), some (unpinned list.val (fileUrl path))) := by
  unfold removeBookmark
  simp only
  rw [Act.bind_of_ok (show Act.get file = (.ok file, file) from rfl)]
  simp only [h]
  exact writeNew_ok _ _ _ _ _ hworks

end

/-! ## Texts -/

theorem valid_bookmarksText (unreadable : Bool) (file : Option Bytes) :
    Utf8.valid (bookmarksText unreadable file) = true := valid_userList unreadable file

theorem bookmarksText_of_valid {bs : Bytes} (h : Utf8.valid bs = true) :
    bookmarksText false (some bs) = bs := by
  rw [bookmarksText, readToString_text ⟨bs, h⟩]
  rfl

theorem ascii_of_urlSafe (b : UInt8) : urlSafe b = true → b < 0x80 := by
  revert b
  exact forall_byte (by decide +kernel)

theorem valid_pinned {list updated path : Bytes} (hlist : Utf8.valid list = true)
    {label : Option Text} (h : pinned list (fileUrl path) (label.map Subtype.val) = some updated) :
    Utf8.valid updated = true := by
  have hascii : ∀ b ∈ fileUrl path, b < 0x80 := fun b hb =>
    ascii_of_urlSafe b (urlSafe_fileUrl path b hb)
  rw [pinned] at h
  split at h
  · cases h
  · obtain rfl := Option.some.inj h
    have hbase : Utf8.valid
        (if list ≠ [] ∧ list.getLast? ≠ some newline then list ++ [newline] else list) = true := by
      split
      · rw [Utf8.valid_append hlist]
        rfl
      · exact hlist
    have hlabel : Utf8.valid (((label.map Subtype.val).filter fun l => trimBytes l ≠ []).elim []
        fun l => 32 :: trimBytes l) = true := by
      cases label with
      | none => rfl
      | some l =>
        rw [Option.map_some]
        by_cases hl : trimBytes l.val = []
        · rw [Option.filter_some, if_neg (by simpa using hl)]
          rfl
        · rw [Option.filter_some, if_pos (by simpa using hl), Option.elim_some]
          have htrim : Utf8.valid (trimBytes l.val) = true := (Text.trim l).property
          rw [← List.nil_append (32 :: _), Utf8.valid_append_ascii (by decide), htrim]
          rfl
    rw [Utf8.valid_append_ascii (by decide), Utf8.valid_append, hlabel]
    · rfl
    · rw [Utf8.valid_append_of_ascii hascii]
      exact hbase

theorem valid_unpinned {list : Bytes} (hlist : Utf8.valid list = true) (uri : Bytes) :
    Utf8.valid (unpinned list uri) = true := by
  have hlines : Utf8.valid ([newline].intercalate ((lines list).filter fun l => uriOf l ≠ uri)) = true := by
    rw [Text.valid_intercalate (by decide), List.all_eq_true]
    exact fun l hl => valid_of_mem_lines hlist (List.mem_of_mem_filter hl)
  rw [unpinned, joined]
  split
  · rw [Utf8.valid_append hlines]
    rfl
  · exact hlines

/-! ## Both calls -/

section

variable {path : Bytes} (hroot : path.head? = some 47) (hvalid : Utf8.valid path = true)
  {list : Bytes}

include hroot hvalid

/-- Where the list names the folder already, nothing is written. -/
theorem pinned_iff_of_named (h : ∃ l ∈ lines list, uriOf l = fileUrl path) :
    Pinned path (parseBookmarks list) (parseBookmarks list) ↔
      (parseBookmarks list).isSome ∧ (lines list).countP (isOf path) ≤ 1 := by
  obtain ⟨l, hl, hurl⟩ := h
  have hpos : 0 < (lines list).countP (isOf path) :=
    List.countP_pos_iff.2 ⟨l, hl, isOf_of_uriOf hroot hvalid hurl⟩
  have hread := @parseBookmarks_eq_some list (lines list)
  constructor
  · rintro ⟨bs, bs', hbs, hbs', hcount, -⟩
    obtain rfl := ((hread rfl).1 hbs').2
    rw [countP_bookmarkOf] at hcount
    exact ⟨by rw [hbs]; rfl, hcount.le⟩
  · intro h
    obtain ⟨hsome, hcount⟩ := h
    obtain ⟨bs, hbs⟩ := Option.isSome_iff_exists.1 hsome
    obtain rfl := ((hread rfl).1 hbs).2
    refine ⟨_, _, hbs, hbs, ?_, rfl⟩
    rw [countP_bookmarkOf]
    omega

/-- Where it does not, a line of the folder and the other lines of its label come behind the list. -/
theorem pinned_iff_of_new {updated : Bytes} {label : Option Bytes}
    (h : pinned list (fileUrl path) label = some updated) :
    Pinned path (parseBookmarks list) (parseBookmarks updated) ↔
      (parseBookmarks list).isSome ∧ (lines list).countP (isOf path) = 0 ∧
        ∀ l ∈ labelLines label, parseLine (trimBytes l) = some none := by
  obtain ⟨-, own, hown, hentries⟩ := entryLines_pinned (urlSafe_fileUrl path) h
  obtain ⟨b, hb, hleads⟩ := parseLine_of_uriOf hroot hvalid hown
  have hbookmark : bookmarkOf own = some b := by
    rw [bookmarkOf, hb]
    rfl
  have hmore : (lines list ++ own :: labelLines label).filterMap bookmarkOf =
      (lines list).filterMap bookmarkOf ++ b :: (labelLines label).filterMap bookmarkOf := by
    rw [List.filterMap_append, List.filterMap_cons_some hbookmark]
  have hread := @parseBookmarks_eq_some list (lines list)
  have hwritten := @parseBookmarks_eq_some updated (lines list ++ own :: labelLines label)
  constructor
  · rintro ⟨bs, bs', hbs, hbs', hcount, hothers⟩
    obtain rfl := ((hread rfl).1 hbs).2
    obtain ⟨hall, rfl⟩ := (hwritten hentries).1 hbs'
    rw [hmore, List.countP_append, List.countP_cons, if_pos hleads, countP_bookmarkOf,
      countP_bookmarkOf] at hcount
    rw [hmore, List.filter_append, List.filter_cons_of_neg (by simpa using hleads)] at hothers
    have hnoOthers := List.append_right_eq_self.1 hothers
    refine ⟨by rw [hbs]; rfl, by omega, fun l hl => ?_⟩
    have hsome := hall l (by simp [hl])
    obtain ⟨found, hfound⟩ := Option.isSome_iff_exists.1 hsome
    cases found with
    | none => exact hfound
    | some b' =>
      -- a bookmark in the label is the folder again, or another that was not there
      have hmem : b' ∈ (labelLines label).filterMap bookmarkOf := by
        refine List.mem_filterMap.2 ⟨l, hl, ?_⟩
        rw [bookmarkOf, hfound]
        rfl
      have hleads' : b'.leadsTo path = true := by
        by_contra hnot
        have hin : b' ∈ ((labelLines label).filterMap bookmarkOf).filter fun b => !b.leadsTo path :=
          List.mem_filter.2 ⟨hmem, by simpa using hnot⟩
        rw [hnoOthers] at hin
        cases hin
      have hpos : 0 < (labelLines label).countP (isOf path) := by
        rw [← countP_bookmarkOf]
        exact List.countP_pos_iff.2 ⟨b', hmem, hleads'⟩
      omega
  · rintro ⟨hsome, hcount, hlabel⟩
    obtain ⟨bs, hbs⟩ := Option.isSome_iff_exists.1 hsome
    obtain ⟨hall, rfl⟩ := (hread rfl).1 hbs
    have hnothing : (labelLines label).filterMap bookmarkOf = [] := by
      refine List.filterMap_eq_nil_iff.2 fun l hl => ?_
      rw [bookmarkOf, hlabel l hl]
      rfl
    refine ⟨_, _, hbs, (hwritten hentries).2 ⟨fun l hl => ?_, rfl⟩, ?_, ?_⟩
    · rcases List.mem_append.1 hl with hl | hl
      · exact hall l hl
      · rcases List.mem_cons.1 hl with rfl | hl
        · rw [hb]
          rfl
        · rw [hlabel l hl]
          rfl
    · rw [hmore, hnothing, List.countP_append, countP_bookmarkOf, hcount, List.countP_singleton,
        if_pos hleads]
    · rw [hmore, hnothing, List.filter_append, List.filter_cons_of_neg (by simpa using hleads)]
      simp

/-- The lines that are taken out are the folder's. -/
theorem unpinned_iff : Unpinned path (parseBookmarks list)
      (parseBookmarks (unpinned list (fileUrl path))) ↔
    (parseBookmarks list).isSome ∧ ∀ l ∈ lines list, isOf path l = true → uriOf l = fileUrl path := by
  have hread := @parseBookmarks_eq_some list (lines list)
  have hwritten := @parseBookmarks_eq_some (unpinned list (fileUrl path))
    ((lines list).filter fun l => uriOf l ≠ fileUrl path)
  have hothers : (((lines list).filter fun l => uriOf l ≠ fileUrl path).filterMap bookmarkOf).filter
      (fun b => !b.leadsTo path) =
        ((lines list).filterMap bookmarkOf).filter fun b => !b.leadsTo path := by
    induction lines list with
    | nil => rfl
    | cons l ls ih =>
      by_cases hurl : uriOf l = fileUrl path
      · obtain ⟨b, hb, hleads⟩ := parseLine_of_uriOf hroot hvalid hurl
        have hbookmark : bookmarkOf l = some b := by
          rw [bookmarkOf, hb]
          rfl
        rw [List.filter_cons_of_neg (by simpa using hurl), ih, List.filterMap_cons_some hbookmark,
          List.filter_cons_of_neg (by simpa using hleads)]
      · rw [List.filter_cons_of_pos (by simpa using hurl)]
        cases hbookmark : bookmarkOf l with
        | none => rw [List.filterMap_cons_none hbookmark, List.filterMap_cons_none hbookmark, ih]
        | some b =>
          rw [List.filterMap_cons_some hbookmark, List.filterMap_cons_some hbookmark,
            List.filter_cons, List.filter_cons, ih]
  constructor
  · rintro ⟨bs, bs', hbs, hbs', hcount, -⟩
    obtain ⟨-, rfl⟩ := (hwritten (entryLines_unpinned _ _)).1 hbs'
    rw [countP_bookmarkOf, List.countP_eq_zero] at hcount
    refine ⟨by rw [hbs]; rfl, fun l hl hof => ?_⟩
    by_contra hurl
    exact hcount l (List.mem_filter.2 ⟨hl, by simpa using hurl⟩) hof
  · rintro ⟨hsome, hspelled⟩
    obtain ⟨bs, hbs⟩ := Option.isSome_iff_exists.1 hsome
    obtain ⟨hall, rfl⟩ := (hread rfl).1 hbs
    refine ⟨_, _, hbs, (hwritten (entryLines_unpinned _ _)).2
      ⟨fun l hl => hall l (List.mem_of_mem_filter hl), rfl⟩, ?_, hothers⟩
    rw [countP_bookmarkOf, List.countP_eq_zero]
    intro l hl hof
    obtain ⟨hmem, hurl⟩ := List.mem_filter.1 hl
    exact (of_decide_eq_true hurl) (hspelled l hmem hof)

end

/-- **Exactly when pinning and unpinning mean what they say**: the bookmarks can be read, every line
that leads to the folder is spelled as `fileUrl` spells it, there is at most one, and where there is
none, no line of the label but the first is a bookmark. -/
theorem pins_iff {place : Option Place} {unreadable : Bool} {c : SaveCalls} {isDir : Bool}
    {path : Text} {label : Option Text} {file after gone : Option Bytes}
    (hroot : path.val.head? = some 47)
    (hadd : addBookmark place unreadable c isDir path.val (label.map Subtype.val) file =
      (.ok (), after))
    (hremove : removeBookmark place unreadable c path.val file = (.ok (), gone)) :
    (Pinned path.val (bookmarks unreadable file) (bookmarks false after) ∧
      Unpinned path.val (bookmarks unreadable file) (bookmarks unreadable gone)) ↔
      Clear path.val (label.map Subtype.val) (bookmarksText unreadable file) := by
  have htext := valid_bookmarksText unreadable file
  -- what is listed afterwards, by the two ways that each call can end
  have hunpinned : Unpinned path.val (bookmarks unreadable file) (bookmarks unreadable gone) ↔
      (parseBookmarks (bookmarksText unreadable file)).isSome ∧
        ∀ l ∈ lines (bookmarksText unreadable file), isOf path.val l = true →
          uriOf l = fileUrl path.val := by
    rcases removeBookmark_returned hremove with ⟨hread, rfl⟩ | ⟨list, hread, rfl⟩
    · have hempty : bookmarksText unreadable gone = [] := by rw [bookmarksText, hread]; rfl
      have hunread := @unpinned_iff path.val hroot path.property []
      rw [bookmarks, hempty]
      exact hunread
    · have hlist : bookmarksText unreadable file = list.val := by rw [bookmarksText, hread]; rfl
      have hreadable : unreadable = false := by
        cases unreadable with
        | false => rfl
        | true => cases hread
      subst hreadable
      rw [bookmarks, bookmarks, bookmarksText_of_valid (valid_unpinned list.property _), hlist]
      exact unpinned_iff hroot path.property
  have hpinned : Pinned path.val (bookmarks unreadable file) (bookmarks false after) ↔
      ((∃ l ∈ lines (bookmarksText unreadable file), uriOf l = fileUrl path.val) ∧
        (parseBookmarks (bookmarksText unreadable file)).isSome ∧
        (lines (bookmarksText unreadable file)).countP (isOf path.val) ≤ 1) ∨
      ((∀ l ∈ lines (bookmarksText unreadable file), uriOf l ≠ fileUrl path.val) ∧
        (parseBookmarks (bookmarksText unreadable file)).isSome ∧
        (lines (bookmarksText unreadable file)).countP (isOf path.val) = 0 ∧
        ∀ l ∈ labelLines (label.map Subtype.val), parseLine (trimBytes l) = some none) := by
    rcases addBookmark_returned hadd with ⟨hnamed, rfl⟩ | ⟨updated, hnew, rfl⟩
    · obtain ⟨l, hl, hurl⟩ : ∃ l ∈ lines (bookmarksText unreadable after), uriOf l = fileUrl path.val := by
        rw [pinned] at hnamed
        split at hnamed
        · next hany => simpa using hany
        · cases hnamed
      have hreadable : bookmarksText unreadable after = bookmarksText false after := by
        cases unreadable with
        | false => rfl
        | true => cases hl
      rw [bookmarks, bookmarks, ← hreadable, pinned_iff_of_named hroot path.property ⟨l, hl, hurl⟩]
      constructor
      · exact fun h => Or.inl ⟨⟨l, hl, hurl⟩, h⟩
      · exact fun h => (h.resolve_right fun hnone => hnone.1 l hl hurl).2
    · obtain ⟨hnone, -⟩ := entryLines_pinned (urlSafe_fileUrl path.val) hnew
      rw [bookmarks, bookmarks, bookmarksText_of_valid (valid_pinned htext hnew),
        pinned_iff_of_new hroot path.property hnew, or_iff_right, and_iff_right hnone]
      rintro ⟨⟨l, hl, hurl⟩, -⟩
      exact hnone l hl hurl
  rw [hpinned, hunpinned]
  constructor
  · rintro ⟨hadded, hsome, hspelled⟩
    rcases hadded with ⟨⟨l, hl, hurl⟩, -, honce⟩ | ⟨-, -, hnone, hlabel⟩
    · exact ⟨hsome, hspelled, honce, fun h => absurd hurl (h l hl)⟩
    · exact ⟨hsome, hspelled, hnone.trans_le (Nat.zero_le 1), fun _ => hlabel⟩
  · intro h
    refine ⟨?_, h.reads, h.spelled⟩
    by_cases hnamed : ∃ l ∈ lines (bookmarksText unreadable file), uriOf l = fileUrl path.val
    · exact Or.inl ⟨hnamed, h.reads, h.once⟩
    · have hnone : ∀ l ∈ lines (bookmarksText unreadable file), uriOf l ≠ fileUrl path.val :=
        fun l hl hurl => hnamed ⟨l, hl, hurl⟩
      refine Or.inr ⟨hnone, h.reads, List.countP_eq_zero.2 fun l hl hof => ?_, h.label hnone⟩
      exact hnone l hl (h.spelled l hl hof)

/-- A folder with a letter that a URL escapes. -/
def cafe : Text := ⟨text "/café", by decide⟩

/-- A list of another folder. -/
def homeList : Text := ⟨text "file:///home\n", by decide⟩

/-- A list that spells the folder in lower case. -/
def lowerList : Text := ⟨text "file:///caf%c3%a9\n", by decide⟩

/-- What is written when the folder is pinned. -/
theorem addBookmark_cafe {list updated : Bytes} (hlist : Utf8.valid list = true)
    (h : pinned list (fileUrl cafe.val) none = some updated) :
    addBookmark (some ⟨[], [], []⟩) false {} true cafe.val none (some list) = (.ok (), some updated) := by
  refine addBookmark_ok _ (by decide) ?_
  rw [bookmarksText_of_valid hlist]
  exact h

/-- Beside another folder, one is pinned and unpinned. -/
theorem pins_cafe :
    Pinned cafe.val (bookmarks false (some homeList.val))
        (bookmarks false (some (text "file:///home\nfile:///caf%C3%A9\n"))) ∧
      Unpinned cafe.val (bookmarks false (some homeList.val))
        (bookmarks false (some (unpinned homeList.val (fileUrl cafe.val)))) := by
  have hadd := @addBookmark_cafe homeList.val (text "file:///home\nfile:///caf%C3%A9\n")
    homeList.property (by decide)
  have hremove := removeBookmark_ok ⟨[], [], []⟩ (show SaveCalls.Works {} by decide)
    (readToString_text homeList) cafe.val
  refine (@pins_iff _ _ _ _ _ none _ _ _ (by decide) hadd hremove).2 ⟨?_, ?_, ?_, ?_⟩
  · decide
  · decide
  · decide
  · decide

/-- **Another spelling of the same folder**: pinned once more it is listed twice, and unpinned it is
still listed. -/
theorem pins_other_spelling :
    ∃ after gone,
      addBookmark (some ⟨[], [], []⟩) false {} true cafe.val none (some lowerList.val) = (.ok (), after) ∧
      removeBookmark (some ⟨[], [], []⟩) false {} cafe.val (some lowerList.val) = (.ok (), gone) ∧
      ¬Pinned cafe.val (bookmarks false (some lowerList.val)) (bookmarks false after) ∧
      ¬Unpinned cafe.val (bookmarks false (some lowerList.val)) (bookmarks false gone) := by
  have htwice : (bookmarks false (some (text "file:///caf%c3%a9\nfile:///caf%C3%A9\n"))).map
      (List.countP (Bookmark.leadsTo cafe.val)) = some 2 := by decide
  have hstill : (bookmarks false (some (unpinned lowerList.val (fileUrl cafe.val)))).map
      (List.countP (Bookmark.leadsTo cafe.val)) = some 1 := by decide
  have hadd := @addBookmark_cafe lowerList.val (text "file:///caf%c3%a9\nfile:///caf%C3%A9\n")
    lowerList.property (by decide)
  refine ⟨_, _, hadd, removeBookmark_ok _ (by decide) (readToString_text lowerList) _, ?_, ?_⟩
  · rintro ⟨bs, bs', -, hafter, hcount, -⟩
    rw [hafter, Option.map_some, hcount] at htwice
    cases htwice
  · rintro ⟨bs, bs', -, hafter, hcount, -⟩
    rw [hafter, Option.map_some, hcount] at hstill
    cases hstill

end Aurade.Stores
