import Aurade.Stores.Places
import Aurade.Stores.Tags
import Mathlib.Data.List.TakeWhile
import Mathlib.Data.Set.Basic

/-!
# Stores that cannot be read

Each writer reads its store with every error taken for an empty text. `Spares` is what it should do
on a store it cannot read: fail and leave the file, or write one that still has every entry but the
call's own. `spares_iff` says when each of the four writers does: where the call is refused for
another reason, or there was no other entry to lose.
-/

namespace Aurade.Stores

open Fs

/-! ## What is at stake -/

/-- Fails with its file as it was, or leaves a file that has what it should. -/
def Spares {σ α : Type} (file : σ → Option Bytes) (keeps : Bytes → Prop) (m : Act σ Error α)
    (s : σ) : Prop :=
  ((m s).1.isOk = false ∧ file (m s).2 = file s) ∨ ∃ bs, file (m s).2 = some bs ∧ keeps bs

/-- Every entry but the call's own is still there. -/
def KeepsOthers {ε : Type} (entries : Bytes → Set ε) (own : Set ε) (old new : Bytes) : Prop :=
  entries old \ own ⊆ entries new

/-- The lines of a bookmarks file. -/
def bookmarkEntries (list : Bytes) : Set Bytes := {l | l ∈ lines list ∧ trimBytes l ≠ []}

/-- The entries of a recent list. -/
def recentEntries (list : Bytes) : Set Bytes := {b | b ∈ splitBookmarks list}

/-- The answers of a `mimeapps.list`, each with its section. -/
def mimeEntries (list : Bytes) : Set (Bytes × Bytes × List Bytes) :=
  {e | e.2 ∈ parseMimeSection list e.1}

/-- The tags of an index with the paths under them. Bytes that are no text are read past. -/
def tagEntries (J : JsonLib) (bs : Bytes) : Set (Text × Text) :=
  {e | e.2 ∈ ((J.parse (Text.lossy bs)).getD ∅).listed e.1}

/-- A call that leaves its file where it is refused, and else leaves the one text. -/
theorem spares_iff_of {σ α : Type} {file : σ → Option Bytes} {keeps : Bytes → Prop}
    {m : Act σ Error α} {s : σ} (refused : Prop) (new : Bytes)
    (hrefused : refused → (m s).1.isOk = false ∧ file (m s).2 = file s)
    (hwritten : ¬refused → (m s).1.isOk = true ∧ file (m s).2 = some new) :
    Spares file keeps m s ↔ refused ∨ keeps new := by
  by_cases h : refused
  · exact iff_of_true (Or.inl (hrefused h)) (Or.inl h)
  · obtain ⟨hok, hfile⟩ := hwritten h
    rw [Spares, hok, hfile, or_iff_right h]
    constructor
    · intro hspares
      rcases hspares with ⟨hfalse, -⟩ | ⟨bs, hbs, hkeeps⟩
      · cases hfalse
      · rwa [Option.some.inj hbs]
    · intro hkeeps
      exact Or.inr ⟨new, rfl, hkeeps⟩

theorem keepsOthers_iff {ε : Type} {entries : Bytes → Set ε} {own : Set ε} {old new : Bytes} :
    KeepsOthers entries own old new ↔ ∀ e ∈ entries old, e ∈ own ∨ e ∈ entries new := by
  constructor
  · intro h e he
    by_cases hown : e ∈ own
    · exact Or.inl hown
    · exact Or.inr (h ⟨he, hown⟩)
  · intro h e he
    exact (h e he.1).resolve_left he.2

/-! ## Bookmarks -/

section

variable {p : Place} {unreadable : Bool} {c : SaveCalls} {old : Bytes}

/-- The lines of a label but its first. -/
def labelLines (label : Option Bytes) : List Bytes :=
  (lines (label.elim [] trimBytes ++ [newline])).tail

/-- What is pinned where nothing can be read. -/
theorem pinned_nil (uri : Bytes) (label : Option Bytes) :
    pinned [] uri label = some (uri ++
      (if label.elim [] trimBytes = [] then [] else 32 :: label.elim [] trimBytes) ++ [newline]) := by
  have hsuffix : ((label.filter fun l => trimBytes l ≠ []).elim [] fun l => 32 :: trimBytes l) =
      if label.elim [] trimBytes = [] then [] else 32 :: label.elim [] trimBytes := by
    cases label with
    | none => rfl
    | some l => by_cases hl : trimBytes l = [] <;> simp [Option.filter, hl]
  rw [← hsuffix]
  rfl

theorem uriOf_append {uri : Bytes} (huri : ∀ b ∈ uri, urlSafe b = true) (z : Bytes) :
    uriOf (uri ++ 32 :: z) = uri := by
  have hplain : ∀ b ∈ uri, decide (b ≠ 32) = true := by
    intro b hb
    apply decide_eq_true
    rintro rfl
    exact absurd (huri 32 hb) (by decide)
  rw [uriOf, List.takeWhile_append_of_pos hplain, List.takeWhile_cons_of_neg (by simp),
    List.append_nil]

/-- A line that begins with the folder stays one about it. -/
theorem uriOf_chomp {uri : Bytes} (huri : ∀ b ∈ uri, urlSafe b = true) (z : Bytes) :
    uriOf (chomp (uri ++ 32 :: z)) = uri := by
  unfold chomp
  split
  · next hlast =>
    cases z with
    | nil => simp at hlast
    | cons x z =>
      rw [List.dropLast_append_of_ne_nil (by simp), List.dropLast_cons_cons]
      exact uriOf_append huri _
  · exact uriOf_append huri z

/-- What is written for a folder: its own line, and the other lines of its label. -/
theorem lines_own {uri : Bytes} (huri : ∀ b ∈ uri, urlSafe b = true) (label : Option Bytes) :
    ∃ own, uriOf own = uri ∧
      lines (uri ++ (if label.elim [] trimBytes = [] then [] else 32 :: label.elim [] trimBytes) ++
        [newline]) = own :: labelLines label := by
  have hnotin : ∀ {b : UInt8}, urlSafe b = false → b ∉ uri := by
    intro b hb hmem
    rw [huri b hmem] at hb
    cases hb
  unfold labelLines
  generalize label.elim [] trimBytes = t
  split
  · next ht =>
    have hchomp : chomp uri = uri := by
      unfold chomp
      rw [if_neg]
      intro hlast
      exact hnotin (b := 13) (by decide) (List.mem_of_getLast? hlast)
    have huriOf : uriOf uri = uri := by
      apply List.takeWhile_eq_self_iff.2
      intro b hb
      apply decide_eq_true
      rintro rfl
      exact hnotin (by decide) hb
    subst ht
    refine ⟨uri, huriOf, ?_⟩
    rw [List.append_nil, lines_concat (hnotin (by decide)), hchomp]
    rfl
  · next ht =>
    obtain ⟨x, xs, hx⟩ := List.exists_cons_of_ne_nil (List.splitOn_ne_nil newline t)
    have hhead : newline ∉ uri ++ [32] := by
      intro hmem
      rcases List.mem_append.1 hmem with hmem | hmem
      · exact hnotin (by decide) hmem
      · revert hmem
        decide
    refine ⟨chomp (uri ++ 32 :: x), uriOf_chomp huri x, ?_⟩
    rw [lines_append_newline, ← List.singleton_append, ← List.append_assoc,
      splitOn_append hhead, hx, lines_nil, List.append_nil, List.modifyHead_cons, List.map_cons,
      List.append_assoc, lines_append_newline, hx, lines_nil, List.append_nil, List.map_cons,
      List.tail_cons]
    rfl

/-- Behind the folder's own line come the other lines of its label. -/
theorem mem_pinned_nil {uri new : Bytes} {label : Option Bytes} (huri : ∀ b ∈ uri, urlSafe b = true)
    (h : pinned [] uri label = some new) {l : Bytes} (hl : uriOf l ≠ uri) :
    l ∈ lines new ↔ l ∈ labelLines label := by
  obtain ⟨own, hown, hlines⟩ := lines_own huri label
  rw [pinned_nil, Option.some.injEq] at h
  rw [← h, hlines, List.mem_cons, or_iff_right]
  rintro rfl
  exact hl hown

/-- **Pinning a folder in a list that cannot be read.** -/
theorem addBookmark_spares_iff (hread : readToString unreadable (some old) = none) (isDir : Bool)
    (path : Bytes) (label : Option Bytes) :
    Spares id (KeepsOthers bookmarkEntries {l | uriOf l = fileUrl path} old)
        (addBookmark (some p) unreadable c isDir path label) (some old) ↔
      (isDir = false ∨ ¬c.Works) ∨
        ∀ l ∈ bookmarkEntries old, uriOf l = fileUrl path ∨ l ∈ labelLines label := by
  obtain ⟨new, hnew⟩ : ∃ new, pinned [] (fileUrl path) label = some new := ⟨_, pinned_nil _ _⟩
  have hrun : addBookmark (some p) unreadable c isDir path label (some old) =
      if !isDir then (.error (.badRequest [.name path, .str " is not a folder"]), some old)
      else writeNew c p (fun bs _ => some bs) new (some old) := by
    unfold addBookmark
    cases isDir with
    | false => rfl
    | true =>
      simp only [Bool.not_true, Bool.false_eq_true, if_false]
      rw [Act.bind_of_ok (show Act.get (some old) = (.ok (some old), some old) from rfl), hread]
      simp only [Option.map_none, Option.getD_none, hnew]
  rw [spares_iff_of (isDir = false ∨ ¬c.Works) new, keepsOthers_iff]
  · apply or_congr_right
    apply forall₂_congr
    intro l hl
    by_cases hown : uriOf l = fileUrl path
    · exact iff_of_true (Or.inl hown) (Or.inl hown)
    · apply or_congr_right
      rw [← mem_pinned_nil (urlSafe_fileUrl path) hnew hown]
      exact and_iff_left hl.2
  · intro hrefused
    rw [hrun]
    by_cases hdir : isDir = false
    · rw [hdir]
      exact ⟨rfl, rfl⟩
    · obtain ⟨e, he⟩ := writeNew_error c p (fun bs _ => some bs) new (some old)
        (hrefused.resolve_left hdir)
      rw [if_neg (by simpa using hdir), he]
      exact ⟨rfl, rfl⟩
  · intro hfine
    obtain ⟨hdir, hworks⟩ := not_or.1 hfine
    rw [hrun, if_neg (by simpa using hdir), writeNew_ok _ _ _ _ _ (not_not.1 hworks)]
    exact ⟨rfl, rfl⟩

/-! ## Recent files -/

/-- **Noting a file in a list that cannot be read.** -/
theorem addRecent_spares_iff (hread : readToString unreadable (some old) = none) (secs : ℤ)
    (path mime app : Bytes) :
    Spares id
        (KeepsOthers recentEntries
          {b | attributeOf b (text "href") = some (escapeXml (fileUrl path))} old)
        (addRecent (some p) unreadable c secs path mime app) (some old) ↔
      ¬c.Works ∨ ∀ b ∈ recentEntries old,
        attributeOf b (text "href") = some (escapeXml (fileUrl path)) := by
  have hquotable := quotable (fileUrl path) mime app secs
  have hnoted : noted [] (escapeXml (fileUrl path)) (timestamp secs) mime app =
      xbelHead ++ recentEntry (escapeXml (fileUrl path)) (timestamp secs) (escapeXml mime)
        (escapeXml app) ++ xbelTail := by
    rw [noted, show splitBookmarks [] = [] from rfl]
    simp only [List.filter_nil, List.drop_nil, List.nil_append, List.intercalate_singleton]
  have hrun : addRecent (some p) unreadable c secs path mime app (some old) =
      writeNew c p (fun bs _ => some bs)
        (noted [] (escapeXml (fileUrl path)) (timestamp secs) mime app) (some old) := by
    unfold addRecent
    simp only
    rw [Act.bind_of_ok (show Act.get (some old) = (.ok (some old), some old) from rfl), hread]
    rfl
  rw [spares_iff_of (¬c.Works)
    (noted [] (escapeXml (fileUrl path)) (timestamp secs) mime app), keepsOthers_iff, hnoted]
  · apply or_congr_right
    apply forall₂_congr
    intro b _
    apply or_iff_left_of_imp
    intro hb
    have hsplit : b ∈ splitBookmarks (xbelHead ++ recentEntry (escapeXml (fileUrl path))
      (timestamp secs) (escapeXml mime) (escapeXml app) ++ xbelTail) := hb
    rw [hquotable.splitBookmarks_eq, List.mem_singleton] at hsplit
    rw [hsplit]
    exact hquotable.attributeOf_eq
  · intro hfails
    obtain ⟨e, he⟩ := writeNew_error c p (fun bs _ => some bs)
      (noted [] (escapeXml (fileUrl path)) (timestamp secs) mime app) (some old) hfails
    rw [hrun, he]
    exact ⟨rfl, rfl⟩
  · intro hworks
    rw [hrun, writeNew_ok _ _ _ _ _ (not_not.1 hworks)]
    exact ⟨rfl, rfl⟩

/-! ## Defaults -/

/-- The answers that the line of a type is read as: one, where the type has no newline. -/
def answersOf (mime id : Bytes) : Set (Bytes × Bytes × List Bytes) :=
  {e | e.2 ∈ mimeLines e.1 (e.1 = defaultSection) (lines (defaultLine mime id ++ [newline]))}

/-- A list that is made for one answer has that answer. -/
theorem mimeEntries_upsert_nil (mime id : Bytes) :
    mimeEntries (upsertDefault [] mime id) = answersOf mime id := by
  have hupsert : upsertDefault [] mime id =
      defaultHeader ++ newline :: (defaultLine mime id ++ [newline]) := by
    rw [upsertDefault, show upsertLines (lines []) mime id = [defaultHeader, defaultLine mime id]
      from rfl, List.intercalate_cons_cons, List.intercalate_singleton]
    simp
  have hsection : ∀ section_ : Bytes,
      (defaultHeader = text "[" ++ section_ ++ text "]") ↔ section_ = defaultSection := by
    intro section_
    have hheader : defaultHeader = text "[" ++ defaultSection ++ text "]" := rfl
    rw [hheader, List.append_left_inj, List.append_right_inj]
    exact eq_comm
  have htrim : trimBytes defaultHeader = defaultHeader := by decide
  have hhead : (defaultHeader.splitOn newline).map chomp = [defaultHeader] := by decide
  ext e
  rw [mimeEntries, Set.mem_ofPred_eq, answersOf, Set.mem_ofPred_eq, hupsert, parseMimeSection,
    lines_append_newline, hhead, List.singleton_append, mimeLines, htrim]
  simp only [hsection]
  rfl

/-- **Choosing an application in a list that cannot be read.** -/
theorem setDefault_spares_iff {Entry : Type} (hread : readToString unreadable (some old) = none)
    (r : Registry Entry) (mime id : Bytes) :
    Spares Associations.list
        (KeepsOthers mimeEntries {e | e.1 = defaultSection ∧ e.2.1 = mime} old)
        (setDefault (some p) unreadable c mime id) ⟨r, some old⟩ ↔
      (id ∉ r.entries ∨ c.createDir ≠ none ∨ ¬c.Flushes) ∨ ∀ e ∈ mimeEntries old,
        (e.1 = defaultSection ∧ e.2.1 = mime) ∨ e ∈ answersOf mime id := by
  have hget : Act.get (⟨r, some old⟩ : Associations Entry) =
      ((.ok ⟨r, some old⟩, ⟨r, some old⟩) : Except Error _ × _) := rfl
  have hwrite : id ∈ r.entries → c.createDir = none →
      setDefault (some p) unreadable c mime id ⟨r, some old⟩ =
        (writeAtomically c p (fun bs s => { s with list := some bs }) (upsertDefault [] mime id) >>=
          fun _ => (Act.modify fun s => { s with registry := s.registry.choose mime id }) >>=
            fun _ => pure p.path) (⟨r, some old⟩ : Associations Entry) := by
    intro hid hdir
    unfold setDefault
    rw [Act.bind_of_ok hget]
    simp only [hread, hdir, hid, not_true_eq_false, if_false]
    rfl
  rw [spares_iff_of (id ∉ r.entries ∨ c.createDir ≠ none ∨ ¬c.Flushes)
    (upsertDefault [] mime id), keepsOthers_iff, mimeEntries_upsert_nil]
  · rfl
  · intro hrefused
    by_cases hid : id ∉ r.entries
    · unfold setDefault
      rw [Act.bind_of_ok hget]
      simp only [if_pos hid]
      exact ⟨rfl, rfl⟩
    · cases hdir : c.createDir with
      | some e =>
        unfold setDefault
        rw [Act.bind_of_ok hget]
        simp only [if_neg hid, hdir]
        exact ⟨rfl, rfl⟩
      | none =>
        have hflushes : ¬c.Flushes :=
          (hrefused.resolve_left hid).resolve_left fun hne => hne hdir
        obtain ⟨e, he⟩ := writeAtomically_error c p
          (fun bs (s : Associations Entry) => { s with list := some bs })
          (upsertDefault [] mime id) ⟨r, some old⟩ hflushes
        rw [hwrite (not_not.1 hid) hdir, Act.bind_of_error he]
        exact ⟨rfl, rfl⟩
  · intro hfine
    obtain ⟨hid, hsave⟩ := not_or.1 hfine
    obtain ⟨hdir, hflushes⟩ := not_or.1 hsave
    rw [hwrite (not_not.1 hid) (not_not.1 hdir),
      Act.bind_of_ok (writeAtomically_ok _ _ _ _ _ (not_not.1 hflushes))]
    exact ⟨rfl, rfl⟩

end

/-! ## The tag index -/

/-- The attribute cannot be written, and not because the file system has none. -/
def Denied (a : Answers) (path : Bytes) (tags : List Text) (f : Files) : Prop :=
  ∃ e, (Xattr.setTags a.refuse path tags f).1 = .error e ∧ ∀ what, e ≠ .unsupported what

/-- **Tagging a file with an index that cannot be read.** -/
theorem set_spares_iff {J : JsonLib} {p : Place} {a : Answers} {old : Bytes}
    (hread : readToString a.unreadable (some old) = none) (path : Bytes) (tags : List Text)
    (f : Files) :
    Spares Disk.index (KeepsOthers (tagEntries J) {e | e.2 = Text.lossy path} old)
        (set J (some p) a path tags) ⟨f, some old⟩ ↔
      (Denied a path (clean tags) f ∨ ¬a.save.Works) ∨
        ∀ e ∈ tagEntries J old, e.2 = Text.lossy path := by
  obtain ⟨hindex, hdenied⟩ := setAttribute_spec a path (clean tags) ⟨f, some old⟩
  have hempty : readIndex J (some p) a ⟨f, some old⟩ = ∅ := by
    rw [readIndex, hread]
    rfl
  rw [spares_iff_of (Denied a path (clean tags) f ∨ ¬a.save.Works)
    (J.render (Index.retag ∅ (Text.lossy path) (clean tags))).val, keepsOthers_iff]
  · apply or_congr_right
    apply forall₂_congr
    intro e _
    apply or_iff_left_of_imp
    intro he
    have hlisted : e.2 ∈ (Index.retag ∅ (Text.lossy path) (clean tags)).listed e.1 := by
      have := he
      rwa [tagEntries, Set.mem_ofPred_eq, Text.lossy_val, J.parse_render, Option.getD_some] at this
    rw [Index.mem_listed_retag] at hlisted
    by_contra hne
    rw [Set.mem_ofPred_eq] at hne
    rw [if_neg hne, Index.listed_eq] at hlisted
    simp at hlisted
  · intro hrefused
    rcases hset : setAttribute a path (clean tags) ⟨f, some old⟩ with ⟨e | b, D⟩
    · rw [hset] at hindex
      rw [set, Act.bind_of_error hset]
      exact ⟨rfl, hindex⟩
    · rw [hset] at hindex hdenied
      have hworks : ¬a.save.Works := hrefused.resolve_left fun h => Bool.noConfusion (hdenied.2 h)
      obtain ⟨e, he⟩ := writeNew_error a.save p (fun bs d => { d with index := some bs })
        (J.render (Index.retag ∅ (Text.lossy path) (clean tags))).val D hworks
      rw [← writeIndex_some] at he
      rw [set_of_taken hset, hempty, Act.bind_of_error he]
      exact ⟨rfl, hindex⟩
  · intro hfine
    obtain ⟨htaken, hworks⟩ := not_or.1 hfine
    rcases hset : setAttribute a path (clean tags) ⟨f, some old⟩ with ⟨e | b, D⟩
    · rw [hset] at hdenied
      exact absurd (hdenied.1 rfl) htaken
    · have hwrite := writeNew_ok a.save p (fun bs (d : Disk) => { d with index := some bs })
        (J.render (Index.retag ∅ (Text.lossy path) (clean tags))).val D (not_not.1 hworks)
      rw [← writeIndex_some] at hwrite
      rw [set_of_taken hset, hempty, Act.bind_of_ok hwrite]
      exact ⟨rfl, rfl⟩

/-! ## All four -/

/-- **A store that cannot be read is spared** by each of the four writers where the call is refused
for another reason, or where the store has nothing to lose: no entry but the call's own, and for a
label or a type with newlines in it, no entry but those its further lines read as. -/
theorem spares_iff (J : JsonLib) (Entry : Type) (p : Place) (old : Bytes) :
    (∀ unreadable c isDir path label, readToString unreadable (some old) = none →
      (Spares id (KeepsOthers bookmarkEntries {l | uriOf l = fileUrl path} old)
          (addBookmark (some p) unreadable c isDir path label) (some old) ↔
        (isDir = false ∨ ¬c.Works) ∨
          ∀ l ∈ bookmarkEntries old, uriOf l = fileUrl path ∨ l ∈ labelLines label)) ∧
    (∀ unreadable c secs path mime app, readToString unreadable (some old) = none →
      (Spares id
          (KeepsOthers recentEntries
            {b | attributeOf b (text "href") = some (escapeXml (fileUrl path))} old)
          (addRecent (some p) unreadable c secs path mime app) (some old) ↔
        ¬c.Works ∨ ∀ b ∈ recentEntries old,
          attributeOf b (text "href") = some (escapeXml (fileUrl path)))) ∧
    (∀ unreadable c (r : Registry Entry) mime id, readToString unreadable (some old) = none →
      (Spares Associations.list
          (KeepsOthers mimeEntries {e | e.1 = defaultSection ∧ e.2.1 = mime} old)
          (setDefault (some p) unreadable c mime id) ⟨r, some old⟩ ↔
        (id ∉ r.entries ∨ c.createDir ≠ none ∨ ¬c.Flushes) ∨ ∀ e ∈ mimeEntries old,
          (e.1 = defaultSection ∧ e.2.1 = mime) ∨ e ∈ answersOf mime id)) ∧
    ∀ a path tags f, readToString a.unreadable (some old) = none →
      (Spares Disk.index (KeepsOthers (tagEntries J) {e | e.2 = Text.lossy path} old)
          (set J (some p) a path tags) ⟨f, some old⟩ ↔
        (Denied a path (clean tags) f ∨ ¬a.save.Works) ∨
          ∀ e ∈ tagEntries J old, e.2 = Text.lossy path) := by
  refine ⟨?_, ?_, ?_, ?_⟩
  · intro unreadable c isDir path label hread
    exact addBookmark_spares_iff hread isDir path label
  · intro unreadable c secs path mime app hread
    exact addRecent_spares_iff hread secs path mime app
  · intro unreadable c r mime id hread
    exact setDefault_spares_iff hread r mime id
  · intro a path tags f hread
    exact set_spares_iff hread path tags f

/-- A folder pinned. -/
def pictures : Bytes := text "file:///home/cam/Pictures\n"

/-- Where a store is. -/
def somewhere : Place := ⟨[], [], []⟩

/-- One line that is a folder has that folder to lose, and nothing else. -/
theorem spares_pictures :
    Spares id (KeepsOthers bookmarkEntries {l | uriOf l = fileUrl (text "/home/cam/Pictures")} pictures)
        (addBookmark (some somewhere) true {} true (text "/home/cam/Pictures") none)
        (some pictures) ∧
      Spares id
        (KeepsOthers recentEntries
          {b | attributeOf b (text "href") = some (escapeXml (fileUrl (text "/a")))} pictures)
        (addRecent (some somewhere) true {} 0 (text "/a") (text "image/png") (text "files"))
        (some pictures) ∧
      Spares Associations.list
        (KeepsOthers mimeEntries {e | e.1 = defaultSection ∧ e.2.1 = text "image/png"} pictures)
        (setDefault (some somewhere) true {} (text "image/png") (text "gimp.desktop"))
        ⟨(⟨∅, ∅, ∅⟩ : Registry Unit), some pictures⟩ ∧
      Spares Disk.index (KeepsOthers (tagEntries .standard) {e | e.2 = Text.lossy (text "/a")} pictures)
        (set .standard (some somewhere) { unreadable := true } (text "/a") [])
        ⟨⟨fun _ => some 0, fun _ => .ok none⟩, some pictures⟩ := by
  obtain ⟨hbookmark, hrecent, hdefault, hset⟩ :=
    spares_iff .standard Unit somewhere pictures
  refine ⟨(hbookmark true {} true _ none rfl).2 (Or.inr ?_),
    (hrecent true {} 0 _ _ _ rfl).2 (Or.inr ?_),
    (hdefault true {} _ _ _ rfl).2 (Or.inl (Or.inl ?_)),
    (hset { unreadable := true } _ _ _ rfl).2 (Or.inr ?_)⟩
  · intro l hl
    have hlines : ∀ l ∈ lines pictures, uriOf l = fileUrl (text "/home/cam/Pictures") := by
      decide
    exact Or.inl (hlines l hl.1)
  · intro b hb
    have hnone : splitBookmarks pictures = [] := by decide
    rw [recentEntries, Set.mem_ofPred_eq, hnone] at hb
    cases hb
  · simp
  · intro e he
    have hnone : JsonLib.standard.parse (Text.lossy pictures) = none := by decide
    rw [tagEntries, Set.mem_ofPred_eq, hnone, Option.getD_none, Index.listed_eq] at he
    simp at he

/-- **A bookmarks file with a byte that is no text** is written over with the one new line. -/
theorem not_spares_bookmarks :
    ¬Spares id
      (KeepsOthers bookmarkEntries {l | uriOf l = fileUrl (text "/home/cam/Music")}
        (pictures ++ [255, 10]))
      (addBookmark (some somewhere) false {} true (text "/home/cam/Music") none)
      (some (pictures ++ [255, 10])) := by
  rw [addBookmark_spares_iff (readToString_invalid (by decide) false)]
  intro h
  have hline : text "file:///home/cam/Pictures" ∈ bookmarkEntries (pictures ++ [255, 10]) :=
    ⟨by decide, by decide⟩
  rcases h with (hdir | hworks) | hlost
  · cases hdir
  · exact hworks ⟨rfl, rfl, rfl⟩
  · have hgone := hlost _ hline
    revert hgone
    decide

end Aurade.Stores
