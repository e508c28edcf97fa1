import Aurade.Stores.Apps

/-!
# Bookmarks and recent files

The two lists of the sidebar that are written: the bookmarks of GTK, a line for each folder, and
`recently-used.xbel`, of which the blocks `<bookmark ...>...</bookmark>` are kept as they are.
-/

namespace Aurade.Stores

open Fs

variable (place : Option Place) (unreadable : Bool) (c : SaveCalls)

/-! ## Bookmarks -/

/-- What a line of the bookmarks names: all of it up to a space. -/
def uriOf (line : Bytes) : Bytes := line.takeWhile (· ≠ 32)

/-- The bookmarks with one more folder, or `none` where it is there already. -/
def pinned (list uri : Bytes) (label : Option Bytes) : Option Bytes :=
  if (lines list).any fun l => uriOf l = uri then none
  else
    let list := if list ≠ [] ∧ list.getLast? ≠ some newline then list ++ [newline] else list
    let label := (label.filter fun l => trimBytes l ≠ []).elim [] fun l => 32 :: trimBytes l
    some (list ++ uri ++ label ++ [newline])

/-- `add_bookmark`. `isDir` is the kernel's answer about the path. -/
def addBookmark (isDir : Bool) (path : Bytes) (label : Option Bytes) :
    Act (Option Bytes) Error Unit := do
  if !isDir then
    Act.fail (.badRequest [.name path, .str " is not a folder"])
  else
    match place with
    | none => Act.fail (.notFound [.str "no config directory"])
    | some p => do
      let file ← Act.get
      let list := ((readToString unreadable file).map Subtype.val).getD []
      match pinned list (fileUrl path) label with
      | none => pure ()
      | some updated => writeNew c p (fun bs _ => some bs) updated

/-! ## Recent files -/

/-- One entry and what follows it: from `<bookmark` to the end of its close tag, or of the tag
itself where it closes itself. -/
def nextBookmark (rest : Bytes) : Option (Bytes × Bytes) :=
  (findSub (text "<bookmark") rest).bind fun start =>
    let after := rest.drop start
    let close := (findSub (text "</bookmark>") after).map (· + 11)
    let short := (findSub (text "/>") after).map (· + 2)
    (close.or short).map fun end_ =>
      -- a self closing tag before the next close tag belongs to this entry
      let inner := (findSub (text "/>") (after.take end_)).filter fun i => 62 ∉ after.take i
      let end_ := (inner.map (· + 2)).getD end_
      (after.take end_, after.drop end_)

/-- The loop of `split_bookmarks`, at most `n` times round. -/
def splitFrom : ℕ → Bytes → List Bytes
  | 0, _ => []
  | n + 1, rest => (nextBookmark rest).elim [] fun p => p.1 :: splitFrom n p.2

/-- `split_bookmarks`: each entry takes a byte at least. -/
def splitBookmarks (list : Bytes) : List Bytes := splitFrom list.length list

/-- `attribute`: what stands between the quotes behind a name. -/
def attributeOf (tag name : Bytes) : Option Bytes :=
  (findSub (name ++ text "=\"") tag).bind fun at_ =>
    let value := tag.drop (at_ + name.length + 2)
    if 34 ∈ value then some (value.takeWhile (· ≠ 34)) else none

/-- `replace` of a character. -/
def replaceByte (b : UInt8) (by_ : Bytes) (bs : Bytes) : Bytes :=
  bs.flatMap fun x => if x = b then by_ else [x]

/-- `escape_xml`. -/
def escapeXml (value : Bytes) : Bytes :=
  replaceByte 34 (text "&quot;") (replaceByte 62 (text "&gt;")
    (replaceByte 60 (text "&lt;") (replaceByte 38 (text "&amp;") value)))

/-- `civil_from_days`: year, month and day. -/
def civilFromDays (days : ℤ) : ℤ × ℕ × ℕ :=
  let z := days + 719468
  let era := (if 0 ≤ z then z else z - 146096).tdiv 146097
  let doe := z - era * 146097
  let yoe := (doe - doe.tdiv 1460 + doe.tdiv 36524 - doe.tdiv 146096).tdiv 365
  let y := yoe + era * 400
  let doy := doe - (365 * yoe + yoe.tdiv 4 - yoe.tdiv 100)
  let mp := (5 * doy + 2).tdiv 153
  let d := (doy - (153 * mp + 2).tdiv 5 + 1).toNat
  let m := (if mp < 10 then mp + 3 else mp - 9).toNat
  (if m ≤ 2 then y + 1 else y, m, d)

/-- A number with its sign, zeros in front up to `width` characters. -/
def signed (width : ℕ) (n : ℤ) : Bytes :=
  if n < 0 then 45 :: padded (width - 1) n.natAbs else padded width n.natAbs

/-- `timestamp`, of the seconds since 1970. -/
def timestamp (secs : ℤ) : Bytes :=
  let days := secs / 86400
  let rest := (secs % 86400).toNat
  let date := civilFromDays days
  signed 4 date.1 ++ 45 :: padded 2 date.2.1 ++ 45 :: padded 2 date.2.2 ++ 84 ::
    padded 2 (rest / 3600) ++ 58 :: padded 2 (rest % 3600 / 60) ++ 58 :: padded 2 (rest % 60) ++ [90]

/-- What GTK keeps. -/
def maxRecent : ℕ := 200

/-- The tag of an entry without the bracket that closes it. -/
def recentTag (uri now : Bytes) : Bytes :=
  List.flatten
    [text "<bookmark href=\"", uri, text "\" added=\"", now, text "\" modified=\"", now,
      text "\" visited=\"", now, text "\""]

/-- What stands in an entry. -/
def recentInfo (now mime app : Bytes) : Bytes :=
  List.flatten
    [text ">\n    <info>\n      <metadata owner=\"http://freedesktop.org\">\n",
      text "        <mime:mime-type type=\"", mime, text "\"/>\n",
      text "        <bookmark:applications>\n",
      text "          <bookmark:application name=\"", app, text "\" exec=\"&apos;", app,
      text " %u&apos;\" modified=\"", now, text "\" count=\"1\"/>\n",
      text "        </bookmark:applications>\n      </metadata>\n    </info>\n  "]

/-- The end of an entry. -/
def recentClose : Bytes := text "</bookmark>"

/-- The entry of a file. -/
def recentEntry (uri now mime app : Bytes) : Bytes :=
  recentTag uri now ++ recentInfo now mime app ++ recentClose

/-- What stands before the entries. -/
def xbelHead : Bytes :=
  List.flatten
    [text "<?xml version=\"1.0\" encoding=\"UTF-8\"?>\n", text "<xbel version=\"1.0\"\n",
      text "      xmlns:bookmark=\"http://www.freedesktop.org/standards/desktop-bookmarks\"\n",
      text "      xmlns:mime=\"http://www.freedesktop.org/standards/shared-mime-info\">\n  "]

/-- What stands behind them. -/
def xbelTail : Bytes := text "\n</xbel>\n"

/-- The recent list with one file noted as the newest. -/
def noted (list uri now mime app : Bytes) : Bytes :=
  let kept := (splitBookmarks list).filter fun b => attributeOf b (text "href") ≠ some uri
  let kept := kept.drop (kept.length + 1 - maxRecent)
  let entry := recentEntry uri now (escapeXml mime) (escapeXml app)
  xbelHead ++ (text "\n  ").intercalate (kept ++ [entry]) ++ xbelTail

/-- `add_recent`, at a time in seconds since 1970. -/
def addRecent (secs : ℤ) (path mime app : Bytes) : Act (Option Bytes) Error Unit := do
  match place with
  | none => Act.fail (.notFound [.str "no data directory"])
  | some p => do
    let file ← Act.get
    let list := ((readToString unreadable file).map Subtype.val).getD []
    writeNew c p (fun bs _ => some bs)
      (noted list (escapeXml (fileUrl path)) (timestamp secs) mime app)

/-! ## What is read from a list of one file -/

section

variable {b : UInt8} {by_ bs uri now mime app : Bytes}

theorem mem_replaceByte {x : UInt8} (h : x ∈ replaceByte b by_ bs) : x ∈ by_ ∨ x ∈ bs ∧ x ≠ b := by
  obtain ⟨y, hy, hx⟩ := List.mem_flatMap.1 h
  split at hx
  · exact Or.inl hx
  · next hne =>
    obtain rfl := List.mem_singleton.1 hx
    exact Or.inr ⟨hy, hne⟩

/-- No bracket or quote is left. -/
theorem notMem_escapeXml (hb : b = 60 ∨ b = 62 ∨ b = 34) (value : Bytes) : b ∉ escapeXml value := by
  have htexts : b ∉ text "&quot;" ∧ b ∉ text "&gt;" ∧ b ∉ text "&lt;" := by
    rcases hb with rfl | rfl | rfl <;> decide
  intro hmem
  rcases mem_replaceByte hmem with hmem | ⟨hmem, hquote⟩
  · exact htexts.1 hmem
  · rcases mem_replaceByte hmem with hmem | ⟨hmem, hgt⟩
    · exact htexts.2.1 hmem
    · rcases mem_replaceByte hmem with hmem | ⟨hmem, hlt⟩
      · exact htexts.2.2 hmem
      · rcases hb with rfl | rfl | rfl
        · exact hlt rfl
        · exact hgt rfl
        · exact hquote rfl

/-- A time has digits and the marks between them. -/
theorem notMem_timestamp (hb : b = 60 ∨ b = 62 ∨ b = 34) (secs : ℤ) : b ∉ timestamp secs := by
  have hdigit : isDigit b = false := by rcases hb with rfl | rfl | rfl <;> decide
  have hpadded : ∀ w n, b ∉ padded w n := by
    intro w n hmem
    have := List.all_eq_true.1 (all_isDigit_padded w n) b hmem
    rw [hdigit] at this
    cases this
  have hsigned : ∀ w n, b ∉ signed w n := by
    intro w n
    unfold signed
    split
    · intro hmem
      rcases List.mem_cons.1 hmem with rfl | hmem
      · revert hb
        decide
      · exact hpadded _ _ hmem
    · exact hpadded _ _
  have hmarks : b ≠ 45 ∧ b ≠ 84 ∧ b ≠ 58 ∧ b ≠ 90 := by
    rcases hb with rfl | rfl | rfl <;> decide
  obtain ⟨hminus, ht, hcolon, hz⟩ := hmarks
  simp [timestamp, hsigned, hpadded, hminus, ht, hcolon, hz]

theorem misses_flatten {needle : Bytes} {pieces : List Bytes} (h : ∀ p ∈ pieces, Misses needle p) :
    Misses needle pieces.flatten := by
  induction pieces with
  | nil => trivial
  | cons p pieces ih =>
    obtain ⟨hp, hpieces⟩ := List.forall_mem_cons.1 h
    exact misses_append hp (ih hpieces)

/-- The self closing mark does not begin in a text without a bracket that ends in a quote. -/
theorem misses_short {a : Bytes} (h : 62 ∉ a) : Misses (text "/>") (a ++ [34]) := by
  have htext : text "/>" = [47, 62] := rfl
  rw [htext]
  induction a with
  | nil => decide
  | cons x a ih =>
    have ha : 62 ∉ a := fun hmem => h (List.mem_cons_of_mem x hmem)
    refine ⟨⟨fun hn => ?_, fun hn => ?_⟩, ih ha⟩
    · obtain ⟨-, hn⟩ := List.cons_prefix_cons.1 hn
      cases a with
      | nil => revert hn; decide
      | cons y a => exact ha (by rw [(List.cons_prefix_cons.1 hn).1]; exact List.mem_cons_self)
    · obtain ⟨-, hn⟩ := List.cons_prefix_cons.1 hn
      cases a with
      | nil => revert hn; decide
      | cons y a =>
        obtain ⟨-, hn⟩ := List.cons_prefix_cons.1 hn
        simp at hn

/-- What an entry is made from has no bracket and no quote. -/
structure Quotable (uri now mime app : Bytes) : Prop where
  uri_plain : ∀ b, b = 60 ∨ b = 62 ∨ b = 34 → b ∉ uri
  now_plain : ∀ b, b = 60 ∨ b = 62 ∨ b = 34 → b ∉ now
  mime_plain : ∀ b, b = 60 ∨ b = 62 ∨ b = 34 → b ∉ mime
  app_plain : ∀ b, b = 60 ∨ b = 62 ∨ b = 34 → b ∉ app

theorem quotable (path mime app : Bytes) (secs : ℤ) :
    Quotable (escapeXml path) (timestamp secs) (escapeXml mime) (escapeXml app) where
  uri_plain _ hb := notMem_escapeXml hb path
  now_plain _ hb := notMem_timestamp hb secs
  mime_plain _ hb := notMem_escapeXml hb mime
  app_plain _ hb := notMem_escapeXml hb app

/-- The end of an entry is not in it before. -/
theorem Quotable.misses_close (h : Quotable uri now mime app) :
    Misses recentClose (recentTag uri now ++ recentInfo now mime app) := by
  have hplain : ∀ {a : Bytes}, 60 ∉ a → Misses recentClose a := fun ha => misses_of_notMem ha
  have huri := hplain (h.uri_plain 60 (Or.inl rfl))
  have hnow := hplain (h.now_plain 60 (Or.inl rfl))
  have hmime := hplain (h.mime_plain 60 (Or.inl rfl))
  have happ := hplain (h.app_plain 60 (Or.inl rfl))
  apply misses_append
  · apply misses_flatten
    simp only [List.forall_mem_cons, huri, hnow]
    decide
  · apply misses_flatten
    simp only [List.forall_mem_cons, hnow, hmime, happ]
    decide

/-- The tag of an entry up to its last quote has no bracket but the first. -/
theorem Quotable.misses_tag (h : Quotable uri now mime app) :
    Misses (text "/>") (recentTag uri now) := by
  have htag : recentTag uri now = List.flatten
      [text "<bookmark href=\"", uri, text "\" added=\"", now, text "\" modified=\"", now,
        text "\" visited=\"", now] ++ [34] := by
    simp only [recentTag, List.flatten_cons, List.append_assoc]
    rfl
  rw [htag]
  apply misses_short
  have huri := h.uri_plain 62 (Or.inr (Or.inl rfl))
  have hnow := h.now_plain 62 (Or.inr (Or.inl rfl))
  rw [List.mem_flatten]
  intro hmem
  obtain ⟨p, hp, hmem⟩ := hmem
  revert hmem
  revert p
  simp only [List.forall_mem_cons, huri, hnow]
  decide

/-- An entry closes with its own tag. -/
theorem Quotable.not_short (h : Quotable uri now mime app) (tail : Bytes) :
    (findSub (text "/>") (recentEntry uri now mime app)).filter
      (fun i => 62 ∉ (recentEntry uri now mime app ++ tail).take i) = none := by
  obtain ⟨rest, hrest⟩ : ∃ rest, recentInfo now mime app ++ recentClose = 62 :: rest := ⟨_, rfl⟩
  have hentry : recentEntry uri now mime app = recentTag uri now ++ 62 :: rest := by
    rw [recentEntry, List.append_assoc, hrest]
  have hskip : findSub (text "/>") (62 :: rest) = (findSub (text "/>") rest).map (· + 1) := by
    rw [findSub, if_neg]
    intro hn
    exact absurd (List.cons_prefix_cons.1 hn).1 (by decide)
  rw [hentry, findSub_of_misses h.misses_tag, hskip, Option.filter_eq_none_iff, List.append_assoc]
  intro i hi
  obtain ⟨j, hj, rfl⟩ := Option.map_eq_some_iff.1 hi
  obtain ⟨k, -, rfl⟩ := Option.map_eq_some_iff.1 hj
  rw [decide_eq_true_eq, not_not, List.take_append, List.mem_append]
  right
  have hlen : k + 1 + (recentTag uri now).length - (recentTag uri now).length = k + 1 := by omega
  rw [hlen, List.cons_append, List.take_succ_cons]
  exact List.mem_cons_self

/-- **An entry is read whole**, wherever it stands. -/
theorem Quotable.nextBookmark_eq (h : Quotable uri now mime app) {head : Bytes}
    (hhead : Misses (text "<bookmark") head) (tail : Bytes) :
    nextBookmark (head ++ (recentEntry uri now mime app ++ tail)) =
      some (recentEntry uri now mime app, tail) := by
  obtain ⟨rest, hrest⟩ : ∃ rest, recentEntry uri now mime app = text "<bookmark" ++ rest := ⟨_, rfl⟩
  have hstart : findSub (text "<bookmark") (recentEntry uri now mime app ++ tail) = some 0 := by
    rw [hrest, List.append_assoc, findSub_append]
  have hclose : findSub (text "</bookmark>") (recentEntry uri now mime app ++ tail) =
      some (recentTag uri now ++ recentInfo now mime app).length := by
    show findSub recentClose _ = _
    rw [recentEntry, List.append_assoc, findSub_of_misses h.misses_close, findSub_append,
      Option.map_some, Nat.zero_add]
  have hlength : (recentTag uri now ++ recentInfo now mime app).length + 11 =
      (recentEntry uri now mime app).length := by
    have heleven : recentClose.length = 11 := by decide
    simp only [recentEntry, List.length_append, heleven]
  rw [nextBookmark, findSub_of_misses hhead, hstart, Option.map_some, Option.bind_some]
  simp only [Nat.zero_add, List.drop_left, hclose, Option.map_some, Option.some_or, hlength,
    List.take_left, h.not_short tail, Option.map_none, Option.getD_none]

/-- **A list of one file** is read as that one entry. -/
theorem Quotable.splitBookmarks_eq (h : Quotable uri now mime app) :
    splitBookmarks (xbelHead ++ recentEntry uri now mime app ++ xbelTail) =
      [recentEntry uri now mime app] := by
  have hhead : Misses (text "<bookmark") xbelHead := by
    apply misses_flatten
    decide
  have htail : ∀ n, splitFrom n xbelTail = [] := by
    intro n
    cases n with
    | zero => rfl
    | succ n =>
      have hnone : nextBookmark xbelTail = none := by decide
      rw [splitFrom, hnone]
      rfl
  have hlength : ∃ n, (xbelHead ++ recentEntry uri now mime app ++ xbelTail).length = n + 1 := by
    refine ⟨xbelHead.length - 1 + (recentEntry uri now mime app ++ xbelTail).length, ?_⟩
    have hpos : 0 < xbelHead.length := by decide +kernel
    simp only [List.length_append]
    omega
  obtain ⟨n, hn⟩ := hlength
  rw [splitBookmarks, hn, List.append_assoc, splitFrom, h.nextBookmark_eq hhead, Option.elim_some,
    htail]

/-- The file an entry is about. -/
theorem Quotable.attributeOf_eq (h : Quotable uri now mime app) :
    attributeOf (recentEntry uri now mime app) (text "href") = some uri := by
  obtain ⟨rest, hrest⟩ : ∃ rest, recentEntry uri now mime app =
      text "<bookmark " ++ (text "href=\"" ++ (uri ++ 34 :: rest)) := by
    refine ⟨List.flatten [text " added=\"", now, text "\" modified=\"", now,
      text "\" visited=\"", now, text "\""] ++ (recentInfo now mime app ++ recentClose), ?_⟩
    simp only [recentEntry, recentTag, List.flatten_cons, List.append_assoc]
    rfl
  have hfind : findSub (text "href" ++ text "=\"")
      (text "<bookmark " ++ (text "href=\"" ++ (uri ++ 34 :: rest))) = some 10 := by
    show findSub (text "href=\"") _ = _
    rw [findSub_of_misses (by decide), findSub_append]
    rfl
  have hvalue : (text "<bookmark " ++ (text "href=\"" ++ (uri ++ 34 :: rest))).drop
      (10 + (text "href").length + 2) = uri ++ 34 :: rest := by
    rw [← List.append_assoc]
    exact List.drop_left' rfl
  have hquote := h.uri_plain 34 (Or.inr (Or.inr rfl))
  have hplain : ∀ b ∈ uri, decide (b ≠ 34) = true := by
    intro b hb
    exact decide_eq_true fun he => hquote (he ▸ hb)
  rw [hrest, attributeOf, hfind, Option.bind_some, hvalue]
  simp only [List.mem_append, List.mem_cons, true_or, or_true, if_true]
  rw [List.takeWhile_append_of_pos hplain, List.takeWhile_cons_of_neg (by simp), List.append_nil]

end

end Aurade.Stores
