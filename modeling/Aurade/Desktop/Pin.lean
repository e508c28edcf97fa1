import Aurade.Desktop.Exec

/-!
# Pinned folders

`parseGroups` and `DesktopEntry.parse` read a desktop file; `pinEntry` is the one that pins a folder.
The folder's path is written four times over: as a quoted argument (`execArgument`), in which the
file's own escapes are then read (`unescape`) before the quotes are (`splitExec`) and the field codes
after (`expand`). The quotes put a backslash before a backslash, which the file's escapes take off
again, so a path may not have one where the quotes would need it (`Straight`).
-/

namespace Aurade.Desktop

open Fs Stores

/-! ## Desktop files -/

/-- `unescape`. -/
def unescape : Bytes → Bytes
  | [] => []
  | [b] => [b]
  | b :: c :: rest =>
    if b = 92 then
      if c = 115 then 32 :: unescape rest
      else if c = 110 then 10 :: unescape rest
      else if c = 116 then 9 :: unescape rest
      else if c = 114 then 13 :: unescape rest
      else if c = 92 then 92 :: unescape rest
      else 92 :: c :: unescape rest
    else b :: unescape (c :: rest)

/-- What stands between the brackets of a line. -/
def bracketed : Bytes → Option Bytes
  | 91 :: rest => if rest.getLast? = some 93 then some rest.dropLast else none
  | _ => none

/-- The groups of a desktop file. -/
abbrev Groups := Std.ExtTreeMap Bytes (Std.ExtTreeMap Bytes Bytes)

/-- One turn of the loop of `parse_groups`: the groups, and the name of the group that is open. -/
def groupLine (s : Groups × Bytes) (line : Bytes) : Groups × Bytes :=
  let line := trimBytes line
  if line = [] || line.head? = some 35 then s
  else match bracketed line with
    | some name => (s.1.insert name (s.1[name]?.getD ∅), name)
    | none =>
      match splitOnce equals line with
      | none => s
      | some (key, value) =>
        if 91 ∈ trimBytes key then s
        else (s.1.insert s.2 ((s.1[s.2]?.getD ∅).insert (trimBytes key) (unescape (trimBytes value))),
          s.2)

/-- `parse_groups`. -/
def parseGroups (bs : Bytes) : Groups := ((lines bs).foldl groupLine (∅, [])).1

/-- `DesktopEntry::parse`. -/
def DesktopEntry.parse (path id bs : Bytes) : Option DesktopEntry :=
  match (parseGroups bs)[text "Desktop Entry"]? with
  | none => none
  | some main =>
    if main[text "Type"]?.any (· ≠ text "Application") then none
    else some {
      id, path
      name := main[text "Name"]?.getD id
      icon := main[text "Icon"]?
      exec := main[text "Exec"]? }

/-! ## Pinning -/

/-- `desktop_value`. -/
def desktopValue (value : Bytes) : Bytes :=
  trimBytes (value.map fun b => if b = 10 ∨ b = 13 then 32 else b)

/-- A byte of a path in a quoted argument. -/
def quoteByte (b : UInt8) : Bytes :=
  if isQuotable b then [92, b] else if b = 37 then [37, 37] else [b]

/-- `exec_argument`. -/
def execArgument (path : Bytes) : Bytes := [34] ++ (Utf8.lossy path).flatMap quoteByte ++ [34]

/-- What a pinned folder is called. -/
def pinName (path : Bytes) : Bytes :=
  match ((components path).fileName.map Utf8.lossy).filter (· ≠ []) with
  | some name => name
  | none => Utf8.lossy path

/-- The keys of a pinned folder's entry. -/
def pinKeys (path : Bytes) : List (Bytes × Bytes) :=
  [(text "Type", text "Application"),
    (text "Version", text "1.0"),
    (text "Name", desktopValue (pinName path)),
    (text "Comment", desktopValue (text "Open " ++ Utf8.lossy path)),
    (text "Exec", text "xdg-open " ++ execArgument path),
    (text "Icon", text "folder"),
    (text "Terminal", text "false"),
    (text "Categories", text "Utility;Core;"),
    (text "X-Aurade-Place", desktopValue (Utf8.lossy path))]

/-- A key and its value on a line. -/
def keyLine (key : Bytes × Bytes) : Bytes := key.1 ++ equals :: key.2

/-- The entry of a pinned folder. -/
def pinEntry (path : Bytes) : Bytes :=
  text "[Desktop Entry]" ++ [newline] ++ (pinKeys path).flatMap fun key => keyLine key ++ [newline]

/-- A control character of ASCII. -/
def isControl (b : UInt8) : Bool := b < 32 || b = 127

/-- `pin_into`: the state is the file of the entry. -/
def pinInto (c : SaveCalls) (isDir : Bool) (p : Place) (path : Bytes) :
    Act (Option Bytes) Error PathBuf :=
  if !isDir then
    Act.fail (.badRequest
      [.name path, .str " is not a folder, and only a folder is pinned this way"])
  else if path.any isControl then
    Act.fail (.badRequest [.name path,
      .str " has a control character in its name, which cannot be written into a desktop entry"])
  else do
    Act.lift (answer p.dir c.createDir)
    writeAtomically c p (fun bs _ => some bs) (pinEntry path)
    pure p.path

/-! ## Reading what is written -/

/-- A name that is read back as the key of its line. -/
def IsKey (key : Bytes) : Prop := key ≠ [] ∧ ∀ b ∈ key, Solid b ∧ b ≠ 35 ∧ b ≠ 91 ∧ b ≠ equals

instance : DecidablePred IsKey := fun _ => inferInstanceAs (Decidable (_ ∧ _))

/-- A value as it is read. -/
def readValue (value : Bytes) : Bytes := unescape (trimBytes (trimEnd value))

theorem groupLine_chomp (s : Groups × Bytes) (line : Bytes) :
    groupLine s (chomp line) = groupLine s line := by
  rw [groupLine, groupLine, trimBytes_chomp]

/-- A line with a key sets it in the group that is open. -/
theorem groupLine_key (s : Groups × Bytes) {key : Bytes × Bytes} (hkey : IsKey key.1) :
    groupLine s (keyLine key) =
      (s.1.insert s.2 ((s.1[s.2]?.getD ∅).insert key.1 (readValue key.2)), s.2) := by
  obtain ⟨name, value⟩ := key
  obtain ⟨hne, hbytes⟩ := hkey
  dsimp only at hne hbytes
  have hsolid : Solid equals := by decide
  have htrim : trimBytes (keyLine (name, value)) = name ++ equals :: trimEnd value := by
    obtain ⟨b, rest, rfl⟩ := List.exists_cons_of_ne_nil hne
    rw [keyLine, trimBytes, List.cons_append, trimStart_cons (hbytes b List.mem_cons_self).1,
      ← List.cons_append, trimEnd_append_cons hsolid]
  have hequals : equals ∉ name := fun h => (hbytes equals h).2.2.2 rfl
  have hbracket : 91 ∉ name := fun h => (hbytes 91 h).2.2.1 rfl
  have hhead : (name ++ equals :: trimEnd value).head? ≠ some 35 ∧
      bracketed (name ++ equals :: trimEnd value) = none := by
    obtain ⟨b, rest, rfl⟩ := List.exists_cons_of_ne_nil hne
    obtain ⟨-, hcomment, hopen, -⟩ := hbytes b List.mem_cons_self
    refine ⟨by simpa using hcomment, ?_⟩
    rw [bracketed.eq_2]
    · intro rest' heq
      exact hopen (List.cons.inj heq).1
  have hname : trimBytes name = name := trimBytes_solid fun b hb => (hbytes b hb).1
  have hskip : ¬(decide (name ++ equals :: trimEnd value = []) ||
      decide ((name ++ equals :: trimEnd value).head? = some 35)) = true := by
    rw [Bool.or_eq_true, decide_eq_true_eq, decide_eq_true_eq, not_or]
    exact ⟨by simp, hhead.1⟩
  rw [groupLine, htrim, if_neg hskip, hhead.2]
  dsimp only
  rw [splitOnce_append hequals]
  dsimp only
  rw [hname, if_neg hbracket, readValue]

/-- Lines with keys set them all in one group. -/
theorem foldl_keyLine {keys : List (Bytes × Bytes)} (hkeys : ∀ key ∈ keys, IsKey key.1)
    (s : Groups × Bytes) {main : Std.ExtTreeMap Bytes Bytes} (hs : s.1[s.2]? = some main) :
    ((keys.map keyLine).foldl groupLine s).1[s.2]? =
      some (keys.foldl (fun main key => main.insert key.1 (readValue key.2)) main) := by
  induction keys generalizing s main with
  | nil => exact hs
  | cons key keys ih =>
    obtain ⟨hkey, hrest⟩ := List.forall_mem_cons.1 hkeys
    rw [List.map_cons, List.foldl_cons, List.foldl_cons, groupLine_key s hkey, hs, Option.getD_some]
    exact ih hrest (_, s.2) (by simp)

/-- The last line with a key decides. -/
theorem getElem?_foldl_insert {keys before after : List (Bytes × Bytes)} {name value : Bytes}
    (hkeys : keys = before ++ (name, value) :: after) (hafter : name ∉ after.map Prod.fst)
    (main : Std.ExtTreeMap Bytes Bytes) :
    (keys.foldl (fun main key => main.insert key.1 (readValue key.2)) main)[name]? =
      some (readValue value) := by
  rw [hkeys, List.foldl_append, List.foldl_cons]
  generalize hmain : (before.foldl (fun main key => main.insert key.1 (readValue key.2)) main).insert
    name (readValue value) = set
  have hset : set[name]? = some (readValue value) := by
    rw [← hmain]
    simp
  clear hmain hkeys
  induction after generalizing set with
  | nil => exact hset
  | cons k after ih =>
    obtain ⟨hk, hrest⟩ := not_or.1 (mt List.mem_cons.2 hafter)
    refine ih hrest _ ?_
    rw [Std.ExtTreeMap.getElem?_insert, if_neg (by simpa using Ne.symm hk), hset]

/-- Lines that are ended one by one are read one by one. -/
theorem lines_flatMap {ls : List Bytes} (h : ∀ l ∈ ls, newline ∉ l) :
    lines (ls.flatMap (· ++ [newline])) = ls.map chomp := by
  induction ls with
  | nil => rfl
  | cons l ls ih =>
    obtain ⟨hl, hls⟩ := List.forall_mem_cons.1 h
    rw [List.flatMap_cons, List.append_assoc, List.singleton_append, lines_append_newline,
      List.splitOn_eq_singleton hl, ih hls]
    rfl

/-- The file of a pinned folder, read. -/
theorem parse_pinEntry (entryPath id path : Bytes) (h : ∀ key ∈ pinKeys path, newline ∉ keyLine key) :
    ∃ entry, DesktopEntry.parse entryPath id (pinEntry path) = some entry ∧
      entry.exec = some (readValue (text "xdg-open " ++ execArgument path)) := by
  have hlist : (pinKeys path).map Prod.fst = [text "Type", text "Version", text "Name",
    text "Comment", text "Exec", text "Icon", text "Terminal", text "Categories",
    text "X-Aurade-Place"] := rfl
  have hkeys : ∀ key ∈ pinKeys path, IsKey key.1 := by
    have hnames : ∀ name ∈ (pinKeys path).map Prod.fst, IsKey name := by
      rw [hlist]
      decide +kernel
    exact fun key hkey => hnames _ (List.mem_map_of_mem hkey)
  have hlines : lines (pinEntry path) =
      (text "[Desktop Entry]" :: (pinKeys path).map keyLine).map chomp := by
    have hjoin : pinEntry path =
        (text "[Desktop Entry]" :: (pinKeys path).map keyLine).flatMap (· ++ [newline]) := by
      rw [pinEntry, List.flatMap_cons, List.flatMap_map]
    rw [hjoin, lines_flatMap]
    intro l hl
    rcases List.mem_cons.1 hl with rfl | hl
    · decide
    · obtain ⟨key, hkey, rfl⟩ := List.mem_map.1 hl
      exact h key hkey
  have hheader : groupLine (∅, []) (text "[Desktop Entry]") =
      ((∅ : Groups).insert (text "Desktop Entry") ∅, text "Desktop Entry") := by
    have htrim : trimBytes (text "[Desktop Entry]") = text "[Desktop Entry]" := by decide
    have hname : bracketed (text "[Desktop Entry]") = some (text "Desktop Entry") := by
      decide
    have hskip : ¬(decide (text "[Desktop Entry]" = []) ||
        decide ((text "[Desktop Entry]").head? = some 35)) = true := by decide
    rw [groupLine, htrim, if_neg hskip, hname]
    simp
  have hmain : (parseGroups (pinEntry path))[text "Desktop Entry"]? = some
      ((pinKeys path).foldl (fun main key => main.insert key.1 (readValue key.2)) ∅) := by
    have hchomp : (fun s line => groupLine s (chomp line)) = groupLine := by
      funext s line
      exact groupLine_chomp s line
    rw [parseGroups, hlines, List.foldl_map, hchomp, List.foldl_cons, hheader]
    exact foldl_keyLine hkeys (_, text "Desktop Entry") (by simp)
  have htype := @getElem?_foldl_insert (pinKeys path) [] ((pinKeys path).drop 1) (text "Type")
    (text "Application") rfl (by rw [List.map_drop, hlist]; decide) ∅
  have hexec := @getElem?_foldl_insert (pinKeys path) ((pinKeys path).take 4)
    ((pinKeys path).drop 5) (text "Exec") (text "xdg-open " ++ execArgument path) rfl
    (by rw [List.map_drop, hlist]; decide) ∅
  have happlication : readValue (text "Application") = text "Application" := by decide
  rw [DesktopEntry.parse, hmain]
  refine ⟨_, if_neg ?_, hexec⟩
  rw [htype, happlication]
  simp

/-! ## The path through its escapes -/

/-- No backslash is the last byte or stands before a backslash or a quote, and no percent sign stands
before a code. -/
def Straight : Bytes → Prop
  | [] => True
  | [b] => b ≠ 92
  | b :: c :: rest => (b = 92 → c ≠ 92 ∧ c ≠ 34) ∧ (b = 37 → c ∉ codes) ∧ Straight (c :: rest)

instance decidableStraight : (bs : Bytes) → Decidable (Straight bs)
  | [] => .isTrue trivial
  | [b] => inferInstanceAs (Decidable (b ≠ 92))
  | _ :: c :: rest =>
    have := decidableStraight (c :: rest)
    inferInstanceAs (Decidable (_ ∧ _ ∧ _))

/-- A byte of the argument with the escapes of the file taken off. -/
def storedByte (b : UInt8) : Bytes := if b = 92 then [92] else quoteByte b

/-- A byte of the argument with the quotes taken off too. -/
def doubledByte (b : UInt8) : Bytes := if b = 37 then [37, 37] else [b]

theorem unescape_cons {b : UInt8} (hb : b ≠ 92) (bs : Bytes) :
    unescape (b :: bs) = b :: unescape bs := by
  cases bs with
  | nil => rfl
  | cons c bs => rw [unescape, if_neg hb]

theorem unescape_quoteByte (b : UInt8) (bs : Bytes) :
    unescape (quoteByte b ++ bs) = storedByte b ++ unescape bs := by
  rw [storedByte, quoteByte]
  by_cases hquotable : isQuotable b = true
  · rw [if_pos hquotable]
    have hcases : b = 34 ∨ b = 96 ∨ b = 36 ∨ b = 92 := by
      simpa [isQuotable, or_assoc] using hquotable
    rcases hcases with rfl | rfl | rfl | rfl <;> rfl
  · have hb : b ≠ 92 := by
      rintro rfl
      exact hquotable rfl
    rw [if_neg hquotable, if_neg hb]
    split
    · rw [List.cons_append, List.cons_append, unescape_cons (by decide), unescape_cons (by decide)]
      rfl
    · exact unescape_cons hb bs

theorem unescape_quoted (path rest : Bytes) :
    unescape (path.flatMap quoteByte ++ rest) = path.flatMap storedByte ++ unescape rest := by
  induction path with
  | nil => rfl
  | cons b path ih =>
    rw [List.flatMap_cons, List.append_assoc, unescape_quoteByte, ih, List.flatMap_cons,
      List.append_assoc]

section

variable {token s : Bytes} {b c : UInt8}

theorem splitLoop_plain (hquote : b ≠ 34) (hb : b ≠ 92) :
    splitLoop true true token 0 (b :: s) = splitLoop true true (token ++ [b]) 0 s := by
  rw [splitLoop.eq_def]
  dsimp only
  rw [if_neg hquote, if_neg (by simp [hb]), if_neg (by simp)]

theorem splitLoop_backslash :
    splitLoop true true token 0 (92 :: c :: s) =
      splitLoop true true (token ++ if isQuotable c then [c] else [92, c]) 0 s := by
  rw [splitLoop.eq_def]
  dsimp only
  rw [if_neg (by decide), if_pos (by decide)]

/-- A byte that is no backslash is read as it was. -/
theorem splitLoop_storedByte (hb : b ≠ 92) :
    splitLoop true true token 0 (storedByte b ++ s) =
      splitLoop true true (token ++ doubledByte b) 0 s := by
  rw [storedByte, if_neg hb, quoteByte]
  by_cases hquotable : isQuotable b = true
  · have hpercent : b ≠ 37 := by
      rintro rfl
      exact absurd hquotable (by decide)
    rw [if_pos hquotable, List.cons_append, List.singleton_append, splitLoop_backslash,
      if_pos hquotable, doubledByte, if_neg hpercent]
  · have hquote : b ≠ 34 := by
      rintro rfl
      exact hquotable rfl
    rw [if_neg hquotable, doubledByte]
    split
    · next hpercent =>
      subst hpercent
      rw [List.cons_append, List.singleton_append, splitLoop_plain (by decide) (by decide),
        splitLoop_plain (by decide) (by decide), List.append_assoc]
      rfl
    · exact splitLoop_plain hquote hb

/-- So is a backslash with the byte behind it, where that is no backslash and no quote. -/
theorem splitLoop_backslash_storedByte (hb : b ≠ 92) (hquote : b ≠ 34) :
    splitLoop true true token 0 (92 :: (storedByte b ++ s)) =
      splitLoop true true (token ++ 92 :: doubledByte b) 0 s := by
  rw [storedByte, if_neg hb, quoteByte]
  by_cases hquotable : isQuotable b = true
  · have hpercent : b ≠ 37 := by
      rintro rfl
      exact absurd hquotable (by decide)
    rw [if_pos hquotable, List.cons_append, List.singleton_append, splitLoop_backslash,
      if_pos (by decide), splitLoop_plain hquote hb, doubledByte, if_neg hpercent, List.append_assoc]
    rfl
  · rw [if_neg hquotable, doubledByte]
    split
    · next hpercent =>
      subst hpercent
      rw [List.cons_append, List.singleton_append, splitLoop_backslash, if_neg (by decide),
        splitLoop_plain (by decide) (by decide), List.append_assoc]
      rfl
    · rw [List.singleton_append, splitLoop_backslash, if_neg hquotable]

end

/-- A straight path is read through its quotes. -/
theorem splitLoop_stored : ∀ (path : Bytes), Straight path → ∀ token rest : Bytes,
    splitLoop true true token 0 (path.flatMap storedByte ++ rest) =
      splitLoop true true (token ++ path.flatMap doubledByte) 0 rest
  | [], _, token, rest => by simp
  | [b], h, token, rest => by
    rw [List.flatMap_singleton, List.flatMap_singleton]
    exact splitLoop_storedByte h
  | b :: c :: path, h, token, rest => by
    obtain ⟨hbackslash, -, hrest⟩ := h
    by_cases hb : b = 92
    · subst hb
      obtain ⟨hc, hquote⟩ := hbackslash rfl
      -- the backslash takes the next byte with it
      have hpath : Straight path := by
        cases path with
        | nil => trivial
        | cons d path => exact hrest.2.2
      rw [List.flatMap_cons, List.flatMap_cons, List.append_assoc, List.append_assoc,
        show storedByte 92 = [92] from rfl, List.singleton_append,
        splitLoop_backslash_storedByte hc hquote, splitLoop_stored path hpath, List.flatMap_cons,
        List.flatMap_cons, List.append_assoc]
      rfl
    · rw [List.flatMap_cons, List.append_assoc, splitLoop_storedByte hb,
        splitLoop_stored (c :: path) hrest, List.append_assoc]
      rfl

/-- A word without spaces and quotes is read as it is. -/
theorem splitLoop_word {word : Bytes} (h : ∀ b ∈ word, Solid b ∧ b ≠ 34) (hasToken : Bool)
    (token rest : Bytes) :
    splitLoop false hasToken token 0 (word ++ rest) =
      splitLoop false (hasToken || word ≠ []) (token ++ word) 0 rest := by
  induction word generalizing hasToken token with
  | nil => simp
  | cons b word ih =>
    obtain ⟨⟨hsolid, hquote⟩, hword⟩ := List.forall_mem_cons.1 h
    have hspace : spaceAt (b :: (word ++ rest)) = 0 := by
      have hnone : (spaces.find? fun p => p.isPrefixOf (b :: (word ++ rest))) = none := by
        rw [List.find?_eq_none]
        intro p hp hpre
        obtain ⟨c, p, rfl⟩ := List.exists_cons_of_ne_nil (spaces_ne_nil hp)
        obtain ⟨rfl, -⟩ := List.cons_prefix_cons.1 (List.isPrefixOf_iff_prefix.1 hpre)
        exact hsolid _ hp List.mem_cons_self
      rw [spaceAt, hnone]
      rfl
    rw [List.cons_append, splitLoop.eq_def]
    dsimp only
    rw [if_neg hquote, if_neg (by simp), if_neg (by simp [hspace]), ih hword]
    simp

/-- The two arguments of a pinned folder. -/
theorem splitExec_stored {path : Bytes} (h : Straight path) :
    splitExec (text "xdg-open" ++ 32 :: 34 :: (path.flatMap storedByte ++ [34])) =
      [text "xdg-open", path.flatMap doubledByte] := by
  have hword : ∀ b ∈ text "xdg-open", Solid b ∧ b ≠ 34 := by decide +kernel
  have hblank : ∀ rest : Bytes, spaceAt (32 :: rest) = 1 := fun rest => by
    simp [spaceAt, spaces, List.find?, List.isPrefixOf]
  have hspace : ∀ rest : Bytes, splitLoop false true (text "xdg-open") 0 (32 :: 34 :: rest) =
      text "xdg-open" :: splitLoop true true [] 0 rest := by
    intro rest
    rw [splitLoop.eq_def]
    dsimp only
    rw [if_neg (by decide), if_neg (by decide), hblank, if_pos (by decide), if_pos (by decide),
      splitLoop.eq_def]
    rfl
  have hlast : ∀ token : Bytes, splitLoop true true token 0 [34] = [token] := fun token => rfl
  rw [splitExec, splitLoop_word hword, List.nil_append, Bool.false_or,
    show decide (text "xdg-open" ≠ []) = true by decide, hspace, splitLoop_stored path h,
    List.nil_append, hlast]

/-! ## The codes -/

/-- A code in the doubled path is one in the path. -/
theorem infix_of_infix_doubled {c : UInt8} (hc : c ≠ 37) {path : Bytes}
    (h : [37, c] <:+: path.flatMap doubledByte) : [37, c] <:+: path := by
  induction path with
  | nil => exact h
  | cons b path ih =>
    rw [List.flatMap_cons, doubledByte] at h
    by_cases hb : b = 37
    · subst hb
      rw [if_pos rfl, List.cons_append, List.singleton_append, List.infix_cons_iff,
        List.infix_cons_iff] at h
      rcases h with h | h | h
      · exact absurd (List.cons_prefix_cons.1 (List.cons_prefix_cons.1 h).2).1 hc
      · -- the byte behind the doubled sign is the path's next one
        obtain ⟨-, h⟩ := List.cons_prefix_cons.1 h
        cases path with
        | nil => exact absurd h.length_le (by simp)
        | cons d path =>
          rw [List.flatMap_cons, doubledByte] at h
          by_cases hd : d = 37
          · rw [if_pos hd] at h
            exact absurd (List.cons_prefix_cons.1 h).1 hc
          · rw [if_neg hd] at h
            rw [(List.cons_prefix_cons.1 h).1]
            exact (List.prefix_append [37, d] path).isInfix
      · exact (ih h).trans (List.suffix_cons _ _).isInfix
    · rw [if_neg hb, List.singleton_append, List.infix_cons_iff] at h
      rcases h with h | h
      · exact absurd (List.cons_prefix_cons.1 h).1.symm hb
      · exact (ih h).trans (List.suffix_cons _ _).isInfix

theorem Straight.not_infix {path : Bytes} (h : Straight path) {c : UInt8} (hc : c ∈ codes) :
    ¬[37, c] <:+: path := by
  induction path with
  | nil => exact fun hp => absurd hp.length_le (by simp)
  | cons b path ih =>
    cases path with
    | nil => exact fun hp => absurd hp.length_le (by simp)
    | cons d path =>
      intro hp
      rcases List.infix_cons_iff.1 hp with hp | hp
      · obtain ⟨rfl, hd⟩ := List.cons_prefix_cons.1 hp
        obtain ⟨rfl, -⟩ := List.cons_prefix_cons.1 hd
        exact h.2.1 rfl hc
      · exact ih h.2.2 hp

/-- A doubled path without codes is filled in as itself. -/
theorem fill_doubled {path : Bytes} (h : ∀ c ∈ codes, ¬[37, c] <:+: path) (paths : List Bytes)
    (entry : DesktopEntry) : fill paths entry (path.flatMap doubledByte) = path := by
  have hno : ∀ c ∈ codes, ¬[37, c] <:+: path.flatMap doubledByte := by
    intro c hc hp
    have hne : c ≠ 37 := by
      rintro rfl
      exact absurd hc (by decide)
    exact h c hc (infix_of_infix_doubled hne hp)
  have hdead : ∀ dead : List UInt8, (∀ c ∈ dead, c ∈ codes) →
      dead.foldl (fun value code => replaceAll [37, code] [] value) (path.flatMap doubledByte) =
        path.flatMap doubledByte := by
    intro dead hall
    induction dead with
    | nil => rfl
    | cons c dead ih =>
      obtain ⟨hc, hrest⟩ := List.forall_mem_cons.1 hall
      rw [List.foldl_cons, replaceAll_absent (hno c hc)]
      exact ih hrest
  -- the doubled signs are all the percent signs there are
  have hletters : path.flatMap doubledByte =
      doubled 37 (path.map fun b => if b = 37 then none else some b) := by
    rw [doubled, List.flatMap_map]
    apply List.flatMap_congr
    intro b _
    rw [doubledByte]
    split <;> rfl
  have hnone : (path.map fun b => if b = 37 then none else some b).filterMap id =
      path.filter (· ≠ 37) := by
    rw [List.filterMap_map, ← List.filterMap_eq_filter]
    apply List.filterMap_congr
    intro b _
    by_cases hb : b = 37 <;> simp [hb, Option.guard]
  rw [fill, if_neg (hno 102 (by decide)), if_neg (hno 117 (by decide)),
    replaceAll_absent (hno 99 (by decide)), replaceAll_absent (hno 107 (by decide)),
    hdead dead (fun c hc => List.mem_append_right _ hc), hletters, replaceAll_doubled, undoubled,
    List.map_map]
  · conv_rhs => rw [← List.map_id path]
    apply List.map_congr_left
    intro b _
    by_cases hb : b = 37 <;> simp [hb]
  · rw [hnone]
    intro hp
    have hmem : (37 : UInt8) ∈ path.filter (· ≠ 37) := hp.subset List.mem_cons_self
    simpa using (List.mem_filter.1 hmem).2

/-! ## The folder -/

theorem doubled_ne {c : UInt8} (hc : c ≠ 37) (path : Bytes) : path.flatMap doubledByte ≠ [37, c] := by
  cases path with
  | nil => exact nofun
  | cons b path =>
    rw [List.flatMap_cons, doubledByte]
    split
    · exact fun h => hc (List.cons.inj (List.cons.inj h).2).1.symm
    · next hb => exact fun h => hb (List.cons.inj h).1

/-- A doubled path without codes is one argument, the path. -/
theorem expandToken_doubled {path : Bytes} (h : ∀ c ∈ codes, ¬[37, c] <:+: path)
    (entry : DesktopEntry) :
    expandToken Utf8.lossy fileUrl (fill [] entry) [] entry (path.flatMap doubledByte) = [path] := by
  have hlist : ∀ c : UInt8, c ≠ 37 → path.flatMap doubledByte ≠ [37, c] := fun c hc =>
    doubled_ne hc path
  have hF : path.flatMap doubledByte ≠ text "%F" := hlist 70 (by decide)
  have hU : path.flatMap doubledByte ≠ text "%U" := hlist 85 (by decide)
  have hi : path.flatMap doubledByte ≠ text "%i" := hlist 105 (by decide)
  rw [expandToken, if_neg (by simp [hF, hU]), if_neg hi, fill_doubled h, if_neg]
  rw [Bool.and_eq_true, decide_eq_true_eq, decide_eq_true_eq]
  intro hempty
  obtain ⟨rfl, hhead⟩ := hempty
  cases hhead

theorem newline_notMem_desktopValue (value : Bytes) : newline ∉ desktopValue value := by
  intro h
  obtain ⟨ws, we, -, -, hcut⟩ :=
    trimBytes_split (value.map fun b => if b = 10 ∨ b = 13 then 32 else b)
  have htrim : newline ∈ trimBytes (value.map fun b => if b = 10 ∨ b = 13 then 32 else b) := h
  have hmem : newline ∈ value.map fun b => if b = 10 ∨ b = 13 then 32 else b := by
    rw [hcut]
    simp only [List.mem_append, htrim, true_or, or_true]
  obtain ⟨b, -, hb⟩ := List.mem_map.1 hmem
  split at hb
  · exact absurd hb (by decide)
  · next hno => exact hno (Or.inl hb)

theorem newline_notMem_execArgument {path : Bytes} (h : newline ∉ path) :
    newline ∉ execArgument path := by
  have hlossy : newline ∉ Utf8.lossy path := fun hmem =>
    (Utf8.mem_lossy hmem).elim h (by decide)
  rw [execArgument, List.mem_append, List.mem_append, not_or, not_or]
  refine ⟨⟨by decide, fun hmem => ?_⟩, by decide⟩
  obtain ⟨b, hb, hquoted⟩ := List.mem_flatMap.1 hmem
  rw [quoteByte] at hquoted
  have hne : newline ≠ b := fun heq => hlossy (heq ▸ hb)
  split at hquoted
  · rcases List.mem_cons.1 hquoted with heq | hquoted
    · exact absurd heq (by decide)
    · exact hne (List.mem_singleton.1 hquoted)
  · split at hquoted
    · exact absurd hquoted (by decide)
    · exact hne (List.mem_singleton.1 hquoted)

theorem unescape_append {word : Bytes} (h : 92 ∉ word) (rest : Bytes) :
    unescape (word ++ rest) = word ++ unescape rest := by
  induction word with
  | nil => rfl
  | cons b word ih =>
    obtain ⟨hb, hword⟩ := not_or.1 (mt List.mem_cons.2 h)
    rw [List.cons_append, unescape_cons (Ne.symm hb), ih hword]
    rfl

/-- The argument with the escapes of the file taken off. -/
theorem readValue_exec (path : Text) :
    readValue (text "xdg-open " ++ execArgument path.val) =
      text "xdg-open" ++ 32 :: 34 :: (path.val.flatMap storedByte ++ [34]) := by
  have hvalue : text "xdg-open " ++ execArgument path.val =
      120 :: (text "dg-open \"" ++ path.val.flatMap quoteByte) ++ 34 :: [] := by
    rw [execArgument, Utf8.lossy_eq_self_iff.2 path.property]
    rfl
  have hquote : Solid 34 := by decide
  have hletter : Solid 120 := by decide
  have hend : trimEnd (text "xdg-open " ++ execArgument path.val) =
      text "xdg-open " ++ execArgument path.val := by
    rw [hvalue, trimEnd_append_cons hquote]
    rfl
  have htrim : trimBytes (text "xdg-open " ++ execArgument path.val) =
      text "xdg-open " ++ execArgument path.val := by
    rw [trimBytes, hvalue, List.cons_append, trimStart_cons hletter, ← List.cons_append, ← hvalue, hend]
  have hplain : 92 ∉ text "xdg-open \"" := by decide
  have hsplit : text "xdg-open " ++ execArgument path.val =
      text "xdg-open \"" ++ (path.val.flatMap quoteByte ++ [34]) := by
    rw [execArgument, Utf8.lossy_eq_self_iff.2 path.property]
    rfl
  rw [readValue, hend, htrim, hsplit, unescape_append hplain, unescape_quoted]
  rfl

/-- What a call that returns has written. -/
theorem pinInto_returned {c : SaveCalls} {isDir : Bool} {p : Place} {path : Bytes}
    {s file : Option Bytes} {out : PathBuf} (h : pinInto c isDir p path s = (.ok out, file)) :
    file = some (pinEntry path) ∧ newline ∉ path := by
  rw [pinInto] at h
  split at h
  · cases h
  · split at h
    · cases h
    · next hcontrol =>
      refine ⟨?_, fun hnl => hcontrol (List.any_eq_true.2 ⟨newline, hnl, rfl⟩)⟩
      cases hdir : c.createDir with
      | some e =>
        simp only [hdir] at h
        cases h
      | none =>
        simp only [hdir, answer, Act.lift_ok] at h
        rw [Act.bind_of_ok (show (pure () : Act (Option Bytes) Error Unit) s = _ from rfl)] at h
        by_cases hflushes : c.Flushes
        · rw [Act.bind_of_ok (writeAtomically_ok c p _ _ _ hflushes)] at h
          exact (Prod.mk.inj h).2.symm
        · obtain ⟨e, he⟩ := writeAtomically_error c p (fun bs (_ : Option Bytes) => some bs)
            (pinEntry path) s hflushes
          rw [Act.bind_of_error he] at h
          cases h

/-- **Which pinned folders open themselves**: the entry of a straight path, read back, gives the
command that opens the path. -/
theorem pinned_opens {c : SaveCalls} {isDir : Bool} {p : Place} {path : Text}
    {s file : Option Bytes} {out : PathBuf}
    (hpin : pinInto c isDir p path.val s = (.ok out, file)) (h : Straight path.val)
    (entryPath id : Bytes) :
    ∃ bs entry, file = some bs ∧ DesktopEntry.parse entryPath id bs = some entry ∧
      entry.command [] = .ok [text "xdg-open", path.val] := by
  obtain ⟨hfile, hnl⟩ := pinInto_returned hpin
  have hlines : ∀ key ∈ pinKeys path.val, newline ∉ keyLine key := by
    have hvalues : ∀ key ∈ pinKeys path.val, newline ∉ key.1 ∧ newline ∉ key.2 := by
      have hexec : newline ∉ text "xdg-open " ++ execArgument path.val := by
        rw [List.mem_append, not_or]
        exact ⟨by decide, newline_notMem_execArgument hnl⟩
      simp only [pinKeys, List.forall_mem_cons]
      refine ⟨⟨?_, ?_⟩, ⟨?_, ?_⟩, ⟨?_, newline_notMem_desktopValue _⟩,
        ⟨?_, newline_notMem_desktopValue _⟩, ⟨?_, hexec⟩, ⟨?_, ?_⟩, ⟨?_, ?_⟩, ⟨?_, ?_⟩,
        ⟨?_, newline_notMem_desktopValue _⟩, nofun⟩ <;> decide
    intro key hkey
    rw [keyLine, List.mem_append, List.mem_cons, not_or, not_or]
    exact ⟨(hvalues key hkey).1, by decide, (hvalues key hkey).2⟩
  obtain ⟨entry, hparse, hexec⟩ := parse_pinEntry entryPath id path.val hlines
  refine ⟨_, entry, hfile, hparse, ?_⟩
  have hprogram := expandToken_doubled
    (show ∀ c ∈ codes, ¬[37, c] <:+: text "xdg-open" by decide +kernel) entry
  have hdoubled : (text "xdg-open").flatMap doubledByte = text "xdg-open" := by decide
  rw [hdoubled] at hprogram
  have hfolder := expandToken_doubled (fun c hc => h.not_infix hc) entry
  rw [readValue_exec] at hexec
  rw [DesktopEntry.command, hexec]
  dsimp only
  rw [expand, expandBy, splitExec_stored h, List.flatMap_cons, List.flatMap_singleton, hprogram,
    hfolder]
  rfl

/-- A folder with a name for every layer. -/
def odd : Text := ⟨text "/home/cam/it\"s $5 100% \\a", by decide⟩

theorem pinned_opens_odd :
    ∃ bs entry, some (pinEntry odd.val) = some bs ∧ DesktopEntry.parse [] [] bs = some entry ∧
      entry.command [] = .ok [text "xdg-open", odd.val] := by
  have hcontrol : odd.val.any isControl = false := by decide
  have hpin : pinInto {} true ⟨[], [], []⟩ odd.val none = (.ok [], some (pinEntry odd.val)) := by
    rw [pinInto, hcontrol]
    rfl
  exact pinned_opens hpin (by decide) [] []

/-- **A folder that ends in a backslash**: the backslash escapes the quote that ends the argument. -/
theorem pinned_backslash :
    ∃ bs entry, pinInto {} true ⟨[], [], []⟩ (text "/a\\") none = (.ok [], some bs) ∧
      DesktopEntry.parse [] [] bs = some entry ∧
      entry.command [] = .ok [text "xdg-open", text "/a\""] := by
  have hcontrol : (text "/a\\").any isControl = false := by decide
  have hpin : pinInto {} true ⟨[], [], []⟩ (text "/a\\") none = (.ok [], some (pinEntry (text "/a\\"))) := by
    rw [pinInto, hcontrol]
    rfl
  obtain ⟨entry, hparse, hexec⟩ := parse_pinEntry [] [] (text "/a\\") (by decide)
  have hvalue : readValue (text "xdg-open " ++ execArgument (text "/a\\")) =
      text "xdg-open \"/a\\\"" := by decide
  have htokens : splitExec (text "xdg-open \"/a\\\"") = [text "xdg-open", text "/a\""] := by
    decide
  refine ⟨_, entry, hpin, hparse, ?_⟩
  rw [hvalue] at hexec
  rw [DesktopEntry.command, hexec]
  dsimp only
  rw [expand, expandBy, htokens]
  rfl

end Aurade.Desktop
