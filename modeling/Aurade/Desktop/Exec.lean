import Aurade.Foundations.Replace
import Aurade.Stores.Apps

/-!
# The command of a desktop entry

An `Exec` line is cut into arguments (`splitExec`) and its field codes are filled in (`expand`). The
program fills in one code after another, each in the whole argument: what was put in for one code is
read again for the next. `filled` is an argument read once from the left, and `expandOnce` the
command made of such arguments. `expand_eq_expandOnce` says where the two are the same.
-/

namespace Aurade.Desktop

open Fs Stores

/-- What a desktop entry says of its program, as far as a command needs it. -/
structure DesktopEntry where
  id : Bytes
  path : Bytes
  name : Bytes
  icon : Option Bytes
  exec : Option Bytes

/-! ## Arguments -/

/-- The bytes of the space a string begins with. -/
def spaceAt (bs : Bytes) : ℕ := ((spaces.find? fun p => p.isPrefixOf bs).map List.length).getD 0

/-- The four characters a backslash takes its meaning from, within quotes. -/
def isQuotable (b : UInt8) : Bool := b = 34 || b = 96 || b = 36 || b = 92

/-- The loop of `split_exec`, with so many bytes left of a space. -/
def splitLoop (inQuotes hasToken : Bool) (token : Bytes) : ℕ → Bytes → List Bytes
  | _, [] => if hasToken || token ≠ [] then [token] else []
  | left + 1, _ :: rest => splitLoop inQuotes hasToken token left rest
  | 0, c :: rest =>
    if c = 34 then splitLoop (!inQuotes) true token 0 rest
    else if c = 92 && inQuotes then
      match rest with
      | [] => splitLoop inQuotes hasToken token 0 []
      | next :: rest =>
        splitLoop inQuotes hasToken (token ++ if isQuotable next then [next] else [92, next]) 0 rest
    else if spaceAt (c :: rest) ≠ 0 && !inQuotes then
      if hasToken || token ≠ [] then
        token :: splitLoop inQuotes false [] (spaceAt (c :: rest) - 1) rest
      else splitLoop inQuotes hasToken token (spaceAt (c :: rest) - 1) rest
    else splitLoop inQuotes true (token ++ [c]) 0 rest

/-- `split_exec`. -/
def splitExec (exec : Bytes) : List Bytes := splitLoop false false [] 0 exec

/-! ## Field codes -/

/-- The codes that are not passed on. -/
def dead : List UInt8 := [100, 68, 110, 78, 118, 109]

/-- `expand`, of one argument that is no list of files and no icon. -/
def fill (paths : List Bytes) (entry : DesktopEntry) (token : Bytes) : Bytes :=
  let first := paths.head?
  let value := token
  let value :=
    if [37, 102] <:+: value then replaceAll [37, 102] ((first.map Utf8.lossy).getD []) value else value
  let value :=
    if [37, 117] <:+: value then replaceAll [37, 117] ((first.map fileUrl).getD []) value else value
  let value := replaceAll [37, 107] (Utf8.lossy entry.path) (replaceAll [37, 99] entry.name value)
  let value := dead.foldl (fun value code => replaceAll [37, code] [] value) value
  replaceAll [37, 37] [37] value

/-- `expand`, of one argument: what it makes of a path and of an argument with codes in it is left
open. -/
def expandToken (plain url fill : Bytes → Bytes) (paths : List Bytes) (entry : DesktopEntry)
    (token : Bytes) : List Bytes :=
  if token = text "%F" || token = text "%U" then
    paths.map fun p => if token = text "%U" then url p else plain p
  else if token = text "%i" then
    match entry.icon with
    | some icon => [text "--icon", icon]
    | none => []
  else if fill token = [] && token.head? = some 37 then []
  else [fill token]

/-- The command, by the same. -/
def expandBy (plain url fill : Bytes → Bytes) (exec : Bytes) (paths : List Bytes)
    (entry : DesktopEntry) : Except Error (List Bytes) :=
  let out := (splitExec exec).flatMap (expandToken plain url fill paths entry)
  if out = [] then .error (.badRequest [.name entry.id, .str ": empty Exec line"]) else .ok out

/-- `expand`. -/
def expand (exec : Bytes) (paths : List Bytes) (entry : DesktopEntry) : Except Error (List Bytes) :=
  expandBy Utf8.lossy fileUrl (fill paths entry) exec paths entry

/-- `DesktopEntry::command`. -/
def DesktopEntry.command (entry : DesktopEntry) (paths : List Bytes) : Except Error (List Bytes) :=
  match entry.exec with
  | some exec => expand exec paths entry
  | none => .error (.badRequest [.name entry.id, .str " has no Exec line"])

/-! ## Codes read once -/

/-- The URL of a path, byte by byte. -/
def urlOf (path : Bytes) : Bytes := text "file://" ++ path.flatMap urlByte

/-- What a code stands for, by what stands for a path. -/
def meaning (plain url : Bytes → Bytes) (paths : List Bytes) (entry : DesktopEntry) (code : UInt8) :
    Bytes :=
  if code = 102 then (paths.head?.map plain).getD []
  else if code = 117 then (paths.head?.map url).getD []
  else if code = 99 then entry.name
  else if code = 107 then plain entry.path
  else []

/-- The codes in the order in which the program fills them in. -/
def codes : List UInt8 := [102, 117, 99, 107] ++ dead

/-- A piece of an argument. -/
inductive Piece
  /-- A byte that stands for itself. -/
  | byte (b : UInt8)
  /-- A doubled percent sign. -/
  | percent
  /-- A code. -/
  | code (c : UInt8)
deriving DecidableEq

/-- The pieces of an argument, from the left. -/
def pieces : Bytes → List Piece
  | [] => []
  | [b] => [.byte b]
  | b :: c :: rest =>
    if b = 37 ∧ c = 37 then .percent :: pieces rest
    else if b = 37 ∧ c ∈ codes then .code c :: pieces rest
    else .byte b :: pieces (c :: rest)

/-- A piece as what it stands for. -/
def Piece.stands (value : UInt8 → Bytes) : Piece → Bytes
  | byte b => [b]
  | percent => [37]
  | code c => value c

/-- An argument with its codes filled in, once each. -/
def filled (paths : List Bytes) (entry : DesktopEntry) (token : Bytes) : Bytes :=
  (pieces token).flatMap (Piece.stands (meaning id urlOf paths entry))

/-- The command with each argument read once, and with the paths as they are. -/
def expandOnce (exec : Bytes) (paths : List Bytes) (entry : DesktopEntry) :
    Except Error (List Bytes) :=
  expandBy id urlOf (filled paths entry) exec paths entry

/-! ## One code after another -/

/-- A piece while the codes of `done` are filled in already. -/
def Piece.shown (value : UInt8 → Bytes) (done : List UInt8) : Piece → Bytes
  | byte b => [b]
  | percent => [37, 37]
  | code c => if c ∈ done then value c else [37, c]

/-- Nothing is taken for a code that is none: at each code's turn it stands nowhere between the
places where the argument has it, and at the end no two percent signs are side by side but the
argument's own doubled ones. -/
def Undisturbed (value : UInt8 → Bytes) (ps : List Piece) : List UInt8 → List UInt8 → Prop
  | done, [] => ¬[37, 37] <:+: (ps.filter (· ≠ .percent)).flatMap (Piece.shown value done)
  | done, c :: rest =>
    (∀ part ∈ ps.splitOn (.code c), ¬[37, c] <:+: part.flatMap (Piece.shown value done)) ∧
      Undisturbed value ps (done ++ [c]) rest

instance decidableUndisturbed (value : UInt8 → Bytes) (ps : List Piece) :
    (done rest : List UInt8) → Decidable (Undisturbed value ps done rest)
  | _, [] => inferInstanceAs (Decidable (¬_))
  | done, c :: rest =>
    have := decidableUndisturbed value ps (done ++ [c]) rest
    inferInstanceAs (Decidable (_ ∧ _))

/-- An argument is made of its pieces. -/
theorem flatMap_shown_pieces (value : UInt8 → Bytes) (token : Bytes) :
    (pieces token).flatMap (Piece.shown value []) = token := by
  fun_induction pieces token with
  | case1 => rfl
  | case2 b => rfl
  | case3 b c rest h ih =>
    obtain ⟨rfl, rfl⟩ := h
    rw [List.flatMap_cons, ih]
    rfl
  | case4 b c rest hpercent h ih =>
    obtain ⟨rfl, -⟩ := h
    rw [List.flatMap_cons, ih, Piece.shown, if_neg List.not_mem_nil]
    rfl
  | case5 b c rest hpercent hcode ih =>
    rw [List.flatMap_cons, ih]
    rfl

theorem mem_codes_of_mem_pieces {token : Bytes} {c : UInt8} (h : .code c ∈ pieces token) :
    c ∈ codes := by
  fun_induction pieces token with
  | case1 => exact absurd h List.not_mem_nil
  | case2 b => simp at h
  | case3 b d rest hp ih => exact ih (by simpa using h)
  | case4 b d rest hpercent hcode ih =>
    rcases List.mem_cons.1 h with heq | h
    · obtain rfl := Piece.code.inj heq
      exact hcode.2
    · exact ih h
  | case5 b d rest hpercent hcode ih => exact ih (by simpa using h)

section

variable {value : UInt8 → Bytes} {ps : List Piece} {done rest : List UInt8} {c : UInt8}

/-- The turn of one code. -/
theorem replaceAll_shown (hc : c ∉ done) (hpercent : c ≠ 37)
    (h : ∀ part ∈ ps.splitOn (.code c), ¬[37, c] <:+: part.flatMap (Piece.shown value done)) :
    replaceAll [37, c] (value c) (ps.flatMap (Piece.shown value done)) =
      ps.flatMap (Piece.shown value (done ++ [c])) := by
  have hbefore : Piece.shown value done (.code c) = [37, c] := if_neg hc
  have hafter : Piece.shown value (done ++ [c]) (.code c) = value c := if_pos (by simp)
  rw [flatMap_eq_intercalate (Piece.shown value done) (.code c) ps, hbefore,
    flatMap_eq_intercalate (Piece.shown value (done ++ [c])) (.code c) ps, hafter,
    replaceAll_intercalate hpercent.symm]
  · congr 1
    apply List.map_congr_left
    intro part hpart
    apply List.flatMap_congr
    intro p hp
    cases p with
    | byte b => rfl
    | percent => rfl
    | code d =>
      have hd : d ≠ c := fun heq => notMem_of_mem_splitOn hpart (heq ▸ hp)
      simp [Piece.shown, hd]
  · intro s hs
    obtain ⟨part, hpart, rfl⟩ := List.mem_map.1 hs
    exact h part hpart

/-- The last turn, of the doubled percent signs. -/
theorem replaceAll_percent (hall : ∀ c, .code c ∈ ps → c ∈ done)
    (h : ¬[37, 37] <:+: (ps.filter (· ≠ .percent)).flatMap (Piece.shown value done)) :
    replaceAll [37, 37] [37] (ps.flatMap (Piece.shown value done)) =
      ps.flatMap (Piece.stands value) := by
  -- the bytes of the pieces, a doubled percent sign as one
  have hletters : ∃ letters : List (Option UInt8),
      doubled 37 letters = ps.flatMap (Piece.shown value done) ∧
      undoubled 37 letters = ps.flatMap (Piece.stands value) ∧
      letters.filterMap id = (ps.filter (· ≠ .percent)).flatMap (Piece.shown value done) := by
    clear h
    induction ps with
    | nil => exact ⟨[], rfl, rfl, rfl⟩
    | cons p ps ih =>
      obtain ⟨letters, hd, hu, hf⟩ := ih fun c hc => hall c (List.mem_cons_of_mem p hc)
      have hbytes : ∀ bs : Bytes, p.shown value done = bs → p.stands value = bs → p ≠ .percent →
          ∃ letters : List (Option UInt8),
            doubled 37 letters = (p :: ps).flatMap (Piece.shown value done) ∧
            undoubled 37 letters = (p :: ps).flatMap (Piece.stands value) ∧
            letters.filterMap id =
              ((p :: ps).filter (· ≠ .percent)).flatMap (Piece.shown value done) := by
        intro bs hshown hstands hp
        refine ⟨bs.map some ++ letters, ?_, ?_, ?_⟩
        · rw [List.flatMap_cons, ← hd, hshown, doubled, List.flatMap_append, List.flatMap_map]
          simp [doubled]
        · rw [List.flatMap_cons, ← hu, hstands, undoubled, List.map_append, List.map_map]
          simp [undoubled, Function.comp_def]
        · rw [List.filter_cons_of_pos (by simpa using hp), List.flatMap_cons, ← hf, hshown,
            List.filterMap_append, List.filterMap_map]
          simp
      cases p with
      | byte b => exact hbytes [b] rfl rfl nofun
      | code c => exact hbytes (value c) (if_pos (hall c List.mem_cons_self)) rfl nofun
      | percent =>
        refine ⟨none :: letters, ?_, ?_, ?_⟩
        · rw [List.flatMap_cons, ← hd]
          rfl
        · rw [List.flatMap_cons, ← hu]
          rfl
        · rw [List.filter_cons_of_neg (by simp), ← hf]
          rfl
  obtain ⟨letters, hd, hu, hf⟩ := hletters
  rw [← hd, ← hu]
  exact replaceAll_doubled 37 letters (hf ▸ h)

/-- All turns. -/
theorem turns_shown (h : Undisturbed value ps done rest) (hnodup : (done ++ rest).Nodup)
    (hpercent : 37 ∉ rest) (hall : ∀ c, .code c ∈ ps → c ∈ done ++ rest) :
    replaceAll [37, 37] [37] (rest.foldl (fun shown c => replaceAll [37, c] (value c) shown)
      (ps.flatMap (Piece.shown value done))) = ps.flatMap (Piece.stands value) := by
  induction rest generalizing done with
  | nil => exact replaceAll_percent (by simpa using hall) h
  | cons c rest ih =>
    have hc : c ∉ done := fun hmem => (List.nodup_append.1 hnodup).2.2 c hmem c List.mem_cons_self rfl
    obtain ⟨hne, hrest⟩ := not_or.1 (mt List.mem_cons.2 hpercent)
    rw [List.foldl_cons, replaceAll_shown hc (Ne.symm hne) h.1]
    rw [List.append_cons] at hnodup hall
    exact ih h.2 hnodup hrest hall

end

/-! ## The command -/

/-- What the program fills an argument with. -/
theorem fill_eq {paths : List Bytes} {entry : DesktopEntry} {token : Bytes}
    (h : Undisturbed (meaning Utf8.lossy fileUrl paths entry) (pieces token) [] codes) :
    fill paths entry token =
      (pieces token).flatMap (Piece.stands (meaning Utf8.lossy fileUrl paths entry)) := by
  have hturns := turns_shown h (by decide) (by decide) fun c hc => mem_codes_of_mem_pieces hc
  rw [flatMap_shown_pieces] at hturns
  have hif : ∀ (pat new value : Bytes),
      (if pat <:+: value then replaceAll pat new value else value) = replaceAll pat new value := by
    intro pat new value
    split
    · rfl
    · next hno => exact (replaceAll_absent hno).symm
  rw [← hturns, fill]
  simp only [hif]
  rfl

/-- The paths an argument names are texts. -/
structure Told (paths : List Bytes) (entry : DesktopEntry) (ps : List Piece) : Prop where
  file : .code 102 ∈ ps ∨ .code 117 ∈ ps → ∀ p ∈ paths.head?, Utf8.valid p = true
  own : .code 107 ∈ ps → Utf8.valid entry.path = true

/-- An argument that is filled in as it should be: a list of paths that are texts, the icon, or an
argument in which nothing is taken for a code that is none. -/
def Plain (paths : List Bytes) (entry : DesktopEntry) (token : Bytes) : Prop :=
  if token = text "%F" ∨ token = text "%U" then ∀ p ∈ paths, Utf8.valid p = true
  else token = text "%i" ∨
    (Undisturbed (meaning Utf8.lossy fileUrl paths entry) (pieces token) [] codes ∧
      Told paths entry (pieces token))

theorem fileUrl_eq {path : Bytes} (h : Utf8.valid path = true) : fileUrl path = urlOf path := by
  rw [fileUrl, urlOf, Utf8.lossy_eq_self_iff.2 h]

theorem fill_eq_filled {paths : List Bytes} {entry : DesktopEntry} {token : Bytes}
    (h : Undisturbed (meaning Utf8.lossy fileUrl paths entry) (pieces token) [] codes)
    (htold : Told paths entry (pieces token)) : fill paths entry token = filled paths entry token := by
  rw [fill_eq h, filled]
  apply List.flatMap_congr
  intro p hp
  cases p with
  | byte b => rfl
  | percent => rfl
  | code c =>
    rw [Piece.stands, Piece.stands, meaning, meaning]
    by_cases hf : c = 102
    · subst hf
      have hmap : paths.head?.map Utf8.lossy = paths.head?.map id :=
        Option.map_congr fun p hmem => Utf8.lossy_eq_self_iff.2 (htold.file (Or.inl hp) p hmem)
      rw [if_pos rfl, if_pos rfl, hmap]
    · rw [if_neg hf, if_neg hf]
      by_cases hu : c = 117
      · subst hu
        have hmap : paths.head?.map fileUrl = paths.head?.map urlOf :=
          Option.map_congr fun p hmem => fileUrl_eq (htold.file (Or.inr hp) p hmem)
        rw [if_pos rfl, if_pos rfl, hmap]
      · rw [if_neg hu, if_neg hu]
        by_cases hk : c = 107
        · subst hk
          rw [Utf8.lossy_eq_self_iff.2 (htold.own hp)]
          rfl
        · rw [if_neg hk, if_neg hk]

/-- **Where a command is what its line says**: on lines whose arguments are all plain. -/
theorem expand_eq_expandOnce (exec : Bytes) (paths : List Bytes) (entry : DesktopEntry)
    (h : ∀ token ∈ splitExec exec, Plain paths entry token) :
    expand exec paths entry = expandOnce exec paths entry := by
  have hsame : (splitExec exec).flatMap (expandToken Utf8.lossy fileUrl (fill paths entry) paths entry) =
      (splitExec exec).flatMap (expandToken id urlOf (filled paths entry) paths entry) := by
    apply List.flatMap_congr
    intro token htoken
    have hplain := h token htoken
    rw [Plain] at hplain
    rw [expandToken, expandToken]
    simp only [Bool.or_eq_true, decide_eq_true_eq]
    split
    · next hlist =>
      rw [if_pos hlist] at hplain
      apply List.map_congr_left
      intro p hp
      rw [fileUrl_eq (hplain p hp), Utf8.lossy_eq_self_iff.2 (hplain p hp)]
      rfl
    · next hlist =>
      rw [if_neg hlist] at hplain
      split
      · rfl
      · next hicon =>
        obtain ⟨hcodes, htold⟩ := hplain.resolve_left hicon
        rw [fill_eq_filled hcodes htold]
  rw [expand, expandOnce, expandBy, expandBy, hsame]

/-- A browser. -/
def browser : DesktopEntry where
  id := text "browser.desktop"
  path := text "/usr/share/applications/browser.desktop"
  name := text "Browser"
  icon := none
  exec := some (text "browser %u --name=%c")

theorem expand_browser :
    expand (text "browser %u --name=%c") [text "/home/cam/100% sure.html"] browser =
      expandOnce (text "browser %u --name=%c") [text "/home/cam/100% sure.html"] browser :=
  expand_eq_expandOnce _ _ _ fun token htoken => by
    have htokens : splitExec (text "browser %u --name=%c") =
        [text "browser", text "%u", text "--name=%c"] := by decide
    rw [htokens] at htoken
    have hplain : ∀ token ∈ [text "browser", text "%u", text "--name=%c"],
        ¬(token = text "%F" ∨ token = text "%U") ∧
          Undisturbed (meaning Utf8.lossy fileUrl [text "/home/cam/100% sure.html"] browser)
            (pieces token) [] codes := by decide
    have hpath : Utf8.valid (text "/home/cam/100% sure.html") = true := by decide
    rw [Plain, if_neg (hplain token htoken).1]
    exact Or.inr ⟨(hplain token htoken).2, fun _ => by simpa using hpath, fun _ => by decide⟩

/-- **A name in Cyrillic**: the escape of its first byte is a percent sign and `D0`, and `%D` is a
code that is dropped. -/
theorem expand_cyrillic :
    expand (text "browser %u") [text "/Д"] browser = .ok [text "browser", text "file:///0%94"] ∧
      expandOnce (text "browser %u") [text "/Д"] browser =
        .ok [text "browser", text "file:///%D0%94"] := by
  constructor <;> rfl

end Aurade.Desktop
