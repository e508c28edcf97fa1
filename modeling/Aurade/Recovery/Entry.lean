import Mathlib
import Aurade.Foundations.Text

/-!
# Boot entries

The entry of the boot menu that rolls back is made from the normal one line by line: the title is
replaced, a kernel or an initrd is taken from the folder of the snapshot, and the options name the
subvolume of the snapshot and show the messages of the boot.

`rewrite_options` and `rewrite_artifact` say what the new entry names: every line of options the
subvolume, and every kernel or initrd a file of the folder, or what the normal entry named where the
line is set in from the margin.
-/

namespace Aurade.Recovery

/-! ## Lines and words -/

/-- `[[:space:]]` -/
def isSpace (b : UInt8) : Bool := b = 32 || (9 ≤ b && b ≤ 13)

/-- What parts the fields of a line. -/
def isBlank (b : UInt8) : Bool := b = 32 || b = 9

/-- The lines of a file; there is none behind the last newline. -/
def records (file : Bytes) : List Bytes :=
  let parts := file.splitOn newline
  if parts.getLast? = some [] then parts.dropLast else parts

/-- The first field of a line. -/
def word (line : Bytes) : Bytes := (line.dropWhile isBlank).takeWhile (!isBlank ·)

/-- What is behind the first field. -/
def behind (line : Bytes) : Bytes := (line.dropWhile isBlank).dropWhile (!isBlank ·)

/-- `^key[[:space:]]` -/
def starts (key line : Bytes) : Bool := key.isPrefixOf line && (line.drop key.length).head?.any isSpace

/-- The kernel and the initrds an entry names, as the command reads them. -/
def artifacts (entry : Bytes) : List Bytes :=
  (records entry).filterMap fun line =>
    if word line = text "linux" ∨ word line = text "initrd" then some (word (behind line)) else none

/-- What is behind the last slash. -/
def basename (path : Bytes) : Bytes := ((path.splitOn 47).getLast?).getD []

/-! ## The options -/

/-- A space with `quiet` or `splash` behind it, and then a space or the end: what is left behind. -/
def unquiet : Bytes → Option Bytes
  | [] => none
  | c :: rest =>
    if isSpace c then
      match [text "quiet", text "splash"].find? (·.isPrefixOf rest) with
      | some w =>
        match rest.drop w.length with
        | [] => some []
        | d :: rest => if isSpace d then some rest else none
      | none => none
    else none

/-- `gsub`: one pass over the line. A match leaves a space, and the pass goes on behind it. -/
def gsubQuiet : ℕ → Bytes → Bytes
  | 0, line => line
  | _ + 1, [] => []
  | n + 1, c :: rest =>
    match unquiet (c :: rest) with
    | some rest => 32 :: gsubQuiet n rest
    | none => c :: gsubQuiet n rest

/-- The passes, until one finds nothing. -/
def dropQuiet : ℕ → Bytes → Bytes
  | 0, line => line
  | n + 1, line =>
    let line' := gsubQuiet line.length line
    if line' = line then line else dropQuiet n line'

/-- `sub(/[[:space:]]+$/, "")` -/
def rstrip (line : Bytes) : Bytes := (line.reverse.dropWhile isSpace).reverse

def rootFlag : Bytes := text "rootflags=subvol="

/-- The first `rootflags=subvol=` with a value: what is before it, the value, and what is behind. -/
def findFlag : Bytes → Option (Bytes × Bytes × Bytes)
  | [] => none
  | c :: rest =>
    let value := (c :: rest).drop rootFlag.length
    if rootFlag.isPrefixOf (c :: rest) ∧ value.takeWhile (!isSpace ·) ≠ [] then
      some ([], value.takeWhile (!isSpace ·), value.dropWhile (!isSpace ·))
    else (findFlag rest).map fun found => (c :: found.1, found.2)

/-- The subvolume a line of options names. -/
def subvolOf (line : Bytes) : Option Bytes := (findFlag line).map (·.2.1)

/-! ## The new entry -/

/-- The subvolume of a snapshot. -/
def subvolume (name : Bytes) : Bytes := text "@snapshots/" ++ name ++ text "/snapshot"

/-- One line of the new entry; there is none where the options name no subvolume. -/
def rewriteLine (name label line : Bytes) : Option Bytes :=
  if starts (text "title") line then some (text "title AuraDE rollback (" ++ label ++ text ")")
  else if starts (text "linux") line || starts (text "initrd") line then
    some (word line ++ text " /aurade-rollback/" ++ name ++ 47 :: basename (word (behind line)))
  else if starts (text "options") line then
    let line := rstrip (dropQuiet line.length line)
    (findFlag line).map fun found => found.1 ++ rootFlag ++ subvolume name ++ found.2.2
  else some line

/-- The new entry. -/
def rewrite (name label entry : Bytes) : Option Bytes :=
  ((records entry).mapM (rewriteLine name label)).map fun lines => lines.flatMap (· ++ [newline])

/-! ## Words of a line -/

theorem space_of_blank {b : UInt8} (h : isBlank b = true) : isSpace b = true := by
  simp only [isBlank, Bool.or_eq_true, decide_eq_true_eq] at h
  rcases h with rfl | rfl <;> decide

theorem dropWhile_word {w rest : Bytes} (hw : ∀ b ∈ w, isBlank b = false) (hne : w ≠ []) :
    (w ++ rest).dropWhile isBlank = w ++ rest := by
  obtain ⟨b, w, rfl⟩ := List.exists_cons_of_ne_nil hne
  rw [List.cons_append, List.dropWhile_cons_of_neg (by simp [hw b List.mem_cons_self])]

/-- A field in front of a space is the first. -/
theorem word_append {w rest : Bytes} (hw : ∀ b ∈ w, isBlank b = false) (hne : w ≠ []) {c : UInt8}
    (hc : isBlank c = true) : word (w ++ c :: rest) = w ∧ behind (w ++ c :: rest) = c :: rest := by
  have hall : ∀ b ∈ w, (!isBlank b) = true := fun b hb => by simp [hw b hb]
  rw [word, behind, dropWhile_word hw hne, List.takeWhile_append_of_pos hall,
    List.dropWhile_append_of_pos hall, List.takeWhile_cons_of_neg (by simp [hc]),
    List.dropWhile_cons_of_neg (by simp [hc]), List.append_nil]
  exact ⟨rfl, rfl⟩

/-- A field behind a space, with nothing behind it. -/
theorem word_cons {w : Bytes} (hw : ∀ b ∈ w, isBlank b = false) (hne : w ≠ []) {c : UInt8}
    (hc : isBlank c = true) : word (c :: w) = w := by
  have hdrop : w.dropWhile isBlank = w := by
    simpa only [List.append_nil] using @dropWhile_word w [] hw hne
  rw [word, List.dropWhile_cons_of_pos hc, hdrop]
  exact List.takeWhile_eq_self_iff.2 fun b hb => by simp [hw b hb]

theorem word_blank (line : Bytes) : ∀ b ∈ word line, isBlank b = false := fun b hb => by
  simpa using List.mem_takeWhile_imp hb

/-- The first field of a line that is not set in starts as the line does. -/
theorem word_head {c : UInt8} (hc : isBlank c = false) (line : Bytes) :
    ∃ w, word (c :: line) = c :: w := by
  refine ⟨line.takeWhile (!isBlank ·), ?_⟩
  rw [word, List.dropWhile_cons_of_neg (by simp [hc]), List.takeWhile_cons_of_pos (by simp [hc])]

theorem starts_iff {key line : Bytes} :
    starts key line = true ↔ ∃ c rest, line = key ++ c :: rest ∧ isSpace c = true := by
  rw [starts, Bool.and_eq_true, List.isPrefixOf_iff_prefix]
  constructor
  · rintro ⟨⟨rest, rfl⟩, h⟩
    rw [List.drop_left] at h
    cases rest with
    | nil => cases h
    | cons c rest => exact ⟨c, rest, rfl, h⟩
  · rintro ⟨c, rest, rfl, hc⟩
    exact ⟨List.prefix_append _ _, by rw [List.drop_left]; exact hc⟩

/-- A line that starts with another byte starts with none of the keys. -/
theorem starts_of_ne {a b : UInt8} (hab : a ≠ b) (key line : Bytes) :
    starts (a :: key) (b :: line) = false := by
  rw [Bool.eq_false_iff, Ne, starts_iff]
  rintro ⟨c, rest, h, -⟩
  exact hab (List.cons.inj h).1.symm

theorem basename_mem (path : Bytes) : basename path ∈ path.splitOn 47 := by
  have hne : path.splitOn 47 ≠ [] := List.splitOn_ne_nil _ _
  rw [basename, List.getLast?_eq_some_getLast hne]
  exact List.getLast_mem hne

theorem basename_subset (path : Bytes) : ∀ b ∈ basename path, b ∈ path :=
  (infix_of_mem_splitOn (basename_mem path)).subset

/-! ## The flag that names the root -/

theorem findFlag_eq_some {line x v r : Bytes} (h : findFlag line = some (x, v, r)) :
    line = x ++ rootFlag ++ v ++ r ∧ v ≠ [] ∧ (∀ b ∈ v, isSpace b = false) ∧
      r.head?.all isSpace = true := by
  induction line generalizing x with
  | nil => cases h
  | cons c rest ih =>
    rw [findFlag] at h
    split_ifs at h with hc
    · obtain ⟨hpre, hne⟩ := hc
      obtain ⟨z, hz⟩ := List.isPrefixOf_iff_prefix.1 hpre
      obtain ⟨rfl, rfl, rfl⟩ : [] = x ∧ _ = v ∧ _ = r := by simpa using h
      refine ⟨?_, hne, fun b hb => by simpa using List.mem_takeWhile_imp hb, ?_⟩
      · rw [List.nil_append, List.append_assoc, List.takeWhile_append_dropWhile, ← hz, List.drop_left]
      · cases hd : ((c :: rest).drop rootFlag.length).dropWhile (!isSpace ·) with
        | nil => rfl
        | cons d tail =>
          have := List.head_dropWhile_not (p := (!isSpace ·)) (l := (c :: rest).drop rootFlag.length)
            (by rw [hd]; simp)
          simpa [hd] using this
    · obtain ⟨found, hfound, heq⟩ := Option.map_eq_some_iff.1 h
      obtain ⟨x', v', r'⟩ := found
      obtain ⟨rfl, rfl, rfl⟩ : c :: x' = x ∧ v' = v ∧ r' = r := by simpa using heq
      obtain ⟨hline, hrest⟩ := ih hfound
      exact ⟨by rw [hline]; rfl, hrest⟩

/-- A line in which a value takes the place of the first names that value. -/
theorem findFlag_replace {line x v r new : Bytes} (h : findFlag line = some (x, v, r))
    (hne : new ≠ []) (hnew : ∀ b ∈ new, isSpace b = false) :
    findFlag (x ++ rootFlag ++ new ++ r) = some (x, new, r) := by
  have hr := (findFlag_eq_some h).2.2.2
  have htake : (new ++ r).takeWhile (!isSpace ·) = new ∧ (new ++ r).dropWhile (!isSpace ·) = r := by
    have hall : ∀ b ∈ new, (!isSpace b) = true := fun b hb => by simp [hnew b hb]
    rw [List.takeWhile_append_of_pos hall, List.dropWhile_append_of_pos hall]
    cases r with
    | nil => simp
    | cons d r =>
      have hd : isSpace d = true := by simpa using hr
      simp [hd]
  induction line generalizing x with
  | nil => cases h
  | cons c rest ih =>
    rw [findFlag] at h
    split_ifs at h with hc
    · obtain ⟨rfl, rfl, rfl⟩ : [] = x ∧ _ = v ∧ _ = r := by simpa using h
      have hcons : ∀ z : Bytes, [] ++ rootFlag ++ new ++ z =
          (114 : UInt8) :: (rootFlag.tail ++ (new ++ z)) := fun z => by
        rw [List.nil_append, List.append_assoc]
        rfl
      have hdrop : ∀ z : Bytes, ((114 : UInt8) :: (rootFlag.tail ++ z)).drop rootFlag.length = z :=
        fun z => @List.drop_left _ rootFlag z
      rw [hcons, findFlag, if_pos]
      · simp only [hdrop, htake]
      · simp only [hdrop, htake]
        exact ⟨List.isPrefixOf_iff_prefix.2 (List.prefix_append rootFlag _), hne⟩
    · obtain ⟨⟨x', v', r'⟩, hfound, heq⟩ := Option.map_eq_some_iff.1 h
      obtain ⟨rfl, rfl, rfl⟩ : c :: x' = x ∧ v' = v ∧ r' = r := by simpa using heq
      -- the head of the line, up to the value, is the one it was: it is no match here either
      have hline := (findFlag_eq_some hfound).1
      have hhead : ∀ z : Bytes, (rootFlag.isPrefixOf (c :: (x' ++ rootFlag ++ z)) = true ∧
          ((c :: (x' ++ rootFlag ++ z)).drop rootFlag.length).takeWhile (!isSpace ·) ≠ []) ↔
          rootFlag.isPrefixOf (c :: (x' ++ rootFlag)) = true ∧
          ((c :: (x' ++ rootFlag)).drop rootFlag.length).takeWhile (!isSpace ·) ≠ [] := by
        intro z
        have hlen : rootFlag.length < (c :: (x' ++ rootFlag)).length := by simp
        have happ : c :: (x' ++ rootFlag ++ z) = (c :: (x' ++ rootFlag)) ++ z := rfl
        have hpre : rootFlag.isPrefixOf (c :: (x' ++ rootFlag ++ z)) =
            rootFlag.isPrefixOf (c :: (x' ++ rootFlag)) := by
          rw [happ, Bool.eq_iff_iff, List.isPrefixOf_iff_prefix, List.isPrefixOf_iff_prefix]
          exact ⟨fun hp => List.prefix_of_prefix_length_le hp (List.prefix_append _ _) hlen.le,
            fun hp => hp.trans (List.prefix_append _ _)⟩
        have hdrop : (c :: (x' ++ rootFlag ++ z)).drop rootFlag.length =
            (c :: (x' ++ rootFlag)).drop rootFlag.length ++ z := by
          rw [happ, List.drop_append_of_le_length hlen.le]
        obtain ⟨d, tail, hd⟩ : ∃ d tail, (c :: (x' ++ rootFlag)).drop rootFlag.length = d :: tail :=
          List.exists_cons_of_ne_nil (by simp)
        rw [hpre, hdrop, hd, List.cons_append, List.takeWhile_cons, List.takeWhile_cons]
        split <;> simp
      have hno : ¬ (rootFlag.isPrefixOf (c :: (x' ++ rootFlag ++ (new ++ r'))) = true ∧
          ((c :: (x' ++ rootFlag ++ (new ++ r'))).drop rootFlag.length).takeWhile (!isSpace ·) ≠ []) := by
        rw [hhead, ← hhead (v' ++ r'), ← List.append_assoc, ← hline]
        exact hc
      have hcons : c :: x' ++ rootFlag ++ new ++ r' = c :: (x' ++ rootFlag ++ (new ++ r')) := by
        simp
      rw [hcons, findFlag, if_neg hno, ← List.append_assoc, ih hfound]
      rfl

/-! ## The new entry -/

theorem records_lines {lines : List Bytes} (h : ∀ l ∈ lines, newline ∉ l) :
    records (lines.flatMap (· ++ [newline])) = lines := by
  simp [records, splitOn_flatMap_lines h]

theorem newline_notMem {entry line : Bytes} (h : line ∈ records entry) : newline ∉ line := by
  rw [records] at h
  split at h
  · exact notMem_of_mem_splitOn (List.dropLast_subset _ h)
  · exact notMem_of_mem_splitOn h

/-- A name or a label: what a file name of the menu is made of. -/
def IsLabel (name : Bytes) : Prop := name ≠ [] ∧ ∀ b ∈ name, isSpace b = false

theorem newline_of_space {b : UInt8} (h : isSpace b = false) : b ≠ newline := by
  rintro rfl
  exact absurd h (by decide)

theorem subset_gsubQuiet (n : ℕ) (line : Bytes) : ∀ b ∈ gsubQuiet n line, b = 32 ∨ b ∈ line := by
  have hunquiet : ∀ {line rest : Bytes}, unquiet line = some rest → rest <:+ line := by
    intro line rest h
    cases line with
    | nil => cases h
    | cons c tail =>
      simp only [unquiet] at h
      split_ifs at h
      split at h
      · next w _ =>
        split at h
        · obtain rfl := Option.some.inj h
          exact List.nil_suffix
        · next d z hd =>
          split_ifs at h
          obtain rfl := Option.some.inj h
          have hsuf : d :: z <:+ tail := hd ▸ List.drop_suffix _ _
          exact ((List.suffix_cons d z).trans hsuf).trans (List.suffix_cons c tail)
      · cases h
  induction n generalizing line with
  | zero => exact fun b hb => Or.inr hb
  | succ n ih =>
    cases line with
    | nil => exact fun b hb => Or.inr hb
    | cons c rest =>
      intro b hb
      rw [gsubQuiet] at hb
      split at hb
      · next z hz =>
        rcases List.mem_cons.1 hb with rfl | hb
        · exact Or.inl rfl
        · exact (ih z b hb).imp_right fun hb => (hunquiet hz).subset hb
      · rcases List.mem_cons.1 hb with rfl | hb
        · exact Or.inr List.mem_cons_self
        · exact (ih rest b hb).imp_right (List.mem_cons_of_mem c)

theorem subset_dropQuiet (n : ℕ) (line : Bytes) : ∀ b ∈ dropQuiet n line, b = 32 ∨ b ∈ line := by
  induction n generalizing line with
  | zero => exact fun b hb => Or.inr hb
  | succ n ih =>
    intro b hb
    rw [dropQuiet] at hb
    split_ifs at hb
    · exact Or.inr hb
    · exact (ih _ b hb).elim Or.inl (subset_gsubQuiet _ line b)

theorem subset_rstrip (line : Bytes) : ∀ b ∈ rstrip line, b ∈ line := fun _ hb =>
  List.mem_reverse.1 ((List.dropWhile_suffix _).mem (List.mem_reverse.1 hb))

/-- A pass leaves the key of a line, and a space behind it. -/
theorem gsubQuiet_key {key : Bytes} (hkey : ∀ b ∈ key, isSpace b = false) {c : UInt8}
    (hc : isSpace c = true) (n : ℕ) (rest : Bytes) :
    ∃ d z, gsubQuiet n (key ++ c :: rest) = key ++ d :: z ∧ isSpace d = true := by
  induction key generalizing n with
  | nil =>
    cases n with
    | zero => exact ⟨c, rest, rfl, hc⟩
    | succ n =>
      rw [List.nil_append, gsubQuiet]
      split
      · next z _ => exact ⟨32, _, rfl, by decide⟩
      · exact ⟨c, _, rfl, hc⟩
  | cons k key ih =>
    obtain ⟨hk, hkey⟩ := List.forall_mem_cons.1 hkey
    cases n with
    | zero => exact ⟨c, rest, rfl, hc⟩
    | succ n =>
      obtain ⟨d, z, hz, hd⟩ := ih hkey n
      refine ⟨d, z, ?_, hd⟩
      have hnone : unquiet (k :: (key ++ c :: rest)) = none := by simp [unquiet, hk]
      rw [List.cons_append, gsubQuiet, hnone]
      exact congrArg (k :: ·) hz

theorem dropQuiet_key {key : Bytes} (hkey : ∀ b ∈ key, isSpace b = false) {c : UInt8}
    (hc : isSpace c = true) (n : ℕ) (rest : Bytes) :
    ∃ d z, dropQuiet n (key ++ c :: rest) = key ++ d :: z ∧ isSpace d = true := by
  induction n generalizing c rest with
  | zero => exact ⟨c, rest, rfl, hc⟩
  | succ n ih =>
    rw [dropQuiet]
    split_ifs
    · exact ⟨c, rest, rfl, hc⟩
    · obtain ⟨d, z, hz, hd⟩ := gsubQuiet_key hkey hc (key ++ c :: rest).length rest
      rw [hz]
      exact ih hd z

theorem prefix_rstrip (line : Bytes) : rstrip line <+: line := by
  have := List.reverse_prefix.2 (List.dropWhile_suffix (l := line.reverse) isSpace)
  rwa [List.reverse_reverse] at this

/-- The options that have a flag still are options, up to the flag. -/
theorem options_kept {line : Bytes} (h : starts (text "options") line = true) {n : ℕ}
    {found : Bytes × Bytes × Bytes} (hf : findFlag (rstrip (dropQuiet n line)) = some found) :
    ∃ d z, found.1 = text "options" ++ d :: z ∧ isSpace d = true := by
  obtain ⟨c, rest, rfl, hc⟩ := starts_iff.1 h
  have hkey : ∀ b ∈ text "options", isSpace b = false ∧ b ≠ 114 := by
    simpa using List.all_eq_true.1 (by decide : (text "options").all
      (fun b => !isSpace b && b ≠ 114) = true)
  obtain ⟨d, z, hz, hd⟩ := dropQuiet_key (fun b hb => (hkey b hb).1) hc n rest
  obtain ⟨x, v, r⟩ := found
  obtain ⟨hparts, -⟩ := findFlag_eq_some hf
  rw [hz] at hparts
  -- the key and the space are in front of the flag, since neither has a letter of its first
  have hpre : x ++ [114] <+: text "options" ++ d :: z := by
    refine List.IsPrefix.trans ?_ (prefix_rstrip _)
    rw [hparts, List.append_assoc, List.append_assoc]
    exact (List.prefix_append_right_inj x).2 ⟨rootFlag.tail ++ (v ++ r), rfl⟩
  have hhead : text "options" ++ [d] <+: text "options" ++ d :: z := ⟨z, by simp⟩
  rcases List.prefix_or_prefix_of_prefix hhead hpre with h1 | h1
  · rcases List.prefix_concat_iff.1 h1 with heq | h1
    · have := (List.append_inj' heq rfl).2
      obtain rfl : d = 114 := by simpa using this
      exact absurd hd (by decide)
    · obtain ⟨y, hy⟩ := h1
      exact ⟨d, y, by rw [← hy]; simp, hd⟩
  · have hmem : (114 : UInt8) ∈ text "options" ++ [d] := h1.mem (by simp)
    rcases List.mem_append.1 hmem with hm | hm
    · exact absurd rfl (hkey _ hm).2
    · rw [← List.mem_singleton.1 hm] at hd
      exact absurd hd (by decide)

theorem mem_subvolume {name : Bytes} (hname : IsLabel name) : IsLabel (subvolume name) := by
  have hends : ∀ b ∈ text "@snapshots/" ++ text "/snapshot", isSpace b = false := by
    simpa using List.all_eq_true.1 (by decide : (text "@snapshots/" ++ text "/snapshot").all
      (!isSpace ·) = true)
  refine ⟨by simp [subvolume, hname.1], fun b hb => ?_⟩
  rw [subvolume, List.mem_append, List.mem_append] at hb
  rcases hb with (hb | hb) | hb
  · exact hends b (List.mem_append_left _ hb)
  · exact hname.2 b hb
  · exact hends b (List.mem_append_right _ hb)

section

variable {name label line line' : Bytes}

/-- What becomes of a line, by what it starts with. -/
theorem rewriteLine_eq_some (h : rewriteLine name label line = some line') :
    (starts (text "title") line = true ∧ line' = text "title AuraDE rollback (" ++ label ++ text ")") ∨
    ((starts (text "linux") line = true ∨ starts (text "initrd") line = true) ∧
      line' = word line ++ text " /aurade-rollback/" ++ name ++ 47 :: basename (word (behind line))) ∨
    (starts (text "options") line = true ∧ ∃ found,
      findFlag (rstrip (dropQuiet line.length line)) = some found ∧
      line' = found.1 ++ rootFlag ++ subvolume name ++ found.2.2) ∨
    (starts (text "linux") line = false ∧ starts (text "initrd") line = false ∧
      starts (text "options") line = false ∧ line' = line) := by
  rw [rewriteLine] at h
  split_ifs at h with h1 h2 h3
  · exact Or.inl ⟨h1, (Option.some.inj h).symm⟩
  · exact Or.inr (Or.inl ⟨by simpa using h2, (Option.some.inj h).symm⟩)
  · obtain ⟨found, hf, rfl⟩ := Option.map_eq_some_iff.1 h
    exact Or.inr (Or.inr (Or.inl ⟨h3, found, hf, rfl⟩))
  · simp only [Bool.or_eq_true, not_or, Bool.not_eq_true] at h2
    exact Or.inr (Or.inr (Or.inr ⟨h2.1, h2.2, by simpa using h3, (Option.some.inj h).symm⟩))

theorem newline_rewriteLine (hname : IsLabel name) (hlabel : IsLabel label)
    (hline : newline ∉ line) (h : rewriteLine name label line = some line') : newline ∉ line' := by
  have hword : ∀ l : Bytes, newline ∉ l → newline ∉ word l ∧ newline ∉ word (behind l) := by
    intro l hl
    have hdrop : newline ∉ l.dropWhile isBlank := fun hm => hl ((List.dropWhile_suffix _).mem hm)
    refine ⟨fun hm => hdrop ((List.takeWhile_prefix _).mem hm), fun hm => hdrop ?_⟩
    exact (List.dropWhile_suffix _).mem ((List.dropWhile_suffix _).mem ((List.takeWhile_prefix _).mem hm))
  have hnot : ∀ {n : Bytes}, IsLabel n → newline ∉ n := fun hn hm => newline_of_space (hn.2 _ hm) rfl
  rcases rewriteLine_eq_some h with ⟨-, rfl⟩ | ⟨-, rfl⟩ | ⟨-, found, hf, rfl⟩ | ⟨-, -, -, rfl⟩
  · simp only [List.mem_append, not_or]
    exact ⟨⟨by decide, hnot hlabel⟩, by decide⟩
  · simp only [List.mem_append, List.mem_cons, not_or]
    exact ⟨⟨⟨(hword line hline).1, by decide⟩, hnot hname⟩, by decide,
      fun hm => (hword line hline).2 (basename_subset _ _ hm)⟩
  · -- of the options, every byte was there or is a space
    have hkept : newline ∉ rstrip (dropQuiet line.length line) := fun hm =>
      (subset_dropQuiet _ line _ (subset_rstrip _ _ hm)).elim (by decide) hline
    have hparts := (findFlag_eq_some hf).1
    rw [hparts] at hkept
    simp only [List.mem_append, not_or] at hkept ⊢
    exact ⟨⟨⟨hkept.1.1.1, hkept.1.1.2⟩, hnot (mem_subvolume hname)⟩, hkept.2⟩
  · exact hline

/-- **The options of the new entry name the subvolume of the snapshot.** -/
theorem rewriteLine_options (hname : IsLabel name) (h : rewriteLine name label line = some line')
    (hopt : starts (text "options") line' = true) : subvolOf line' = some (subvolume name) := by
  rcases rewriteLine_eq_some h with ⟨-, rfl⟩ | ⟨hkey, rfl⟩ | ⟨-, found, hf, rfl⟩ | ⟨-, -, hno, rfl⟩
  · exact absurd hopt (by rw [List.append_assoc]; exact Bool.eq_false_iff.1 (starts_of_ne (by decide) _ _))
  · -- the first word of the line is the key, or longer
    have hhead : ∃ c rest, (c = 108 ∨ c = 105) ∧ line = c :: rest := by
      rcases hkey with hkey | hkey <;> obtain ⟨c, rest, rfl, -⟩ := starts_iff.1 hkey
      · exact ⟨108, _, Or.inl rfl, rfl⟩
      · exact ⟨105, _, Or.inr rfl, rfl⟩
    obtain ⟨c, rest, hc, rfl⟩ := hhead
    obtain ⟨w, hw⟩ := word_head (c := c) (by rcases hc with rfl | rfl <;> decide) rest
    rw [hw, List.cons_append, List.cons_append, List.cons_append] at hopt
    refine absurd hopt (Bool.eq_false_iff.1 (starts_of_ne ?_ _ _))
    rcases hc with rfl | rfl <;> decide
  · obtain ⟨x, v, r⟩ := found
    rw [subvolOf, findFlag_replace hf (mem_subvolume hname).1 (mem_subvolume hname).2]
    rfl
  · rw [hno] at hopt
    cases hopt

/-- A kernel or an initrd of the new entry is a file of the folder, or was named so before. -/
theorem rewriteLine_artifact (hname : IsLabel name) (h : rewriteLine name label line = some line')
    (hkey : word line' = text "linux" ∨ word line' = text "initrd") :
    ((word line = text "linux" ∨ word line = text "initrd") ∧ word (behind line') =
      text "/aurade-rollback/" ++ name ++ 47 :: basename (word (behind line))) ∨ line' = line := by
  have hfirst : ∀ {c : UInt8} {rest : Bytes}, isBlank c = false → c ≠ 108 → c ≠ 105 →
      line' = c :: rest → False := by
    rintro c rest hc h1 h2 rfl
    obtain ⟨w, hw⟩ := word_head hc rest
    rcases hkey with hkey | hkey <;> rw [hw] at hkey <;> exact absurd (List.cons.inj hkey).1 (by assumption)
  rcases rewriteLine_eq_some h with ⟨-, rfl⟩ | ⟨hstart, heq⟩ | ⟨hopt, found, hf, heq⟩ | ⟨-, -, -, rfl⟩
  · exact (hfirst (c := 116) (by decide) (by decide) (by decide) rfl).elim
  · have hblank : isBlank 32 = true := by decide
    have hword : word line ≠ [] := by
      rcases hstart with hstart | hstart <;> obtain ⟨c, rest, rfl, -⟩ := starts_iff.1 hstart
      · obtain ⟨w, hw⟩ := word_head (c := 108) (by decide) (text "inux" ++ c :: rest)
        exact fun h0 => by rw [show text "linux" ++ c :: rest = 108 :: (text "inux" ++ c :: rest) from rfl, hw] at h0; cases h0
      · obtain ⟨w, hw⟩ := word_head (c := 105) (by decide) (text "nitrd" ++ c :: rest)
        exact fun h0 => by rw [show text "initrd" ++ c :: rest = 105 :: (text "nitrd" ++ c :: rest) from rfl, hw] at h0; cases h0
    have hline' : line' = word line ++ 32 ::
        (text "/aurade-rollback/" ++ name ++ 47 :: basename (word (behind line))) := by
      rw [heq]
      simp only [List.append_assoc]
      rfl
    obtain ⟨h1, h2⟩ := @word_append (word line) (text "/aurade-rollback/" ++ name ++
      47 :: basename (word (behind line))) (word_blank line) hword 32 hblank
    rw [hline'] at hkey ⊢
    rw [h1] at hkey
    refine Or.inl ⟨hkey, ?_⟩
    rw [h2]
    refine word_cons ?_ (by simp) hblank
    have hpath : ∀ b ∈ text "/aurade-rollback/", isBlank b = false := by
      simpa using List.all_eq_true.1 (by decide : (text "/aurade-rollback/").all (!isBlank ·) = true)
    intro b hb
    simp only [List.mem_append, List.mem_cons] at hb
    rcases hb with (hb | hb) | rfl | hb
    · exact hpath b hb
    · exact Bool.eq_false_iff.2 fun hbl => Bool.eq_false_iff.1 (hname.2 b hb) (space_of_blank hbl)
    · decide
    · exact word_blank _ b (basename_subset _ b hb)
  · obtain ⟨d, z, hx, -⟩ := options_kept hopt hf
    refine (@hfirst 111 (text "ptions" ++ d :: z ++ rootFlag ++ subvolume name ++ found.2.2) (by decide) (by decide) (by decide) ?_).elim
    rw [heq, hx]
    rfl
  · exact Or.inr rfl

/-- The options of the normal entry become options of the new one. -/
theorem starts_rewriteLine (h : rewriteLine name label line = some line')
    (hopt : starts (text "options") line = true) : starts (text "options") line' = true := by
  obtain ⟨c, rest, rfl, hc⟩ := starts_iff.1 hopt
  have hno : ∀ {a : UInt8} (key : Bytes), a ≠ 111 →
      starts (a :: key) (text "options" ++ c :: rest) = false := fun key ha =>
    starts_of_ne ha key (text "ptions" ++ c :: rest)
  rcases rewriteLine_eq_some h with ⟨hs, -⟩ | ⟨hs | hs, -⟩ | ⟨-, found, hf, rfl⟩ | ⟨-, -, -, rfl⟩
  · exact absurd hs (Bool.eq_false_iff.1 (hno (a := 116) _ (by decide)))
  · exact absurd hs (Bool.eq_false_iff.1 (hno (a := 108) _ (by decide)))
  · exact absurd hs (Bool.eq_false_iff.1 (hno (a := 105) _ (by decide)))
  · obtain ⟨d, z, hx, hd⟩ := options_kept hopt hf
    rw [hx]
    exact starts_iff.2 ⟨d, z ++ rootFlag ++ subvolume name ++ found.2.2, by simp, hd⟩
  · exact hopt

end

/-! ### The entry as a whole -/

section

variable {name label entry new : Bytes}

theorem mapM_eq_some {α β : Type} {f : α → Option β} {as : List α} {bs : List β}
    (h : as.mapM f = some bs) : List.Forall₂ (fun a b => f a = some b) as bs := by
  induction as generalizing bs with
  | nil =>
    obtain rfl : [] = bs := by simpa using h
    exact .nil
  | cons a as ih =>
    simp only [List.mapM_cons, Option.bind_eq_bind, Option.bind_eq_some_iff, Option.pure_def,
      Option.some.injEq] at h
    obtain ⟨b, hb, bs', hbs, rfl⟩ := h
    exact .cons hb (ih hbs)

theorem exists_of_forall₂ {α β : Type} {R : α → β → Prop} {as : List α} {bs : List β}
    (h : List.Forall₂ R as bs) : (∀ b ∈ bs, ∃ a ∈ as, R a b) ∧ ∀ a ∈ as, ∃ b ∈ bs, R a b := by
  induction h with
  | nil => simp
  | cons hab _ ih =>
    constructor
    · refine List.forall_mem_cons.2 ⟨⟨_, List.mem_cons_self, hab⟩, fun b hb => ?_⟩
      obtain ⟨a, ha, hR⟩ := ih.1 b hb
      exact ⟨a, List.mem_cons_of_mem _ ha, hR⟩
    · refine List.forall_mem_cons.2 ⟨⟨_, List.mem_cons_self, hab⟩, fun a ha => ?_⟩
      obtain ⟨b, hb, hR⟩ := ih.2 a ha
      exact ⟨b, List.mem_cons_of_mem _ hb, hR⟩

/-- The lines of the new entry are those of the old one, rewritten. -/
theorem records_rewrite (hname : IsLabel name) (hlabel : IsLabel label)
    (h : rewrite name label entry = some new) :
    List.Forall₂ (fun line line' => rewriteLine name label line = some line') (records entry)
      (records new) := by
  obtain ⟨lines, hlines, rfl⟩ := Option.map_eq_some_iff.1 h
  have hall := mapM_eq_some hlines
  have hnewline : ∀ l ∈ lines, newline ∉ l := by
    intro l hl
    obtain ⟨line, hmem, hline⟩ := (exists_of_forall₂ hall).1 l hl
    exact newline_rewriteLine hname hlabel (newline_notMem hmem) hline
  rwa [records_lines hnewline]

/-- The subvolumes that the options of an entry name, line by line. -/
def subvolumes (entry : Bytes) : List (Option Bytes) :=
  ((records entry).filter (starts (text "options"))).map subvolOf

/-- **The new entry names the subvolume of the snapshot**, in every line of options, and there is one
where the normal entry has one. -/
theorem subvolumes_rewrite (hname : IsLabel name) (hlabel : IsLabel label)
    (h : rewrite name label entry = some new) :
    (∀ v ∈ subvolumes new, v = some (subvolume name)) ∧
      ((∃ line ∈ records entry, starts (text "options") line = true) → subvolumes new ≠ []) := by
  obtain ⟨hback, hforth⟩ := exists_of_forall₂ (records_rewrite hname hlabel h)
  constructor
  · intro v hv
    obtain ⟨line', hline', rfl⟩ := List.mem_map.1 hv
    obtain ⟨hmem, hopt⟩ := List.mem_filter.1 hline'
    obtain ⟨line, -, hline⟩ := hback line' hmem
    exact rewriteLine_options hname hline hopt
  · rintro ⟨line, hmem, hopt⟩ hnil
    obtain ⟨line', hmem', hline⟩ := hforth line hmem
    have : subvolOf line' ∈ subvolumes new :=
      List.mem_map_of_mem (List.mem_filter.2 ⟨hmem', starts_rewriteLine hline hopt⟩)
    rw [hnil] at this
    cases this

/-- **What the new entry loads** is a file of the folder for one that the normal entry loads, or one
that this loads. -/
theorem artifacts_rewrite (hname : IsLabel name) (hlabel : IsLabel label)
    (h : rewrite name label entry = some new) {artifact : Bytes} (ha : artifact ∈ artifacts new) :
    artifact ∈ artifacts entry ∨ ∃ old ∈ artifacts entry,
      artifact = text "/aurade-rollback/" ++ name ++ 47 :: basename old := by
  obtain ⟨line', hmem', hline'⟩ := List.mem_filterMap.1 ha
  have hlisted : ∀ {line : Bytes}, line ∈ records entry →
      word line = text "linux" ∨ word line = text "initrd" → word (behind line) ∈ artifacts entry :=
    fun hmem hkey => List.mem_filterMap.2 ⟨_, hmem, if_pos hkey⟩
  split_ifs at hline' with hkey
  obtain rfl := Option.some.inj hline'
  obtain ⟨line, hmem, hline⟩ := (exists_of_forall₂ (records_rewrite hname hlabel h)).1 line' hmem'
  rcases rewriteLine_artifact hname hline hkey with ⟨hkey', heq⟩ | rfl
  · exact Or.inr ⟨_, hlisted hmem hkey', heq⟩
  · exact Or.inl (hlisted hmem hkey)

end

end Aurade.Recovery
