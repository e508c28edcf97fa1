import Aurade.Foundations.Text

/-!
# Keyfiles

A keyfile has groups, and in a group keys with values. The blanks before a value are dropped, and
backslashes in it stand for other characters; a value that is a list of numbers may be read as bytes.

A writer that writes values as they are is read back where they are `Plain`, and nowhere else
(`readValue_eq_self_iff`): whatever reading changes in a value makes it shorter. Of a file written line by
line, a value is found under its group and its key (`lookup_eq_some`).
-/

namespace Aurade.Keyfile

/-- The white space dropped before a value. -/
def blank (b : UInt8) : Bool := b = 32 || (9 ≤ b && b ≤ 13)

/-- What a backslash and a character stand for. -/
def escapeOf (c : UInt8) : Option UInt8 :=
  if c = 115 then some 32
  else if c = 110 then some 10
  else if c = 116 then some 9
  else if c = 114 then some 13
  else if c = 92 then some 92
  else none

/-- A value without its escapes, where all are known. -/
def unescape : Bytes → Option Bytes
  | [] => some []
  | [b] => if b = 92 then none else some [b]
  | b :: c :: rest =>
    if b = 92 then (escapeOf c).bind fun x => (unescape rest).map (x :: ·)
    else (unescape (c :: rest)).map (b :: ·)

/-- A value as it is read. -/
def readValue (value : Bytes) : Option Bytes := unescape (value.dropWhile blank)

/-- A value that has no blank in front and no backslash. -/
def Plain (v : Bytes) : Prop := (∀ b, v.head? = some b → blank b = false) ∧ 92 ∉ v

theorem unescape_length {v w : Bytes} (h : unescape v = some w) :
    w.length ≤ v.length ∧ (w.length = v.length → w = v ∧ 92 ∉ v) := by
  fun_induction unescape v generalizing w with
  | case1 =>
    cases h
    exact ⟨le_rfl, fun _ => ⟨rfl, List.not_mem_nil⟩⟩
  | case2 => cases h
  | case3 b hb =>
    cases h
    exact ⟨le_rfl, fun _ => ⟨rfl, fun hmem => hb (List.mem_singleton.1 hmem).symm⟩⟩
  | case4 c rest ih =>
    obtain ⟨x, -, hx⟩ := Option.bind_eq_some_iff.1 h
    obtain ⟨w', hw', rfl⟩ := Option.map_eq_some_iff.1 hx
    have := (ih hw').1
    simp only [List.length_cons]
    exact ⟨by omega, fun heq => absurd heq (by omega)⟩
  | case5 b c rest hb ih =>
    obtain ⟨w', hw', rfl⟩ := Option.map_eq_some_iff.1 h
    obtain ⟨hle, heq⟩ := ih hw'
    refine ⟨Nat.succ_le_succ hle, fun hlen => ?_⟩
    obtain ⟨rfl, hmem⟩ := heq (Nat.succ.inj hlen)
    exact ⟨rfl, fun h => (List.mem_cons.1 h).elim (fun h => hb h.symm) hmem⟩

theorem unescape_of_notMem {v : Bytes} (h : 92 ∉ v) : unescape v = some v := by
  fun_induction unescape v with
  | case1 => rfl
  | case2 => exact absurd List.mem_cons_self h
  | case3 b hb => rfl
  | case4 c rest ih => exact absurd List.mem_cons_self h
  | case5 b c rest hb ih => rw [ih (List.not_mem_of_not_mem_cons h), Option.map_some]

theorem dropWhile_blank_of_plain {v : Bytes} (h : Plain v) : v.dropWhile blank = v := by
  cases v with
  | nil => rfl
  | cons b v => exact List.dropWhile_cons_of_neg (by simp [h.1 b rfl])

theorem readValue_of_plain {v : Bytes} (h : Plain v) : readValue v = some v := by
  rw [readValue, dropWhile_blank_of_plain h, unescape_of_notMem h.2]

/-- Reading makes a value shorter, or leaves it as it is. -/
theorem readValue_length {v w : Bytes} (h : readValue v = some w) :
    w.length ≤ v.length ∧ (w.length = v.length → w = v ∧ Plain v) := by
  obtain ⟨hle, heq⟩ := unescape_length h
  have hdrop := (List.dropWhile_sublist (l := v) blank).length_le
  refine ⟨hle.trans hdrop, fun hlen => ?_⟩
  obtain ⟨rfl, hmem⟩ := heq (by omega)
  have hv : v.dropWhile blank = v := (List.dropWhile_sublist blank).eq_of_length hlen
  refine ⟨hv, fun b hb => ?_, hv ▸ hmem⟩
  obtain ⟨rest, rfl⟩ := List.head?_eq_some_iff.1 hb
  by_contra hblank
  rw [List.dropWhile_cons_of_pos (by simpa using hblank)] at hv
  have := (List.dropWhile_sublist (l := rest) blank).length_le
  rw [hv, List.length_cons] at this
  omega

/-- **What is written as it is, is read as it is exactly where it is plain.** -/
theorem readValue_eq_self_iff {v : Bytes} : readValue v = some v ↔ Plain v :=
  ⟨fun h => ((readValue_length h).2 rfl).2, readValue_of_plain⟩

/-! ## Lists of numbers -/

/-- The numbers of a list, each ended by a semicolon, as bytes; `acc` is the number so far. -/
def numbersFrom : Option ℕ → Bytes → Option Bytes
  | acc, [] => if acc = none then some [] else none
  | acc, b :: rest =>
    if b = 59 then
      acc.bind fun n => if n ≤ 255 then (numbersFrom none rest).map (UInt8.ofNat n :: ·) else none
    else if isDigit b then numbersFrom (some (10 * acc.getD 0 + (b.toNat - 48))) rest
    else none

/-- The bytes that a value is a list of. -/
def numberList (v : Bytes) : Option Bytes := if v = [] then none else numbersFrom none v

example : numberList (text "104;105;") = some (text "hi") ∧ numberList (text "104;x") = none := by decide

theorem numbersFrom_length {acc : Option ℕ} {v w : Bytes} (h : numbersFrom acc v = some w) :
    2 * w.length ≤ v.length + acc.toList.length := by
  induction v generalizing acc w with
  | nil =>
    rw [numbersFrom] at h
    split at h
    · cases h
      exact Nat.zero_le _
    · cases h
  | cons b v ih =>
    rw [numbersFrom] at h
    split at h
    · obtain ⟨n, rfl, hn⟩ := Option.bind_eq_some_iff.1 h
      split at hn
      · obtain ⟨w', hw', rfl⟩ := Option.map_eq_some_iff.1 hn
        have := ih hw'
        simp only [List.length_cons, Option.toList_none, Option.toList_some, List.length_nil] at this ⊢
        omega
      · cases hn
    · split at h
      · have := ih h
        simp only [List.length_cons, Option.toList_some, List.length_nil] at this ⊢
        omega
      · cases h

/-- The bytes are fewer than the characters. -/
theorem numberList_length {v w : Bytes} (h : numberList v = some w) : w.length < v.length := by
  unfold numberList at h
  split at h
  · cases h
  · next hne =>
    have := numbersFrom_length h
    have := List.length_pos_iff.2 hne
    simp only [Option.toList_none, List.length_nil] at *
    omega

/-- A value that may be a list of numbers. -/
def readBytes (value : Bytes) : Option Bytes := (readValue value).map fun v => (numberList v).getD v

/-- **What is written as it is, is read as bytes as it is exactly where it is plain and no list of
numbers.** -/
theorem readBytes_eq_self_iff {v : Bytes} :
    readBytes v = some v ↔ Plain v ∧ numberList v = none := by
  constructor
  · intro h
    obtain ⟨w, hw, hv⟩ := Option.map_eq_some_iff.1 h
    obtain ⟨hle, heq⟩ := readValue_length hw
    cases hn : numberList w with
    | none =>
      rw [hn, Option.getD_none] at hv
      subst hv
      exact ⟨(heq rfl).2, hn⟩
    | some bytes =>
      rw [hn, Option.getD_some] at hv
      have := numberList_length hn
      rw [hv] at this
      omega
  · rintro ⟨hplain, hn⟩
    rw [readBytes, readValue_of_plain hplain, Option.map_some, hn, Option.getD_none]

/-! ## Groups -/

/-- A value with its group and its key. -/
structure Entry where
  group : Bytes
  key : Bytes
  value : Bytes
  deriving DecidableEq

/-- The entries of lines, in a group. -/
def entriesFrom : Bytes → List Bytes → List Entry
  | _, [] => []
  | group, line :: rest =>
    if line.head? = some 91 then entriesFrom (line.tail.takeWhile (· ≠ 93)) rest
    else if line.head? = some 35 then entriesFrom group rest
    else
      match splitOnce 61 line with
      | some (key, value) => ⟨group, key, value⟩ :: entriesFrom group rest
      | none => entriesFrom group rest

/-- The entries of a file. -/
def entries (file : Bytes) : List Entry := entriesFrom [] (file.splitOn newline)

/-- What a file has under a key. -/
def lookup (file : Bytes) (group key : String) : Option Bytes :=
  ((entries file).find? fun e => e.group = text group ∧ e.key = text key).map Entry.value

/-! ## Lines that are written -/

/-- The line that begins a group. -/
def groupLine (name : Bytes) : Bytes := 91 :: (name ++ [93])

/-- The line of a value. -/
def keyLine (key value : Bytes) : Bytes := key ++ 61 :: value

/-- A key that can be written as it is. -/
structure Keyable (key : Bytes) : Prop where
  ne_nil : key ≠ []
  not_group : key.head? ≠ some 91
  not_comment : key.head? ≠ some 35
  no_equals : 61 ∉ key

/-- The key of a line. -/
def keyOf (line : Bytes) : Option Bytes := (splitOnce 61 line).map Prod.fst

/-- Lines that give a key no value. -/
def Unkeyed (key : Bytes) (lines : List Bytes) : Prop := ∀ line ∈ lines, keyOf line ≠ some key

/-- A file of lines. -/
def ofLines (lines : List Bytes) : Bytes := lines.flatMap fun l => l ++ [newline]

theorem entriesFrom_groupLine {name : Bytes} (h : 93 ∉ name) (group : Bytes) (rest : List Bytes) :
    entriesFrom group (groupLine name :: rest) = entriesFrom name rest := by
  have htake : (name ++ [93]).takeWhile (· ≠ 93) = name := by
    have hall : ∀ b ∈ name, decide (b ≠ 93) = true := fun b hb =>
      decide_eq_true fun heq : b = 93 => h (heq ▸ hb)
    rw [List.takeWhile_append_of_pos hall]
    exact List.append_nil name
  rw [entriesFrom, groupLine, List.head?_cons, if_pos rfl, List.tail_cons, htake]

theorem splitOnce_keyLine {key : Bytes} (h : 61 ∉ key) (value : Bytes) :
    splitOnce 61 (keyLine key value) = some (key, value) := splitOnce_append h value

@[simp] theorem keyOf_nil : keyOf [] = none := rfl

theorem keyOf_keyLine {key : Bytes} (h : 61 ∉ key) (value : Bytes) :
    keyOf (keyLine key value) = some key := by
  rw [keyOf, splitOnce_keyLine h, Option.map_some]

@[simp] theorem newline_mem_keyLine {key value : Bytes} :
    newline ∈ keyLine key value ↔ newline ∈ key ∨ newline ∈ value := by
  simp [keyLine, newline]

@[simp] theorem newline_mem_groupLine {name : Bytes} : newline ∈ groupLine name ↔ newline ∈ name := by
  simp [groupLine, newline]

theorem head_keyLine {key : Bytes} (h : key ≠ []) (value : Bytes) :
    (keyLine key value).head? = key.head? := by
  obtain ⟨b, key, rfl⟩ := List.exists_cons_of_ne_nil h
  rfl

theorem entriesFrom_keyLine {key : Bytes} (h : Keyable key) (group value : Bytes) (rest : List Bytes) :
    entriesFrom group (keyLine key value :: rest) = ⟨group, key, value⟩ :: entriesFrom group rest := by
  have hhead := head_keyLine h.ne_nil value
  rw [entriesFrom, hhead, if_neg h.not_group, if_neg h.not_comment, splitOnce_keyLine h.no_equals]

/-- What is looked for by its key is not among lines that do not give it a value. -/
theorem find_entriesFrom_unkeyed {key : Bytes} {before : List Bytes} (h : Unkeyed key before)
    (wanted group : Bytes) (rest : List Bytes) : ∃ group',
    (entriesFrom group (before ++ rest)).find? (fun e => e.group = wanted ∧ e.key = key) =
      (entriesFrom group' rest).find? fun e => e.group = wanted ∧ e.key = key := by
  induction before generalizing group with
  | nil => exact ⟨group, rfl⟩
  | cons line before ih =>
    have ih := ih fun l hl => h l (List.mem_cons_of_mem line hl)
    rw [List.cons_append, entriesFrom]
    split
    · exact ih _
    · split
      · exact ih group
      · split
        · next k value heq =>
          obtain ⟨group', h'⟩ := ih group
          have hk : k ≠ key := fun hk => h line List.mem_cons_self (by rw [keyOf, heq, hk, Option.map_some])
          exact ⟨group', by rw [List.find?_cons_of_neg (by simp [hk]), h']⟩
        · exact ih group

/-- Lines that begin no group leave it as it is. -/
theorem find_entriesFrom_in_group {key : Bytes} {between : List Bytes} (h : Unkeyed key between)
    (hgroup : ∀ line ∈ between, line.head? ≠ some 91) (wanted group : Bytes) (rest : List Bytes) :
    (entriesFrom group (between ++ rest)).find? (fun e => e.group = wanted ∧ e.key = key) =
      (entriesFrom group rest).find? fun e => e.group = wanted ∧ e.key = key := by
  induction between with
  | nil => rfl
  | cons line between ih =>
    have ih := ih (fun l hl => h l (List.mem_cons_of_mem line hl))
      fun l hl => hgroup l (List.mem_cons_of_mem line hl)
    rw [List.cons_append, entriesFrom, if_neg (hgroup line List.mem_cons_self)]
    split
    · exact ih
    · split
      · next k value heq =>
        have hk : k ≠ key := fun hk => h line List.mem_cons_self (by rw [keyOf, heq, hk, Option.map_some])
        rw [List.find?_cons_of_neg (by simp [hk]), ih]
      · exact ih

theorem entries_ofLines {lines : List Bytes} (h : ∀ l ∈ lines, newline ∉ l) :
    entries (ofLines lines) = entriesFrom [] (lines ++ [[]]) := by
  rw [entries, ofLines, splitOn_flatMap_lines h]

theorem unkeyed_nil_line (key : Bytes) : Unkeyed key [[]] := by
  intro line hline h
  rw [List.mem_singleton.1 hline] at h
  cases h

/-- **A key that no line gives a value has none.** -/
theorem lookup_eq_none {lines : List Bytes} (hl : ∀ l ∈ lines, newline ∉ l) {group key : String}
    (h : Unkeyed (text key) lines) : lookup (ofLines lines) group key = none := by
  have hall : Unkeyed (text key) (lines ++ [[]]) := fun l hmem =>
    (List.mem_append.1 hmem).elim (h l) (unkeyed_nil_line _ l)
  obtain ⟨group', h'⟩ := find_entriesFrom_unkeyed hall (text group) [] []
  rw [List.append_nil] at h'
  rw [lookup, entries_ofLines hl, h']
  rfl

/-- **A value is found under its group and its key**, where no line before gives the key another. -/
theorem lookup_eq_some {before between rest : List Bytes} {group key : String} {value : Bytes}
    (hl : ∀ l ∈ before ++ groupLine (text group) :: (between ++ keyLine (text key) value :: rest),
      newline ∉ l)
    (hgroup : 93 ∉ text group) (hkey : Keyable (text key)) (hbefore : Unkeyed (text key) before)
    (hbetween : Unkeyed (text key) between) (hno : ∀ line ∈ between, line.head? ≠ some 91) :
    lookup (ofLines (before ++ groupLine (text group) :: (between ++ keyLine (text key) value :: rest)))
      group key = some value := by
  rw [lookup, entries_ofLines hl, List.append_assoc]
  obtain ⟨group', h'⟩ := find_entriesFrom_unkeyed hbefore (text group) []
    (groupLine (text group) :: (between ++ keyLine (text key) value :: rest) ++ [[]])
  rw [h', List.cons_append, entriesFrom_groupLine hgroup, List.append_assoc,
    find_entriesFrom_in_group hbetween hno, List.cons_append, entriesFrom_keyLine hkey,
    List.find?_cons_of_pos (by simp)]
  rfl

end Aurade.Keyfile
