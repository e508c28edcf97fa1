import Aurade.Foundations.Percent
import Aurade.Foundations.Text
import Aurade.Stores.Places

/-!
# The records of the trash

The text of a `.trashinfo` file, as `trash` writes it and as `list` and `restore` read it: the path
it is of is a line of it, percent encoded. A path is any bytes, so the writing leaves only bytes that
no reader takes for anything else (`Plain`), and `restored_record` says that what is read is the path.
-/

namespace Aurade.Ops.Trash

/-! ## Writing -/

/-- The bytes that `encode_path` leaves alone: letters, digits, `-`, `_`, `.`, `~` and the slash. -/
def unreserved (b : UInt8) : Bool :=
  isDigit b || (65 ≤ b && b ≤ 90) || (97 ≤ b && b ≤ 122) || b = 45 || b = 95 || b = 46 || b = 126 ||
    b = 47

def encodePath (path : Bytes) : Bytes := percentEncode unreserved path

/-- `civil_from_days`: year, month and day. -/
def civilFromDays (days : ℤ) : ℤ × ℕ × ℕ :=
  let z := days + 719468
  let era := z / 146097
  let doe := z % 146097
  let yoe := (doe - doe.tdiv 1460 + doe.tdiv 36524 - doe.tdiv 146096).tdiv 365
  let y := yoe + era * 400
  let doy := doe - (365 * yoe + yoe.tdiv 4 - yoe.tdiv 100)
  let mp := (5 * doy + 2).tdiv 153
  let d := (doy - (153 * mp + 2).tdiv 5 + 1).toNat
  let m := (if mp < 10 then mp + 3 else mp - 9).toNat
  (if m ≤ 2 then y + 1 else y, m, d)

/-- `now_stamp`, at so many seconds after 1970. -/
def nowStamp (secs : ℤ) : Bytes :=
  let date := civilFromDays (secs / 86400)
  let rest := (secs % 86400).toNat
  Stores.signed 4 date.1 ++ 45 :: padded 2 date.2.1 ++ 45 :: padded 2 date.2.2 ++ 84 ::
    padded 2 (rest / 3600) ++ 58 :: padded 2 (rest % 3600 / 60) ++ 58 :: padded 2 (rest % 60)

def pathField : Bytes := text "Path="

def dateField : Bytes := text "DeletionDate="

/-- What `trash` writes into the record. -/
def record (path : Bytes) (secs : ℤ) : Bytes :=
  text "[Trash Info]" ++ newline :: (pathField ++ encodePath path ++ newline ::
    (dateField ++ nowStamp secs ++ newline :: []))

/-! ## Reading -/

/-- `decode_path`. The two bytes behind a percent sign are a number where they are a string. -/
def decodePath : Bytes → Bytes
  | p :: a :: b :: rest =>
    if p = 37 then
      match if Utf8.valid [a, b] then fromStrRadix16 [a, b] else none with
      | some x => x :: decodePath rest
      | none => p :: decodePath (a :: b :: rest)
    else p :: decodePath (a :: b :: rest)
  | bs => bs

/-- `strip_prefix` -/
def stripPrefix (pre line : Bytes) : Option Bytes :=
  if pre <+: line then some (line.drop pre.length) else none

/-- One line of the loop of `list` over a record: the path and the date so far. -/
def readLine (found : Bytes × Bytes) (line : Bytes) : Bytes × Bytes :=
  match stripPrefix pathField line with
  | some v => (decodePath (trimBytes v), found.2)
  | none =>
    match stripPrefix dateField line with
    | some v => (found.1, trimBytes v)
    | none => found

/-- The path and the date that `list` reads from a record; nothing where it is no UTF-8. -/
def listed (file : Bytes) : Option (Bytes × Bytes) :=
  if Utf8.valid file then some ((lines file).foldl readLine ([], [])) else none

/-- The path that `restore` reads from a record. -/
def restored (file : Bytes) : Option Bytes :=
  if Utf8.valid file then
    ((lines file).findSome? (stripPrefix pathField)).map fun v => decodePath (trimBytes v)
  else none

/-! ## A path is read back -/

/-- A byte that a record may hold in a line: of ASCII, and not white. -/
def Plain (b : UInt8) : Prop := 32 < b ∧ b < 0x80

instance (b : UInt8) : Decidable (Plain b) := inferInstanceAs (Decidable (_ ∧ _))

theorem Plain.solid {b : UInt8} (h : Plain b) : Solid b := by
  revert b
  have hall : ∀ b : UInt8, decide (Plain b → ∀ p ∈ spaces, b ∉ p) = true :=
    forall_byte (by decide +kernel)
  exact fun {b} => of_decide_eq_true (hall b)

theorem plain_unreserved {b : UInt8} (h : unreserved b = true) : Plain b ∧ b ≠ 37 := by
  revert b
  have hall : ∀ b : UInt8, decide (unreserved b = true → Plain b ∧ b ≠ 37) = true :=
    forall_byte (by decide +kernel)
  exact fun {b} => of_decide_eq_true (hall b)

theorem plain_hexUpper (b : UInt8) :
    Plain (hexUpper (b.toNat / 16)) ∧ Plain (hexUpper (b.toNat % 16)) ∧
      Utf8.valid [hexUpper (b.toNat / 16), hexUpper (b.toNat % 16)] = true := by
  revert b
  exact forall_byte (by decide +kernel)

theorem encodePath_cons (b : UInt8) (path : Bytes) : encodePath (b :: path) =
    (if unreserved b then [b] else [37, hexUpper (b.toNat / 16), hexUpper (b.toNat % 16)]) ++
      encodePath path := by
  rw [encodePath, percentEncode, List.flatMap_cons]
  rfl

theorem plain_encodePath (path : Bytes) : ∀ c ∈ encodePath path, Plain c := by
  induction path with
  | nil => exact fun c hc => absurd hc List.not_mem_nil
  | cons b path ih =>
    obtain ⟨hhigh, hlow, -⟩ := plain_hexUpper b
    intro c hc
    rw [encodePath_cons] at hc
    obtain hc | hc := List.mem_append.1 hc
    · split_ifs at hc with hb
      · rw [List.mem_singleton.1 hc]
        exact (plain_unreserved hb).1
      · rcases List.mem_cons.1 hc with rfl | hc
        · decide
        rcases List.mem_cons.1 hc with rfl | hc
        · exact hhigh
        · rw [List.mem_singleton.1 hc]
          exact hlow
    · exact ih c hc

theorem decodePath_cons {p : UInt8} (hp : p ≠ 37) (bs : Bytes) :
    decodePath (p :: bs) = p :: decodePath bs := by
  rcases bs with _ | ⟨a, _ | ⟨b, rest⟩⟩
  · rfl
  · rfl
  · rw [decodePath, if_neg hp]

/-- What is encoded is read back. -/
theorem decodePath_encodePath (path : Bytes) : decodePath (encodePath path) = path := by
  induction path with
  | nil => rfl
  | cons b path ih =>
    rw [encodePath_cons]
    split_ifs with hb
    · rw [List.singleton_append, decodePath_cons (plain_unreserved hb).2, ih]
    · obtain ⟨hbyte, hplus, -, -⟩ := hexByte_hexUpper b
      obtain ⟨-, -, hvalid⟩ := plain_hexUpper b
      rw [List.cons_append, List.cons_append, List.cons_append, List.nil_append, decodePath,
        if_pos rfl, if_pos hvalid, fromStrRadix16_pair, if_neg hplus, hbyte]
      exact congrArg (b :: ·) ih

theorem plain_digit {b : UInt8} (h : isDigit b = true) : Plain b := by
  revert b
  have hall : ∀ b : UInt8, decide (isDigit b = true → Plain b) = true :=
    forall_byte (by decide +kernel)
  exact fun {b} => of_decide_eq_true (hall b)

theorem plain_padded (width n : ℕ) : ∀ c ∈ padded width n, Plain c := fun c hc =>
  plain_digit (List.all_eq_true.1 (all_isDigit_padded width n) c hc)

theorem plain_nowStamp (secs : ℤ) : ∀ c ∈ nowStamp secs, Plain c := by
  have hsigned : ∀ n : ℤ, ∀ c ∈ Stores.signed 4 n, Plain c := fun n => by
    rw [Stores.signed]
    split_ifs
    · exact List.forall_mem_cons.2 ⟨by decide, plain_padded _ _⟩
    · exact plain_padded _ _
  have hpadded := plain_padded
  simp only [nowStamp, List.forall_mem_append, List.forall_mem_cons]
  exact ⟨⟨⟨⟨⟨hsigned _, by decide, hpadded _ _⟩, by decide, hpadded _ _⟩, by decide, hpadded _ _⟩,
    by decide, hpadded _ _⟩, by decide, hpadded _ _⟩

/-- A line that holds no carriage return is read as it is. -/
theorem lines_line {line : Bytes} (hline : newline ∉ line) (hcr : 13 ∉ line) (rest : Bytes) :
    lines (line ++ newline :: rest) = line :: lines rest := by
  have hchomp : chomp line = line := if_neg fun h => hcr (List.mem_of_getLast? h)
  rw [lines_append_newline, List.splitOn_eq_singleton hline, List.map_singleton, hchomp,
    List.singleton_append]

/-- The fields of a record are plain behind their names. -/
theorem lines_record (path : Bytes) (secs : ℤ) : lines (record path secs) =
    [text "[Trash Info]", pathField ++ encodePath path, dateField ++ nowStamp secs] := by
  have hplain : ∀ {c : UInt8}, ¬ Plain c → ∀ {field value : Bytes}, c ∉ field →
      (∀ b ∈ value, Plain b) → c ∉ field ++ value := by
    intro c hc field value hfield hvalue h
    obtain h | h := List.mem_append.1 h
    · exact hfield h
    · exact hc (hvalue _ h)
  have hpath := plain_encodePath path
  have hstamp := plain_nowStamp secs
  rw [record, lines_line (by decide) (by decide),
    lines_line (hplain (by decide) (by decide) hpath)
      (hplain (by decide) (by decide) hpath),
    lines_line (hplain (by decide) (by decide) hstamp)
      (hplain (by decide) (by decide) hstamp), lines_nil]

theorem valid_record (path : Bytes) (secs : ℤ) : Utf8.valid (record path secs) = true := by
  have hascii : ∀ c ∈ record path secs, c < 0x80 := by
    have htext : ∀ c ∈ text "[Trash Info]", c < 0x80 := by decide +kernel
    have hpath : ∀ c ∈ pathField, c < 0x80 := by decide +kernel
    have hdate : ∀ c ∈ dateField, c < 0x80 := by decide +kernel
    simp only [record, List.forall_mem_append, List.forall_mem_cons]
    exact ⟨htext, by decide, ⟨hpath, fun c hc => (plain_encodePath path c hc).2⟩, by decide,
      ⟨hdate, fun c hc => (plain_nowStamp secs c hc).2⟩, by decide, fun c hc => absurd hc List.not_mem_nil⟩
  exact (Utf8.valid_append_of_ascii hascii []).trans rfl

theorem stripPrefix_append (pre line : Bytes) : stripPrefix pre (pre ++ line) = some line := by
  rw [stripPrefix, if_pos (List.prefix_append _ _), List.drop_left]

theorem trimBytes_encodePath (path : Bytes) : trimBytes (encodePath path) = encodePath path :=
  trimBytes_solid fun b hb => (plain_encodePath path b hb).solid

/-- **The path of a record is one line of it, and is read back byte for byte.** -/
theorem restored_record (path : Bytes) (secs : ℤ) :
    (lines (record path secs)).filter (pathField.isPrefixOf ·) = [pathField ++ encodePath path] ∧
      (listed (record path secs)).map Prod.fst = some path ∧
      restored (record path secs) = some path := by
  have hinfo : pathField.isPrefixOf (text "[Trash Info]") = false := by decide
  have hself : pathField.isPrefixOf (pathField ++ encodePath path) = true :=
    List.isPrefixOf_iff_prefix.2 (List.prefix_append _ _)
  have hdate : pathField.isPrefixOf (dateField ++ nowStamp secs) = false := rfl
  have hnone : ∀ {l}, pathField.isPrefixOf l = false → stripPrefix pathField l = none := fun h =>
    if_neg fun hpre => by rw [List.isPrefixOf_iff_prefix.2 hpre] at h; cases h
  have hread : decodePath (trimBytes (encodePath path)) = path := by
    rw [trimBytes_encodePath, decodePath_encodePath]
  refine ⟨?_, ?_, ?_⟩
  · rw [lines_record, List.filter_cons, hinfo, List.filter_cons, hself, List.filter_cons, hdate]
    rfl
  · have hother : stripPrefix dateField (text "[Trash Info]") = none := by decide
    have hfirst : readLine ([], []) (text "[Trash Info]") = ([], []) := by
      rw [readLine, hnone hinfo]
      dsimp only
      rw [hother]
    have hsecond : readLine ([], []) (pathField ++ encodePath path) = (path, []) := by
      rw [readLine, stripPrefix_append]
      exact congrArg (·, ([] : Bytes)) hread
    have hthird : readLine (path, []) (dateField ++ nowStamp secs) =
        (path, trimBytes (nowStamp secs)) := by
      rw [readLine, hnone hdate]
      dsimp only
      rw [stripPrefix_append]
    rw [listed, if_pos (valid_record path secs), lines_record, List.foldl_cons, hfirst,
      List.foldl_cons, hsecond, List.foldl_cons, hthird]
    rfl
  · rw [restored, if_pos (valid_record path secs), lines_record, List.findSome?_cons, hnone hinfo,
      List.findSome?_cons, stripPrefix_append]
    exact congrArg some hread

end Aurade.Ops.Trash
