import Mathlib.Data.Int.Log
import Mathlib.Data.Rat.Floor
import Aurade.Foundations.Chars
import Aurade.Ops.Search

/-!
# Reading a search query

What the search box holds is cut into tokens, and each token adds to the query: a name term, a filter
(`ext:`, `kind:`, `tag:`, `size:`, `modified:`, `content:`), or, after a dash, a name that is not
wanted. The quotes are gone before the dash and the colon are looked at, and only a name is ever
negated.

`NameTerm` is what is left of a token that is looked for as it stands. `excludes_iff` says that these
are the tokens a dash excludes and the quoted runs that are looked for as they stand.
-/

namespace Aurade.Ops.Search

open Fs

/-! ## Tokens -/

/-- `char::is_whitespace`. -/
def isWhitespace (c : Char) : Bool :=
  let n := c.toNat
  (9 ≤ n && n ≤ 13) || (0x2000 ≤ n && n ≤ 0x200a) ||
    [0x20, 0x85, 0xa0, 0x1680, 0x2028, 0x2029, 0x202f, 0x205f, 0x3000].contains n

/-- The loop of `tokenize`: the token so far, whether a quote is open, and whether one was. -/
def scan : Str → Str → Bool → Bool → List Str
  | [], current, _, quoted => if current ≠ [] || quoted then [current] else []
  | c :: rest, current, inQuotes, quoted =>
    if c = '"' then scan rest current (!inQuotes) true
    else if isWhitespace c && !inQuotes then
      if current ≠ [] || quoted then current :: scan rest [] inQuotes false
      else scan rest current inQuotes quoted
    else scan rest (current ++ [c]) inQuotes quoted

/-- `tokenize`. -/
def tokenize (input : Str) : List Str := scan input [] false false

/-- Every quote of a string is closed in it. -/
def Closed (s : Str) : Prop := Even (s.count '"')

/-- No whitespace is outside the quotes; `inQuotes` is whether one is open before the string. -/
def Whole : Str → Bool → Prop
  | [], _ => True
  | c :: rest, inQuotes =>
    if c = '"' then Whole rest (!inQuotes)
    else (isWhitespace c = true → inQuotes = true) ∧ Whole rest inQuotes

/-- A string without its quotes. -/
def unquoted (s : Str) : Str := s.filter (· ≠ '"')

theorem scan_append {ws : Char} (hws : isWhitespace ws = true) (s q current : Str)
    (inQuotes quoted : Bool) (h : Even (q.count '"' + inQuotes.toNat)) :
    scan (q ++ ws :: s) current inQuotes quoted = scan q current inQuotes quoted ++ tokenize s := by
  have hquote : ws ≠ '"' := by
    rintro rfl
    exact absurd hws (by decide)
  induction q generalizing current inQuotes quoted with
  | nil =>
    have hopen : inQuotes = false := by
      cases inQuotes with
      | false => rfl
      | true => exact absurd h (by decide)
    subst hopen
    rw [List.nil_append, scan, scan, if_neg hquote, hws, Bool.not_false, Bool.and_self, if_pos rfl]
    by_cases hcurrent : (current ≠ [] || quoted) = true
    · rw [if_pos hcurrent, if_pos hcurrent]
      rfl
    · obtain ⟨rfl, rfl⟩ : current = [] ∧ quoted = false := by simpa using hcurrent
      rfl
  | cons c q ih =>
    rw [List.cons_append, scan, scan]
    by_cases hc : c = '"'
    · subst hc
      rw [if_pos rfl, if_pos rfl]
      apply ih
      rw [List.count_cons_self] at h
      cases inQuotes with
      | false => exact h
      | true =>
        obtain ⟨k, hk⟩ := h
        exact ⟨k - 1, by rw [Bool.toNat_true] at hk; rw [Bool.not_true, Bool.toNat_false]; omega⟩
    · rw [List.count_cons_of_ne hc] at h
      rw [if_neg hc, if_neg hc]
      split
      · split
        · rw [ih _ _ _ h, List.cons_append]
        · exact ih _ _ _ h
      · exact ih _ _ _ h

/-- What follows closed quotes and a space is tokens of its own. -/
theorem tokenize_append {ws : Char} (hws : isWhitespace ws = true) {q : Str} (h : Closed q)
    (s : Str) : tokenize (q ++ ws :: s) = tokenize q ++ tokenize s :=
  scan_append hws s q [] false false h

theorem scan_whole {s : Str} {inQuotes : Bool} (h : Whole s inQuotes) (current : Str)
    (quoted : Bool) (hne : current ++ unquoted s ≠ []) :
    scan s current inQuotes quoted = [current ++ unquoted s] := by
  induction s generalizing current inQuotes quoted with
  | nil =>
    rw [unquoted, List.filter_nil, List.append_nil] at hne
    rw [scan, unquoted, List.filter_nil, List.append_nil, decide_eq_true hne, Bool.true_or,
      if_pos rfl]
  | cons c s ih =>
    rw [Whole] at h
    rw [scan]
    by_cases hc : c = '"'
    · subst hc
      rw [if_pos rfl] at h ⊢
      exact ih h current true hne
    · rw [if_neg hc] at h ⊢
      have hspace : ¬(isWhitespace c && !inQuotes) = true := by
        intro hsp
        rw [Bool.and_eq_true, Bool.not_eq_true'] at hsp
        exact absurd (h.1 hsp.1) (by rw [hsp.2]; decide)
      have hstep : unquoted (c :: s) = c :: unquoted s := by
        rw [unquoted, List.filter_cons_of_pos (by simpa using hc), unquoted]
      rw [if_neg hspace, ih h.2 _ _ (by simp), hstep, List.append_assoc, List.singleton_append]

/-- A token, without its quotes. -/
theorem tokenize_whole {s : Str} (h : Whole s false) (hne : unquoted s ≠ []) :
    tokenize s = [unquoted s] :=
  scan_whole h [] false hne

/-- What is between two quotes is one token. -/
theorem whole_quoted {r : Str} (h : '"' ∉ r) : Whole ('"' :: r ++ ['"']) false := by
  have hin : ∀ s : Str, '"' ∉ s → Whole (s ++ ['"']) true := by
    intro s hs
    induction s with
    | nil => exact trivial
    | cons c s ih =>
      rw [List.cons_append, Whole, if_neg (Ne.symm (List.ne_of_not_mem_cons hs))]
      exact ⟨fun _ => rfl, ih (List.not_mem_of_not_mem_cons hs)⟩
  rw [List.cons_append, Whole, if_pos rfl]
  exact hin r h

theorem unquoted_quoted {r : Str} (h : '"' ∉ r) : unquoted ('"' :: r ++ ['"']) = r := by
  rw [unquoted, List.cons_append, List.filter_cons_of_neg (by simp), List.filter_append,
    List.filter_eq_self.2 fun c hc => by
      simpa using fun heq : c = '"' => h (heq ▸ hc)]
  simp

/-! ## Numbers and dates -/

/-- The nearest integer, the even one of two. -/
def roundEven (x : ℚ) : ℤ :=
  if x - ⌊x⌋ < 1 / 2 then ⌊x⌋
  else if 1 / 2 < x - ⌊x⌋ then ⌊x⌋ + 1
  else if ⌊x⌋ % 2 = 0 then ⌊x⌋ else ⌊x⌋ + 1

/-- The nearest `f64` of a number that is not negative; what is too large for one stays as it is. -/
def toF64 (x : ℚ) : ℚ :=
  if x = 0 then 0
  else
    let e := max (Int.log 2 x - 52) (-1074)
    roundEven (x / 2 ^ e) * 2 ^ e

/-- The largest `u64`. -/
def u64Max : ℕ := 2 ^ 64 - 1

/-- `as u64`, of a number that is not negative. -/
def asU64 (x : ℚ) : ℕ := min ⌊x⌋.toNat u64Max

/-- The number that decimal digits make. -/
def digitsVal (s : Str) : ℕ := s.foldl (fun n c => 10 * n + (c.toNat - 48)) 0

/-- `parse::<f64>`, of digits and dots. -/
def parseF64 (digits : Str) : Option ℚ :=
  match Str.splitOnce '.' digits with
  | none => if digits = [] then none else some (toF64 (digitsVal digits))
  | some (whole, part) =>
    if '.' ∈ part || (whole = [] && part = []) then none
    else some (toF64 (digitsVal (whole ++ part) / 10 ^ part.length))

/-- `trim`. -/
def trim (s : Str) : Str := (s.dropWhile isWhitespace).rdropWhile isWhitespace

/-- The scale of a unit, without the `b` it may end in. -/
def unitScale (u : Str) : Option ℕ :=
  if u = [] then some 1
  else if u = ['k'] then some 1000
  else if u = ['m'] then some (1000 ^ 2)
  else if u = ['g'] then some (1000 ^ 3)
  else if u = ['t'] then some (1000 ^ 4)
  else if u = ['k', 'i'] then some 1024
  else if u = ['m', 'i'] then some (1024 ^ 2)
  else if u = ['g', 'i'] then some (1024 ^ 3)
  else if u = ['t', 'i'] then some (1024 ^ 4)
  else none

/-- `parse_size`. -/
def parseSize (value : Str) : Option ℕ :=
  let value := (trim value).map Char.toLower
  let digits := value.takeWhile fun c => c.isDigit || c = '.'
  if digits = [] then none
  else
    (parseF64 digits).bind fun number =>
      (unitScale ((trim (value.drop digits.length)).rdropWhile (· = 'b'))).map fun scale =>
        asU64 (toF64 (number * scale))

example : parseSize "1.5MB".toList = some 1500000 ∧ parseSize "2 GB".toList = some 2000000000 ∧
    parseSize "1KiB".toList = some 1024 ∧ parseSize "huge".toList = none := by decide +kernel

/-- `split_once`, at two dots. -/
def splitDots : Str → Option (Str × Str)
  | '.' :: '.' :: rest => some ([], rest)
  | c :: rest => (splitDots rest).map fun p => (c :: p.1, p.2)
  | [] => none

/-- `apply_size`. -/
def applySize (q : Query) (value : Str) : Query :=
  match splitDots value with
  | some (low, high) => { q with minSize := parseSize low, maxSize := parseSize high }
  | none =>
    match value with
    | '>' :: rest => { q with minSize := parseSize (rest.dropWhile (· = '=')) }
    | '<' :: rest => { q with maxSize := parseSize (rest.dropWhile (· = '=')) }
    | value =>
      match parseSize value with
      | some n => { q with minSize := some (min (n * 9) u64Max / 10),
                           maxSize := some (min (n * 11) u64Max / 10) }
      | none => q

/-- A number as an `i64` that wraps around. -/
def wrap (n : ℤ) : ℤ := n.bmod (2 ^ 64)

/-- `parse::<i64>`. -/
def parseI64 (s : Str) : Option ℤ :=
  let digits := if 1 < s.length ∧ (s.head? = some '+' ∨ s.head? = some '-') then s.tail else s
  if digits ≠ [] ∧ digits.all Char.isDigit then
    let n : ℤ := if s.head? = some '-' then -digitsVal digits else digitsVal digits
    if -2 ^ 63 ≤ n ∧ n < 2 ^ 63 then some n else none
  else none

/-- The end of `parse_date`: the days of a civil date, in seconds. -/
def epochSeconds (y m d : ℤ) : ℤ :=
  let y := if m ≤ 2 then y - 1 else y
  let era := (if 0 ≤ y then y else y - 399).tdiv 400
  let yoe := y - era * 400
  let doy := (153 * (if 2 < m then m - 3 else m + 9) + 2).tdiv 5 + d - 1
  let doe := yoe * 365 + yoe.tdiv 4 - yoe.tdiv 100 + doy
  wrap ((era * 146097 + doe - 719468) * 86400)

/-- `parse_date`. -/
def parseDate (value : Str) : Option ℤ :=
  match value.splitOn '-' with
  | y :: m :: d :: _ =>
    (parseI64 y).bind fun y => (parseI64 m).bind fun m => (parseI64 d).bind fun d =>
      if 1 ≤ m ∧ m ≤ 12 ∧ 1 ≤ d ∧ d ≤ 31 then some (epochSeconds y m d) else none
  | _ => none

example : parseDate "2026-09-08".toList = some 1788825600 ∧
    parseDate "2026-13-01".toList = none := by decide

/-- The seconds of a day. -/
def day : ℤ := 86400

/-- The dates that have a name. -/
def namedDate (now : ℤ) (v : Str) : Option ℤ :=
  if v = "today".toList then some (now - day)
  else if v = "yesterday".toList then some (now - 2 * day)
  else if v = "thisweek".toList ∨ v = "week".toList then some (now - 7 * day)
  else if v = "thismonth".toList ∨ v = "month".toList then some (now - 30 * day)
  else if v = "thisyear".toList ∨ v = "year".toList then some (now - 365 * day)
  else none

/-- `apply_date`, with the clock at `now`. -/
def applyDate (now : ℤ) (q : Query) (value : Str) : Query :=
  let lower := value.map Char.toLower
  match namedDate now lower with
  | some after => { q with modifiedAfter := some after }
  | none =>
    match lower with
    | '>' :: rest => { q with modifiedAfter := (namedDate now rest).orElse fun _ => parseDate rest }
    | '<' :: rest => { q with modifiedBefore := (namedDate now rest).orElse fun _ => parseDate rest }
    | lower =>
      match parseDate lower with
      | some at_ => { q with modifiedAfter := some at_, modifiedBefore := some (wrap (at_ + day)) }
      | none => q

/-! ## The query of a string -/

/-- The bytes of a string. -/
def utf8 (s : Str) : Bytes := s.flatMap String.utf8EncodeChar

/-- `Kind::parse`. -/
def Kind.parse (name : Str) : Option Kind :=
  if name ∈ ["folder".toList, "dir".toList, "directory".toList] then some .folder
  else if name = "file".toList then some .file
  else if name ∈ ["image".toList, "picture".toList, "photo".toList] then some .image
  else if name ∈ ["video".toList, "movie".toList] then some .video
  else if name ∈ ["audio".toList, "music".toList] then some .audio
  else if name ∈ ["document".toList, "doc".toList] then some .document
  else if name ∈ ["archive".toList, "zip".toList] then some .archive
  else if name ∈ ["code".toList, "source".toList] then some .code
  else none

/-- The filters. -/
inductive Filter
  | ext | kind | tag | content | size | modified
  deriving DecidableEq

/-- The filter a key in lower case stands for. -/
def Filter.ofKey (key : Str) : Option Filter :=
  if key ∈ ["ext".toList, "extension".toList] then some .ext
  else if key ∈ ["kind".toList, "type".toList] then some .kind
  else if key = "tag".toList then some .tag
  else if key ∈ ["content".toList, "text".toList, "in".toList] then some .content
  else if key = "size".toList then some .size
  else if key ∈ ["modified".toList, "date".toList, "since".toList] then some .modified
  else none

/-- What a filter adds to a query. -/
def Filter.apply (now : ℤ) (q : Query) (value : Str) : Filter → Query
  | ext =>
    let value := (value.dropWhile (· = '.')).map Char.toLower
    { q with extensions := q.extensions ++ [utf8 value] }
  | kind =>
    match Kind.parse (value.map Char.toLower) with
    | some k => { q with kinds := q.kinds ++ [k] }
    | none => q
  | tag => { q with tags := q.tags ++ [utf8 value] }
  | content => { q with content := some (utf8 value) }
  | size => applySize q value
  | modified => applyDate now q value

/-- `strip_prefix('-')`, where something is left: whether there was a dash, and what is left. -/
def stripDash : Str → Bool × Str
  | '-' :: c :: rest => (true, c :: rest)
  | token => (false, token)

/-- A name that is wanted, or not wanted. -/
def Query.addName (q : Query) (negated : Bool) (token : Str) : Query :=
  if negated then { q with excluded := q.excluded ++ [utf8 token] }
  else { q with terms := q.terms ++ [utf8 token] }

/-- The loop of `Query::parse`, for one token. -/
def Query.add (now : ℤ) (q : Query) (token : Str) : Query :=
  let (negated, token) := stripDash token
  match Str.splitOnce ':' token with
  | none => if negated || token ≠ [] then q.addName negated token else q
  | some (key, value) =>
    if value = [] then q
    else
      match Filter.ofKey (key.map Char.toLower) with
      | some f => f.apply now q value
      | none => q.addName negated token

/-- `Query::parse`, with the clock at `now`. -/
def Query.parse (now : ℤ) (input : Str) : Query := (tokenize input).foldl (Query.add now) {}

/-! ## What a token adds -/

/-- What is left of a token that is looked for as it stands: no dash comes before something else, and
what comes before the first colon is no filter, while something comes behind it. -/
def NameTerm (u : Str) : Prop :=
  (∀ v, u = '-' :: v → v = []) ∧
    ∀ key value, Str.splitOnce ':' u = some (key, value) →
      value ≠ [] ∧ Filter.ofKey (key.map Char.toLower) = none

section

variable {now : ℤ} {u v key value : Str}

theorem stripDash_cons (h : u ≠ []) : stripDash ('-' :: u) = (true, u) := by
  obtain ⟨c, rest, rfl⟩ := List.exists_cons_of_ne_nil h
  rfl

theorem stripDash_of (h : ∀ v, u = '-' :: v → v = []) : stripDash u = (false, u) := by
  unfold stripDash
  split
  · next c rest => exact absurd (h _ rfl) (List.cons_ne_nil _ _)
  · rfl

variable (now) in
theorem add_dashed (q : Query) (h : u ≠ []) :
    q.add now ('-' :: u) = match Str.splitOnce ':' u with
      | none => q.addName true u
      | some (key, value) =>
        if value = [] then q
        else match Filter.ofKey (key.map Char.toLower) with
          | some f => f.apply now q value
          | none => q.addName true u := by
  rw [Query.add, stripDash_cons h]
  rfl

variable (now) in
theorem add_plain (q : Query) (h : u ≠ []) (hdash : ∀ v, u = '-' :: v → v = []) :
    q.add now u = match Str.splitOnce ':' u with
      | none => q.addName false u
      | some (key, value) =>
        if value = [] then q
        else match Filter.ofKey (key.map Char.toLower) with
          | some f => f.apply now q value
          | none => q.addName false u := by
  rw [Query.add, stripDash_of hdash]
  dsimp only
  rw [decide_eq_true h, Bool.or_true, if_pos rfl]

/-- A key that begins with a dash is no filter. -/
theorem ofKey_dash (key : Str) : Filter.ofKey ('-' :: key) = none := by
  unfold Filter.ofKey
  simp

theorem splitOnce_dash :
    Str.splitOnce ':' ('-' :: v) = (Str.splitOnce ':' v).map fun p => ('-' :: p.1, p.2) := by
  unfold Str.splitOnce
  by_cases h : ':' ∈ v
  · rw [if_pos (List.mem_cons_of_mem _ h), if_pos h, List.takeWhile_cons_of_pos (by decide),
      List.dropWhile_cons_of_pos (by decide)]
    rfl
  · rw [if_neg h, if_neg (by simpa using h)]
    rfl

/-- **What a token adds**, alone and behind a dash. -/
theorem add_cases (now : ℤ) (h : u ≠ []) :
    (NameTerm u ∧ ∀ q : Query,
      q.add now u = q.addName false u ∧ q.add now ('-' :: u) = q.addName true u) ∨
    ¬NameTerm u ∧
      ((∀ q : Query, q.add now u = q ∧ q.add now ('-' :: u) = q) ∨
      (∃ (f : Filter) (value : Str), (∀ q : Query, q.add now u = f.apply now q value) ∧
        ((∀ q : Query, q.add now ('-' :: u) = f.apply now q value) ∨
          ∀ q : Query, q.add now ('-' :: u) = q.addName true u)) ∨
      ∃ v, v ≠ [] ∧ ∀ q : Query,
        q.add now u = q.addName true v ∧ q.add now ('-' :: u) = q.addName true u) := by
  by_cases hdash : ∀ v, u = '-' :: v → v = []
  · have hplain := fun q : Query => add_plain now q h hdash
    have hdashed := fun q : Query => add_dashed now q h
    rcases hsplit : Str.splitOnce ':' u with _ | ⟨key, value⟩
    · simp only [hsplit] at hplain hdashed
      exact Or.inl ⟨⟨hdash, fun _ _ hs => by cases hsplit ▸ hs⟩,
        fun q => ⟨hplain q, hdashed q⟩⟩
    · simp only [hsplit] at hplain hdashed
      by_cases hvalue : value = []
      · simp only [if_pos hvalue] at hplain hdashed
        exact Or.inr ⟨fun hname => (hname.2 key value hsplit).1 hvalue,
          Or.inl fun q => ⟨hplain q, hdashed q⟩⟩
      · simp only [if_neg hvalue] at hplain hdashed
        rcases hkey : Filter.ofKey (key.map Char.toLower) with _ | f
        · simp only [hkey] at hplain hdashed
          refine Or.inl ⟨⟨hdash, fun k v hs => ?_⟩, fun q => ⟨hplain q, hdashed q⟩⟩
          obtain ⟨rfl, rfl⟩ := Prod.mk.inj (Option.some.inj (hsplit.symm.trans hs))
          exact ⟨hvalue, hkey⟩
        · simp only [hkey] at hplain hdashed
          refine Or.inr ⟨fun hname => ?_, Or.inr (Or.inl ⟨f, value, hplain, Or.inl hdashed⟩)⟩
          exact absurd ((hname.2 key value hsplit).2.symm.trans hkey) (by simp)
  · -- the token has a dash of its own, which is dropped where it stands alone
    obtain ⟨v, rfl, hv⟩ : ∃ v, u = '-' :: v ∧ v ≠ [] := by simpa using hdash
    have hplain := fun q : Query => add_dashed now q hv
    have hdashed := fun q : Query => add_dashed now q (List.cons_ne_nil '-' v)
    refine Or.inr ⟨fun hname => hv (hname.1 v rfl), ?_⟩
    rw [splitOnce_dash] at hdashed
    rcases hsplit : Str.splitOnce ':' v with _ | ⟨key, value⟩
    · simp only [hsplit, Option.map_none] at hplain hdashed
      exact Or.inr (Or.inr ⟨v, hv, fun q => ⟨hplain q, hdashed q⟩⟩)
    · simp only [hsplit, Option.map_some] at hplain hdashed
      by_cases hvalue : value = []
      · simp only [if_pos hvalue] at hplain hdashed
        exact Or.inl fun q => ⟨hplain q, hdashed q⟩
      · have hminus : ('-' :: key).map Char.toLower = '-' :: key.map Char.toLower := rfl
        simp only [if_neg hvalue, hminus, ofKey_dash] at hplain hdashed
        rcases hkey : Filter.ofKey (key.map Char.toLower) with _ | f
        · simp only [hkey] at hplain
          exact Or.inr (Or.inr ⟨v, hv, fun q => ⟨hplain q, hdashed q⟩⟩)
        · simp only [hkey] at hplain
          exact Or.inr (Or.inl ⟨f, value, hplain, Or.inr hdashed⟩)

end

/-! ## What a query finds -/

section

variable {lower : Bytes → Bytes} {limits : Limits} {name : Bytes} {info : Info} {q : Query} {u : Str}

variable (lower limits) in
/-- A query finds a file: `consider` makes a result of it. -/
def Query.Finds (q : Query) (dir : PathBuf) (p : Path) (name : Bytes) (info : Info) : Prop :=
  (consider lower q limits (full dir p) name info).isSome

variable (lower) in
/-- A name has a text in it, whatever the case. -/
def Has (name : Bytes) (u : Str) : Prop := fold lower false (utf8 u) <:+: fold lower false name

theorem finds_iff {dir : PathBuf} {p : Path} :
    q.Finds lower limits dir p name info ↔ q.Accepts lower limits name info := by
  rw [Query.Finds, Option.isSome_iff_exists]
  constructor
  · rintro ⟨hit, hhit⟩
    exact (consider_eq_some_iff.1 hhit).1
  · intro h
    exact ⟨_, consider_eq_some_iff.2 ⟨h, rfl⟩⟩

theorem accepts_nil : ({} : Query).Accepts lower limits name info := by
  constructor <;> simp

theorem accepts_unwanted (h : q.caseSensitive = false) :
    (q.addName true u).Accepts lower limits name info ↔
      q.Accepts lower limits name info ∧ ¬Has lower name u := by
  rw [Query.addName, if_pos rfl, Has, ← h]
  constructor
  · intro ha
    refine ⟨⟨ha.terms, fun t ht => ?_, ha.kinds, ha.extensions, ha.minSize, ha.maxSize, ha.after,
      ha.before, ha.tags, ha.content⟩, ?_⟩
    · exact ha.excluded t (List.mem_append_left _ ht)
    · exact ha.excluded _ (List.mem_append_right _ (List.mem_singleton_self _))
  · rintro ⟨ha, hnot⟩
    refine ⟨ha.terms, fun t ht => ?_, ha.kinds, ha.extensions, ha.minSize, ha.maxSize, ha.after,
      ha.before, ha.tags, ha.content⟩
    rcases List.mem_append.1 ht with ht | ht
    · exact ha.excluded t ht
    · rwa [List.mem_singleton.1 ht]

theorem accepts_wanted (h : q.caseSensitive = false) :
    (q.addName false u).Accepts lower limits name info ↔
      q.Accepts lower limits name info ∧ Has lower name u := by
  rw [Query.addName, if_neg Bool.false_ne_true, Has, ← h]
  constructor
  · intro ha
    refine ⟨⟨fun t ht => ?_, ha.excluded, ha.kinds, ha.extensions, ha.minSize, ha.maxSize, ha.after,
      ha.before, ha.tags, ha.content⟩, ?_⟩
    · exact ha.terms t (List.mem_append_left _ ht)
    · exact ha.terms _ (List.mem_append_right _ (List.mem_singleton_self _))
  · rintro ⟨ha, hhas⟩
    refine ⟨fun t ht => ?_, ha.excluded, ha.kinds, ha.extensions, ha.minSize, ha.maxSize, ha.after,
      ha.before, ha.tags, ha.content⟩
    rcases List.mem_append.1 ht with ht | ht
    · exact ha.terms t ht
    · rwa [List.mem_singleton.1 ht]

theorem accepts_ext {e : Str} (h : utf8 e ≠ []) :
    ¬({ extensions := [utf8 e] } : Query).Accepts lower limits (name ++ [46]) info := by
  intro ha
  have hext : extension (name ++ [46]) = [] := by
    rw [extension, rsplitOnce_append List.not_mem_nil]
    rfl
  exact h (List.mem_singleton.1 (hext ▸ ha.extensions (List.cons_ne_nil _ _))).symm

theorem applySize_nil (value : Str) :
    ∃ low high, applySize {} value = { minSize := low, maxSize := high } := by
  unfold applySize
  split
  · exact ⟨_, _, rfl⟩
  · split
    · exact ⟨_, none, rfl⟩
    · exact ⟨none, _, rfl⟩
    · split
      · exact ⟨_, _, rfl⟩
      · exact ⟨none, none, rfl⟩

theorem applyDate_nil (now : ℤ) (value : Str) :
    ∃ after before, applyDate now {} value = { modifiedAfter := after, modifiedBefore := before } := by
  unfold applyDate
  dsimp only
  split
  · exact ⟨_, none, rfl⟩
  · split
    · exact ⟨_, none, rfl⟩
    · exact ⟨none, _, rfl⟩
    · split
      · exact ⟨_, _, rfl⟩
      · exact ⟨none, none, rfl⟩

/-- **A filter other than an extension** lets everything through, or there is something that it keeps
out whatever its name. -/
theorem filter_cases (lower : Bytes → Bytes) (limits : Limits) (now : ℤ) (value : Str) {f : Filter}
    (h : f ≠ .ext) :
    f.apply now {} value = {} ∨
      ∃ info, ∀ name, ¬(f.apply now {} value).Accepts lower limits name info := by
  cases f with
  | ext => exact absurd rfl h
  | kind =>
    rw [Filter.apply]
    rcases Kind.parse (value.map Char.toLower) with _ | k
    · exact Or.inl rfl
    · -- a folder is of no other kind, and what is no folder is not of that kind
      refine Or.inr ⟨{ type := if k = .folder then .regular else .directory }, fun name ha => ?_⟩
      have hkind := ha.kinds (List.cons_ne_nil _ _)
      cases k <;> cases hkind
  | tag =>
    refine Or.inr ⟨{ type := .regular }, fun name ha => ?_⟩
    obtain ⟨t, ht, -⟩ := ha.tags _ (List.mem_singleton_self (utf8 value))
    cases ht
  | content =>
    refine Or.inr ⟨{ type := .directory }, fun name ha => ?_⟩
    cases (ha.content (utf8 value) rfl).1
  | size =>
    obtain ⟨low, high, hsize⟩ := applySize_nil value
    rw [Filter.apply, hsize]
    rcases low with _ | low
    · rcases high with _ | high
      · exact Or.inl rfl
      · refine Or.inr ⟨{ type := .directory }, fun name ha => ?_⟩
        cases (ha.maxSize high rfl).1
    · refine Or.inr ⟨{ type := .directory }, fun name ha => ?_⟩
      cases (ha.minSize low rfl).1
  | modified =>
    obtain ⟨after, before, hdate⟩ := applyDate_nil now value
    rw [Filter.apply, hdate]
    rcases after with _ | after
    · rcases before with _ | before
      · exact Or.inl rfl
      · refine Or.inr ⟨{ type := .regular, modified := before + 1 }, fun name ha => ?_⟩
        exact absurd (ha.before before rfl) (by simp)
    · refine Or.inr ⟨{ type := .regular, modified := after - 1 }, fun name ha => ?_⟩
      exact absurd (ha.after after rfl) (by simp)

end

/-! ## The law of the dash -/

/-- What `to_lowercase` does: to ASCII texts, to none but the empty one what it does to it, and with a
dot at the end nothing. -/
structure Lowers (lower : Bytes → Bytes) : Prop where
  ascii : ∀ s : Bytes, (∀ b ∈ s, b < 0x80) → lower s = s.map asciiLower
  ne_nil : ∀ s, s ≠ [] → lower s ≠ []
  dot : ∀ s : Bytes, lower (s ++ [46]) = lower s ++ [46]

section

variable {lower : Bytes → Bytes} {limits : Limits} {now : ℤ} {u v : Str}

theorem utf8_ne_nil (h : u ≠ []) : utf8 u ≠ [] := by
  obtain ⟨c, rest, rfl⟩ := List.exists_cons_of_ne_nil h
  rw [utf8, List.flatMap_cons]
  exact List.append_ne_nil_of_left_ne_nil (String.utf8EncodeChar_ne_nil) _

/-- The names of one letter that have a text in them are one at most. -/
theorem Lowers.has_letter (h : Lowers lower) (hu : u ≠ []) {b : UInt8} (hb : b < 0x80)
    (hhas : Has lower [b] u) : lower (utf8 u) = [asciiLower b] := by
  have hletter : lower [b] = [asciiLower b] := h.ascii [b] (by simpa using hb)
  rw [Has, fold, fold, if_neg Bool.false_ne_true, if_neg Bool.false_ne_true, hletter] at hhas
  have hlen := hhas.length_le
  have hpos := List.length_pos_of_ne_nil (h.ne_nil _ (utf8_ne_nil hu))
  exact hhas.eq_of_length (le_antisymm hlen hpos)

/-- There is a name without either of two texts, and without a dot. -/
theorem Lowers.exists_name (h : Lowers lower) (hu : u ≠ []) (hv : v ≠ []) :
    ∃ name, extension name = [] ∧ ¬Has lower name u ∧ ¬Has lower name v := by
  by_contra hall
  have hletter : ∀ b : UInt8, b < 0x80 → extension [b] = [] →
      lower (utf8 u) = [asciiLower b] ∨ lower (utf8 v) = [asciiLower b] := by
    intro b hb hext
    by_contra hnone
    rw [not_or] at hnone
    exact hall ⟨[b], hext, fun hhas => hnone.1 (h.has_letter hu hb hhas),
      fun hhas => hnone.2 (h.has_letter hv hb hhas)⟩
  -- of three letters, two would be those of one text
  have ha := hletter 97 (by decide) (by decide)
  have hb := hletter 98 (by decide) (by decide)
  have hc := hletter 99 (by decide) (by decide)
  rcases ha with ha | ha <;> rcases hb with hb | hb <;> rcases hc with hc | hc <;>
    first
      | exact absurd (ha.symm.trans hb) (by decide)
      | exact absurd (ha.symm.trans hc) (by decide)
      | exact absurd (hb.symm.trans hc) (by decide)

theorem has_self : Has lower (utf8 u) u := List.infix_rfl

/-- **No filter looks for a text.** -/
theorem Lowers.filter_differs (h : Lowers lower) (hu : u ≠ []) (limits : Limits) (now : ℤ)
    (value : Str) (f : Filter) : ∃ name info,
      ¬((f.apply now {} value).Accepts lower limits name info ↔ Has lower name u) := by
  obtain ⟨name, hext, hnot, -⟩ := h.exists_name hu hu
  by_cases hf : f = .ext
  · subst hf
    rw [Filter.apply]
    dsimp only
    rw [List.nil_append]
    generalize (value.dropWhile (· = '.')).map Char.toLower = e
    by_cases he : utf8 e = []
    · refine ⟨name, { type := .regular }, fun hiff => hnot (hiff.1 ?_)⟩
      constructor <;> simp [he, hext]
    · refine ⟨utf8 u ++ [46], { type := .regular }, fun hiff => accepts_ext he (hiff.2 ?_)⟩
      rw [Has, fold, fold, if_neg Bool.false_ne_true, if_neg Bool.false_ne_true, h.dot]
      exact (List.prefix_append _ _).isInfix
  · rcases filter_cases lower limits now value hf with hall | ⟨info, hnone⟩
    · rw [hall]
      exact ⟨name, { type := .regular }, fun hiff => hnot (hiff.1 accepts_nil)⟩
    · exact ⟨utf8 u, info, fun hiff => hnone _ (hiff.2 has_self)⟩

theorem caseSensitive_apply (now : ℤ) (q : Query) (value : Str) (f : Filter) :
    (f.apply now q value).caseSensitive = q.caseSensitive := by
  cases f with
  | ext => rfl
  | kind =>
    rw [Filter.apply]
    rcases Kind.parse (value.map Char.toLower) with _ | k <;> rfl
  | tag => rfl
  | content => rfl
  | size =>
    rw [Filter.apply]
    unfold applySize
    split
    · rfl
    · split
      · rfl
      · rfl
      · split <;> rfl
  | modified =>
    rw [Filter.apply]
    unfold applyDate
    dsimp only
    split
    · rfl
    · split
      · rfl
      · rfl
      · split <;> rfl

theorem caseSensitive_addName (q : Query) (negated : Bool) (token : Str) :
    (q.addName negated token).caseSensitive = q.caseSensitive := by
  cases negated <;> rfl

theorem caseSensitive_add (now : ℤ) (q : Query) (token : Str) :
    (q.add now token).caseSensitive = q.caseSensitive := by
  rw [Query.add]
  dsimp only
  split
  · split
    · exact caseSensitive_addName _ _ _
    · rfl
  · split
    · rfl
    · split
      · exact caseSensitive_apply _ _ _ _
      · exact caseSensitive_addName _ _ _

/-- What is typed is looked for in either case. -/
theorem caseSensitive_parse (now : ℤ) (input : Str) :
    (Query.parse now input).caseSensitive = false :=
  List.foldlRecOn (motive := fun q => q.caseSensitive = false) (tokenize input) (Query.add now) rfl
    fun q hq token _ => (caseSensitive_add now q token).trans hq

theorem parse_append {q : Str} (h : Closed q) (s : Str) :
    Query.parse now (q ++ ' ' :: s) = (tokenize s).foldl (Query.add now) (Query.parse now q) := by
  rw [Query.parse, tokenize_append (by decide) h, List.foldl_append, Query.parse]

/-- A query with a token behind a dash. -/
theorem parse_dashed {q t : Str} (h : Closed q) (ht : Whole t false) :
    Query.parse now (q ++ ' ' :: '-' :: t) = (Query.parse now q).add now ('-' :: unquoted t) := by
  have hwhole : Whole ('-' :: t) false := by
    rw [Whole, if_neg (by decide)]
    exact ⟨by decide, ht⟩
  have hdash : unquoted ('-' :: t) = '-' :: unquoted t := List.filter_cons_of_pos (by decide)
  rw [parse_append h, tokenize_whole hwhole (by rw [hdash]; exact List.cons_ne_nil _ _), hdash]
  rfl

/-- A query of one token. -/
theorem parse_alone {t : Str} (ht : Whole t false) (hne : unquoted t ≠ []) :
    Query.parse now t = ({} : Query).add now (unquoted t) := by
  rw [Query.parse, tokenize_whole ht hne]
  rfl

variable (lower) in
/-- A dash excludes a token: with it behind a dash, a query finds what it finds without, but for what
the token alone finds. -/
def Excludes (t : Str) : Prop :=
  ∀ now q, Closed q → ∀ limits dir p name info,
    (Query.parse now (q ++ ' ' :: '-' :: t)).Finds lower limits dir p name info ↔
      (Query.parse now q).Finds lower limits dir p name info ∧
        ¬(Query.parse now t).Finds lower limits dir p name info

variable (lower) in
/-- A quoted run is a name term: with it, a query finds what it finds without, where the name has the
run in it as it stands. -/
def Literal (r : Str) : Prop :=
  ∀ now q, Closed q → ∀ limits dir p name info,
    (Query.parse now (q ++ ' ' :: '"' :: r ++ ['"'])).Finds lower limits dir p name info ↔
      (Query.parse now q).Finds lower limits dir p name info ∧ Has lower name r

/-- A name term is excluded by a dash. -/
theorem excludes_of_nameTerm {t : Str} (ht : Whole t false) (hne : unquoted t ≠ [])
    (hname : NameTerm (unquoted t)) : Excludes lower t := by
  intro now q hq limits dir p name info
  rcases add_cases now hne with ⟨-, hadd⟩ | ⟨hnot, -⟩
  · rw [finds_iff, finds_iff, finds_iff, parse_dashed hq ht, parse_alone ht hne, (hadd _).1,
      (hadd _).2, accepts_unwanted (caseSensitive_parse _ _), accepts_wanted rfl,
      and_iff_right accepts_nil]
  · exact absurd hname hnot

/-- What is no name term is not excluded, not even by a dash alone. -/
theorem Lowers.not_excludes (h : Lowers lower) {t : Str} (ht : Whole t false)
    (hne : unquoted t ≠ []) (hname : ¬NameTerm (unquoted t)) : ¬Excludes lower t := by
  intro hlaw
  have hnil : Closed [] := ⟨0, rfl⟩
  have halone : ∀ name info,
      (({} : Query).add 0 ('-' :: unquoted t)).Accepts lower {} name info ↔
        ¬(({} : Query).add 0 (unquoted t)).Accepts lower {} name info := by
    intro name info
    have hempty := hlaw 0 [] hnil {} [] [] name info
    rw [finds_iff, finds_iff, finds_iff, parse_dashed hnil ht, parse_alone ht hne,
      and_iff_right (show (Query.parse 0 []).Accepts lower {} name info from accepts_nil)] at hempty
    exact hempty
  rcases add_cases 0 hne with ⟨hname', -⟩ | ⟨-, hsame | ⟨f, value, hf, hdashed⟩ | ⟨v, hv, hadd⟩⟩
  · exact hname hname'
  · have hboth := halone [] { type := .regular }
    rw [(hsame _).1, (hsame _).2] at hboth
    exact iff_not_self hboth
  · rcases hdashed with hdashed | hdashed
    · have hboth := halone [] { type := .regular }
      rw [hf, hdashed] at hboth
      exact iff_not_self hboth
    · obtain ⟨name, info, hdiffers⟩ := h.filter_differs hne {} 0 value f
      have hboth := halone name info
      rw [hf, hdashed, accepts_unwanted rfl, and_iff_right accepts_nil, not_iff_not] at hboth
      exact hdiffers hboth.symm
  · obtain ⟨name, -, hu, hv⟩ := h.exists_name hne hv
    have hboth := halone name { type := .regular }
    rw [(hadd _).1, (hadd _).2, accepts_unwanted rfl, accepts_unwanted rfl,
      and_iff_right accepts_nil, and_iff_right accepts_nil] at hboth
    exact hboth.1 hu hv

/-- The query of a quoted run that is not empty. -/
theorem parse_quoted {q r : Str} (hq : Closed q) (hr : '"' ∉ r) (hne : r ≠ []) :
    Query.parse now (q ++ ' ' :: '"' :: r ++ ['"']) = (Query.parse now q).add now r := by
  have hun := unquoted_quoted hr
  rw [List.append_assoc, List.cons_append, parse_append hq,
    tokenize_whole (whole_quoted hr) (by rwa [hun]), hun]
  rfl

/-- No quoted run but a name term is looked for as it stands. -/
theorem Lowers.not_literal (h : Lowers lower) {r : Str} (hr : '"' ∉ r) (hne : r ≠ [])
    (hname : ¬NameTerm r) : ¬Literal lower r := by
  intro hlaw
  have halone : ∀ name info,
      (({} : Query).add 0 r).Accepts lower {} name info ↔ Has lower name r := by
    intro name info
    have hempty := hlaw 0 [] ⟨0, rfl⟩ {} [] [] name info
    rw [finds_iff, finds_iff, parse_quoted ⟨0, rfl⟩ hr hne,
      and_iff_right (show (Query.parse 0 []).Accepts lower {} name info from accepts_nil)] at hempty
    exact hempty
  rcases add_cases 0 hne with ⟨hname', -⟩ | ⟨-, hsame | ⟨f, value, hf, -⟩ | ⟨v, hv, hadd⟩⟩
  · exact hname hname'
  · obtain ⟨name, -, hnot, -⟩ := h.exists_name hne hne
    have hboth := halone name { type := .regular }
    rw [(hsame _).1] at hboth
    exact hnot (hboth.1 accepts_nil)
  · obtain ⟨name, info, hdiffers⟩ := h.filter_differs hne {} 0 value f
    have hboth := halone name info
    rw [hf] at hboth
    exact hdiffers hboth
  · obtain ⟨name, -, hr, hv⟩ := h.exists_name hne hv
    have hboth := halone name { type := .regular }
    rw [(hadd _).1, accepts_unwanted rfl, and_iff_right accepts_nil] at hboth
    exact hr (hboth.1 hv)

/-- A quoted run that is a name term is looked for as it stands. -/
theorem Lowers.literal_of_nameTerm (h : Lowers lower) {r : Str} (hr : '"' ∉ r)
    (hname : NameTerm r) : Literal lower r := by
  intro now q hq limits dir p name info
  rcases eq_or_ne r [] with rfl | hne
  · have hempty : Has lower name [] := by
      rw [Has, fold, fold, if_neg Bool.false_ne_true, if_neg Bool.false_ne_true,
        show utf8 [] = [] from rfl, h.ascii [] (by simp)]
      exact List.nil_infix
    rw [and_iff_left hempty, finds_iff, finds_iff,
      show q ++ ' ' :: '"' :: [] ++ ['"'] = q ++ ' ' :: ['"', '"'] by simp, parse_append hq]
    rfl
  · rcases add_cases now hne with ⟨-, hadd⟩ | ⟨hnot, -⟩
    · rw [finds_iff, finds_iff, parse_quoted hq hr hne, (hadd _).1,
        accepts_wanted (caseSensitive_parse _ _)]
    · exact absurd hname hnot

/-- **A dash excludes the name terms, and nothing else**; and the quoted runs that are name terms are
the ones that are looked for as they stand. -/
theorem excludes_iff (h : Lowers lower) :
    (∀ t : Str, Whole t false → unquoted t ≠ [] → (Excludes lower t ↔ NameTerm (unquoted t))) ∧
      ∀ r : Str, '"' ∉ r → (Literal lower r ↔ NameTerm r) := by
  refine ⟨fun t ht hne => ⟨fun hlaw => ?_, excludes_of_nameTerm ht hne⟩,
    fun r hr => ⟨fun hlaw => ?_, h.literal_of_nameTerm hr⟩⟩
  · by_contra hname
    exact h.not_excludes ht hne hname hlaw
  · by_contra hname
    rcases eq_or_ne r [] with rfl | hne
    · exact hname ⟨fun v hv => (by cases hv), fun key value hs => (by cases hs)⟩
    · exact h.not_literal hr hne hname hlaw

end

/-- The name terms are excluded: `draft`, and the run `my draft`. -/
theorem excludes_draft :
    (Excludes (List.map asciiLower) "draft".toList ↔ NameTerm "draft".toList) ∧
      (Literal (List.map asciiLower) "my draft".toList ↔ NameTerm "my draft".toList) := by
  have h : Lowers (List.map asciiLower) :=
    ⟨fun _ _ => rfl, fun s hs => by simpa using hs, fun s => by simp; decide⟩
  exact ⟨(excludes_iff h).1 "draft".toList (by simp [Whole, isWhitespace]) (by decide),
    (excludes_iff h).2 "my draft".toList (by decide)⟩

/-- **A dash before a filter excludes nothing**: `report -ext:pdf` finds `report.pdf`, which `ext:pdf`
finds; and the run `"-draft"` finds what has no `draft` in its name. -/
theorem excludes_fails :
    (Query.parse 0 ("report".toList ++ ' ' :: '-' :: "ext:pdf".toList)).Finds (List.map asciiLower) {}
        [] [] (text "report.pdf") { type := .regular } ∧
      (Query.parse 0 "ext:pdf".toList).Finds (List.map asciiLower) {} [] [] (text "report.pdf")
        { type := .regular } ∧
    (Query.parse 0 "\"-draft\"".toList).Finds (List.map asciiLower) {} [] [] (text "report.pdf")
      { type := .regular } ∧ ¬Has (List.map asciiLower) (text "report.pdf") "-draft".toList := by
  unfold Query.Finds Has
  decide

end Aurade.Ops.Search
