import Aurade.Foundations.Json

/-!
# Flat JSON

Objects of scalars, of lists of scalars and of objects of scalars: how a writer puts one that knows
five escapes and leaves the other control characters out, and a strict reader of them. What the
reader takes is JSON, though it takes neither spaces, nor fractions, nor `\u` escapes.
`parse_writeObject` is the round trip.
-/

namespace Aurade

namespace Json

inductive Scalar
  | str (s : Bytes)
  | num (n : ℕ)
  | bool (b : Bool)
  deriving DecidableEq

inductive Value
  | one (v : Scalar)
  | many (vs : List Scalar)
  | fields (fs : List (Bytes × Scalar))
  deriving DecidableEq

abbrev Object := List (Bytes × Value)

/-! ## Writing -/

/-- A byte inside a string. -/
def brief (b : UInt8) : Bytes :=
  if b = 34 ∨ b = 92 then [92, b]
  else if b = 10 then [92, 110]
  else if b = 13 then [92, 114]
  else if b = 9 then [92, 116]
  else if b < 32 then [] else [b]

/-- What is left of a string. -/
def kept (s : Bytes) : Bytes := s.filter fun b => 32 ≤ b || b = 10 || b = 13 || b = 9

/-- A string. -/
def quote (s : Bytes) : Bytes := 34 :: (s.flatMap brief ++ [34])

/-- A name and what stands under it. -/
def writeNamed {α : Type} (write : α → Bytes) (f : Bytes × α) : Bytes := quote f.1 ++ 58 :: write f.2

def Scalar.write : Scalar → Bytes
  | .str s => quote s
  | .num n => decimal n
  | .bool true => text "true"
  | .bool false => text "false"

def Value.write : Value → Bytes
  | .one v => v.write
  | .many vs => writeMany Scalar.write 91 93 vs
  | .fields fs => writeMany (writeNamed Scalar.write) 123 125 fs

def writeObject (o : Object) : Bytes := writeMany (writeNamed Value.write) 123 125 o

def Scalar.kept : Scalar → Scalar
  | .str s => .str (Json.kept s)
  | v => v

def keptNamed {α : Type} (inner : α → α) (f : Bytes × α) : Bytes × α := (kept f.1, inner f.2)

def Value.kept : Value → Value
  | .one v => .one v.kept
  | .many vs => .many (vs.map Scalar.kept)
  | .fields fs => .fields (fs.map (keptNamed Scalar.kept))

/-! ## Reading -/

/-- What the letter behind a backslash stands for. -/
def unescape (c : UInt8) : Option UInt8 :=
  if c = 34 ∨ c = 92 ∨ c = 47 then some c else (letters.find? fun p => p.2 = c).map Prod.fst

/-- A string from behind its opening quote, and what follows it. -/
def readStrict : Bytes → Option (Bytes × Bytes)
  | 92 :: c :: r => (unescape c).bind fun b => (readStrict r).map fun p => (b :: p.1, p.2)
  | b :: r =>
    if b = 34 then some ([], r)
    else if b < 32 ∨ b = 92 then none
    else (readStrict r).map fun p => (b :: p.1, p.2)
  | [] => none

def readQuote : Bytes → Option (Bytes × Bytes)
  | b :: r => if b = 34 then readStrict r else none
  | [] => none

/-- A number with no zero in front. -/
def readNum (bs : Bytes) : Option (ℕ × Bytes) :=
  if bs.takeWhile isDigit = [] ∨
      ((bs.takeWhile isDigit).head? = some 48 ∧ bs.takeWhile isDigit ≠ [48]) then none
  else some (parseDecimal (bs.takeWhile isDigit), bs.dropWhile isDigit)

def readScalar (bs : Bytes) : Option (Scalar × Bytes) :=
  if bs.head? = some 34 then (readQuote bs).map fun p => (.str p.1, p.2)
  else if text "true" <+: bs then some (.bool true, bs.drop 4)
  else if text "false" <+: bs then some (.bool false, bs.drop 5)
  else (readNum bs).map fun p => (.num p.1, p.2)

def readNamed {α : Type} (read : Bytes → Option (α × Bytes)) (bs : Bytes) :
    Option ((Bytes × α) × Bytes) :=
  match readQuote bs with
  | some (name, c :: r) => if c = 58 then (read r).map fun p => ((name, p.1), p.2) else none
  | _ => none

def readValue (bs : Bytes) : Option (Value × Bytes) :=
  if bs.head? = some 91 then (readMany readScalar 91 93 bs).map fun p => (.many p.1, p.2)
  else if bs.head? = some 123 then
    (readMany (readNamed readScalar) 123 125 bs).map fun p => (.fields p.1, p.2)
  else (readScalar bs).map fun p => (.one p.1, p.2)

/-- The object a whole text is the JSON of. -/
def parse (t : Bytes) : Option Object :=
  if Utf8.valid t = true then
    match readMany (readNamed readValue) 123 125 t with
    | some (o, []) => some o
    | _ => none
  else none

/-! ## What is written is read back -/

/-- What becomes of a byte: it goes, it gets a backslash before the letter that stands for it, or it
stays. -/
theorem brief_cases (b : UInt8) :
    (brief b = [] ∧ kept [b] = []) ∨
    (∃ c, brief b = [92, c] ∧ unescape c = some b ∧ kept [b] = [b]) ∨
    (brief b = [b] ∧ kept [b] = [b] ∧ b ≠ 34 ∧ b ≠ 92 ∧ ¬ b < 32) := by
  by_cases hlow : b < 128
  · have hall : ∀ n < 128, (brief (UInt8.ofNat n) = [] ∧ kept [UInt8.ofNat n] = []) ∨
        (∃ c ∈ [(34 : UInt8), 92, 110, 114, 116], brief (UInt8.ofNat n) = [92, c] ∧
          unescape c = some (UInt8.ofNat n) ∧ kept [UInt8.ofNat n] = [UInt8.ofNat n]) ∨
        (brief (UInt8.ofNat n) = [UInt8.ofNat n] ∧ kept [UInt8.ofNat n] = [UInt8.ofNat n] ∧
          UInt8.ofNat n ≠ 34 ∧ UInt8.ofNat n ≠ 92 ∧ ¬ UInt8.ofNat n < 32) := by
      decide
    have h := hall b.toNat (by simpa using UInt8.lt_iff_toNat_lt.1 hlow)
    rw [UInt8.ofNat_toNat] at h
    rcases h with h | ⟨c, -, h⟩ | h
    · exact Or.inl h
    · exact Or.inr (Or.inl ⟨c, h⟩)
    · exact Or.inr (Or.inr h)
  · refine Or.inr (Or.inr ?_)
    have hhigh : 128 ≤ b.toNat := by simpa [UInt8.lt_iff_toNat_lt] using hlow
    have hne : ∀ c : UInt8, c.toNat < 128 → b ≠ c := by
      intro c hc h
      subst h
      omega
    have h32 : ¬ b < 32 := by
      rw [UInt8.lt_iff_toNat_lt]
      show ¬ b.toNat < 32
      omega
    have hkept : kept [b] = [b] := by
      have hle : (32 : UInt8) ≤ b := UInt8.not_lt.1 h32
      simp [kept, hle]
    refine ⟨?_, hkept, hne 34 (by decide), hne 92 (by decide), h32⟩
    unfold brief
    rw [if_neg (by simp [hne 34 (by decide), hne 92 (by decide)]), if_neg (hne 10 (by decide)),
      if_neg (hne 13 (by decide)), if_neg (hne 9 (by decide)), if_neg h32]

theorem kept_cons (b : UInt8) (s : Bytes) : kept (b :: s) = kept [b] ++ kept s := by
  rw [kept, ← List.singleton_append, List.filter_append]
  rfl

theorem readStrict_flatMap (s r : Bytes) :
    readStrict (s.flatMap brief ++ 34 :: r) = some (kept s, r) := by
  induction s with
  | nil => rfl
  | cons b s ih =>
    rw [List.flatMap_cons, List.append_assoc, kept_cons]
    rcases brief_cases b with ⟨hb, hk⟩ | ⟨c, hb, hc, hk⟩ | ⟨hb, hk, h34, h92, h32⟩
    · rw [hb, hk]
      exact ih
    · rw [hb, hk]
      show readStrict (92 :: c :: (s.flatMap brief ++ 34 :: r)) = _
      rw [readStrict, hc, Option.bind_some, ih]
      rfl
    · rw [hb, hk]
      show readStrict (b :: (s.flatMap brief ++ 34 :: r)) = _
      rw [readStrict, if_neg h34, if_neg (by simp [h32, h92]), ih]
      · rfl
      · intro c r' hcons _
        exact h92 hcons

theorem readQuote_quote (s r : Bytes) : readQuote (quote s ++ r) = some (kept s, r) := by
  rw [quote, List.cons_append, List.append_assoc, readQuote, if_pos rfl]
  exact readStrict_flatMap s r

theorem decimal_zero_head {n : ℕ} (h : (decimal n).head? = some 48) : decimal n = [48] := by
  unfold decimal at h ⊢
  split
  · rfl
  · next hn =>
    have hne : Nat.digits 10 n ≠ [] := Nat.digits_ne_nil_iff_ne_zero.2 hn
    rw [if_neg hn, List.head?_reverse, List.getLast?_map, List.getLast?_eq_some_getLast hne,
      Option.map_some, Option.some.injEq] at h
    have hlast := Nat.getLast_digit_ne_zero 10 hn
    have hlt : (Nat.digits 10 n).getLast hne < 10 :=
      Nat.digits_lt_base (by omega) (List.getLast_mem hne)
    have hnat := congrArg UInt8.toNat h
    simp at hnat
    omega

theorem span_decimal {c : UInt8} (hc : isDigit c = false) (n : ℕ) (r : Bytes) :
    (decimal n ++ c :: r).takeWhile isDigit = decimal n ∧
      (decimal n ++ c :: r).dropWhile isDigit = c :: r := by
  have hall : ∀ b ∈ decimal n, isDigit b = true := List.all_eq_true.1 (all_isDigit_decimal n)
  rw [List.takeWhile_append_of_pos hall, List.dropWhile_append_of_pos hall,
    List.takeWhile_cons_of_neg (by simp [hc]), List.dropWhile_cons_of_neg (by simp [hc])]
  exact ⟨List.append_nil _, rfl⟩

theorem readNum_decimal {c : UInt8} (hc : isDigit c = false) (n : ℕ) (r : Bytes) :
    readNum (decimal n ++ c :: r) = some (n, c :: r) := by
  obtain ⟨htake, hdrop⟩ := span_decimal hc n r
  rw [readNum, htake, hdrop, if_neg, parseDecimal_decimal]
  rintro (hnil | ⟨hhead, hne⟩)
  · exact decimal_ne_nil n hnil
  · exact hne (decimal_zero_head hhead)

/-- The bytes that may follow a value. -/
def Ends (c : UInt8) : Prop := c = 44 ∨ c = 93 ∨ c = 125

/-- The head of a number's text is one of its digits. -/
theorem head_decimal (n : ℕ) : ∃ d ds, decimal n = d :: ds ∧ isDigit d = true := by
  obtain ⟨d, ds, hd⟩ := List.exists_cons_of_ne_nil (decimal_ne_nil n)
  refine ⟨d, ds, hd, List.all_eq_true.1 (all_isDigit_decimal n) d ?_⟩
  rw [hd]
  exact List.mem_cons_self

theorem isDigit_not_text {d : UInt8} (hd : isDigit d = true) :
    d ≠ 34 ∧ d ≠ 116 ∧ d ≠ 102 ∧ d ≠ 91 ∧ d ≠ 123 ∧ d ≠ 93 ∧ d ≠ 125 := by
  refine ⟨?_, ?_, ?_, ?_, ?_, ?_, ?_⟩ <;>
  · rintro rfl
    exact absurd hd (by decide)

theorem not_prefix_decimal {b : UInt8} (hb : isDigit b = false) (w : Bytes) (n : ℕ) (r : Bytes) :
    ¬ b :: w <+: decimal n ++ r := by
  obtain ⟨d, ds, hds, hd⟩ := head_decimal n
  rw [hds, List.cons_append, List.cons_prefix_cons]
  rintro ⟨rfl, -⟩
  rw [hb] at hd
  cases hd

theorem readScalar_write (v : Scalar) {c : UInt8} (hc : Ends c) (r : Bytes) :
    readScalar (v.write ++ c :: r) = some (v.kept, c :: r) := by
  cases v with
  | str s =>
    rw [Scalar.write, readScalar, if_pos (by rw [quote]; rfl), readQuote_quote]
    rfl
  | num n =>
    have hdigit : isDigit c = false := by
      rcases hc with rfl | rfl | rfl <;> decide
    obtain ⟨d, ds, hds, hd⟩ := head_decimal n
    have hhead : (decimal n ++ c :: r).head? ≠ some 34 := by
      rw [hds, List.cons_append, List.head?_cons]
      exact fun h => (isDigit_not_text hd).1 (Option.some.inj h)
    have htrue : ¬ text "true" <+: decimal n ++ c :: r :=
      not_prefix_decimal (b := 116) (by decide) (text "rue") n (c :: r)
    have hfalse : ¬ text "false" <+: decimal n ++ c :: r :=
      not_prefix_decimal (b := 102) (by decide) (text "alse") n (c :: r)
    rw [Scalar.write, readScalar, if_neg hhead, if_neg htrue, if_neg hfalse,
      readNum_decimal hdigit]
    rfl
  | bool b =>
    cases b with
    | true =>
      rw [Scalar.write, readScalar, if_neg (by rw [show text "true" = [116, 114, 117, 101] by decide]; simp),
        if_pos (List.prefix_append _ _)]
      rfl
    | false =>
      rw [Scalar.write, readScalar, if_neg (by rw [show text "false" = [102, 97, 108, 115, 101] by decide]; simp),
        if_neg (by rw [show text "false" = [102, 97, 108, 115, 101] by decide,
          show text "true" = [116, 114, 117, 101] by decide]; simp),
        if_pos (List.prefix_append _ _)]
      rfl

theorem quote_ne_nil (s : Bytes) : quote s ≠ [] := List.cons_ne_nil _ _

theorem head_writeNamed {α : Type} (write : α → Bytes) (f : Bytes × α) (r : Bytes) :
    (writeNamed write f ++ r).head? = some 34 := rfl

theorem readNamed_writeNamed {α : Type} {read : Bytes → Option (α × Bytes)} {write : α → Bytes}
    {inner : α → α} {f : Bytes × α} {r r' : Bytes}
    (hread : read (write f.2 ++ r) = some (inner f.2, r')) :
    readNamed read (writeNamed write f ++ r) = some (keptNamed inner f, r') := by
  rw [writeNamed, List.append_assoc, List.cons_append, readNamed, readQuote_quote]
  show (if (58 : UInt8) = 58 then _ else none) = _
  rw [if_pos rfl, hread]
  rfl

theorem head_write (v : Scalar) : ∃ b bs, v.write = b :: bs ∧ b ≠ 91 ∧ b ≠ 123 ∧ b ≠ 93 := by
  cases v with
  | str s => exact ⟨34, _, rfl, by decide, by decide, by decide⟩
  | num n =>
    obtain ⟨d, ds, hds, hd⟩ := head_decimal n
    obtain ⟨-, -, -, h91, h123, h93, -⟩ := isDigit_not_text hd
    exact ⟨d, ds, hds, h91, h123, h93⟩
  | bool b => cases b <;> exact ⟨_, _, rfl, by decide, by decide, by decide⟩

theorem readMany_scalars (vs : List Scalar) (r : Bytes) :
    readMany readScalar 91 93 (writeMany Scalar.write 91 93 vs ++ r) =
      some (vs.map Scalar.kept, r) := by
  refine readMany_writeMany 91 ?_ (by decide) (fun v => ?_) (fun v => ?_) r
  · intro v _ c r hc
    exact readScalar_write v (hc.imp_right Or.inl) r
  all_goals
    obtain ⟨b, bs, hb, -, -, h93⟩ := head_write v
    rw [hb]
    simp [h93]

theorem readMany_named {α : Type} {read : Bytes → Option (α × Bytes)} {write : α → Bytes}
    {inner : α → α} {fs : List (Bytes × α)}
    (hread : ∀ f ∈ fs, ∀ c r, Ends c → read (write f.2 ++ c :: r) = some (inner f.2, c :: r))
    (r : Bytes) :
    readMany (readNamed read) 123 125 (writeMany (writeNamed write) 123 125 fs ++ r) =
      some (fs.map (keptNamed inner), r) := by
  refine readMany_writeMany 123 ?_ (by decide) (fun f => ?_) (fun f => ?_) r
  · intro f hf c r hc
    exact readNamed_writeNamed (hread f hf c r (hc.imp_right Or.inr))
  · have := head_writeNamed write f []
    rw [List.append_nil] at this
    rw [this]
    decide
  · simp [writeNamed, quote]

theorem readValue_write (v : Value) {c : UInt8} (hc : Ends c) (r : Bytes) :
    readValue (v.write ++ c :: r) = some (v.kept, c :: r) := by
  cases v with
  | one v =>
    obtain ⟨b, bs, hb, h91, h123, -⟩ := head_write v
    have hhead : (v.write ++ c :: r).head? = some b := by rw [hb]; rfl
    rw [Value.write, readValue, if_neg (by rw [hhead]; simpa using h91),
      if_neg (by rw [hhead]; simpa using h123), readScalar_write v hc]
    rfl
  | many vs =>
    have hhead : (writeMany Scalar.write 91 93 vs ++ c :: r).head? = some 91 := rfl
    rw [Value.write, readValue, if_pos hhead, readMany_scalars]
    rfl
  | fields fs =>
    have hhead : (writeMany (writeNamed Scalar.write) 123 125 fs ++ c :: r).head? = some 123 := rfl
    have hread : readMany (readNamed readScalar) 123 125
        (writeMany (writeNamed Scalar.write) 123 125 fs ++ c :: r) =
          some (fs.map (keptNamed Scalar.kept), c :: r) :=
      readMany_named (fun f _ c r hc => readScalar_write f.2 hc r) (c :: r)
    rw [Value.write, readValue, if_neg (by rw [hhead]; decide), if_pos hhead, hread]
    rfl

/-! ## What is written is a text -/

theorem brief_ascii (b : UInt8) (hb : b < 0x80) : ∀ c ∈ brief b, c < 0x80 := by
  have hall : ∀ n < 128, ((brief (UInt8.ofNat n)).all fun c => decide (c < 0x80)) = true := by
    decide
  have h := hall b.toNat (by simpa using UInt8.lt_iff_toNat_lt.1 hb)
  rw [UInt8.ofNat_toNat] at h
  exact fun c hc => of_decide_eq_true (List.all_eq_true.1 h c hc)

theorem brief_high (b : UInt8) (hb : ¬ b < 0x80) : brief b = [b] :=
  forall_byte (P := fun b => ¬ b < 0x80 → brief b = [b]) (by decide +kernel) b hb

theorem valid_quote {s : Bytes} (h : Utf8.valid s = true) : Utf8.valid (quote s) = true := by
  rw [quote, valid_cons_ascii (by decide), Utf8.valid_append_ascii (by decide),
    valid_flatMap brief_ascii brief_high h]
  rfl

/-- No control characters are written. -/
theorem low_brief (b : UInt8) : ∀ c ∈ brief b, 32 ≤ c := by
  have hall : ∀ b, ((brief b).all fun c => decide (32 ≤ c)) = true :=
    forall_byte (by decide +kernel)
  exact fun c hc => of_decide_eq_true (List.all_eq_true.1 (hall b) c hc)

theorem low_quote {s : Bytes} : ∀ c ∈ quote s, 32 ≤ c := by
  intro c hc
  rcases List.mem_cons.1 hc with rfl | hc
  · decide
  · rcases List.mem_append.1 hc with hc | hc
    · obtain ⟨b, -, hb⟩ := List.mem_flatMap.1 hc
      exact low_brief b c hb
    · rw [List.mem_singleton.1 hc]
      decide

theorem low_many {α : Type} {item : α → Bytes} {opening close : UInt8} {as : List α}
    (hopening : 32 ≤ opening) (hclose : 32 ≤ close) (h : ∀ a ∈ as, ∀ c ∈ item a, 32 ≤ c) :
    ∀ c ∈ writeMany item opening close as, 32 ≤ c := by
  have hitems : ∀ c ∈ [44].intercalate (as.map item), 32 ≤ c := by
    induction as with
    | nil =>
      intro c hc
      cases hc
    | cons a as ih =>
      obtain ⟨ha, has⟩ := List.forall_mem_cons.1 h
      cases as with
      | nil => simpa using ha
      | cons b as =>
        rw [List.map_cons, List.map_cons, List.intercalate_cons_cons, ← List.map_cons]
        intro c hc
        rcases List.mem_append.1 hc with hc | hc
        · rcases List.mem_append.1 hc with hc | hc
          · exact ha c hc
          · rw [List.mem_singleton.1 hc]
            decide
        · exact ih has c hc
  intro c hc
  rcases List.mem_cons.1 hc with rfl | hc
  · exact hopening
  · rcases List.mem_append.1 hc with hc | hc
    · exact hitems c hc
    · rw [List.mem_singleton.1 hc]
      exact hclose

theorem low_scalar (v : Scalar) : ∀ c ∈ v.write, 32 ≤ c := by
  cases v with
  | str s => exact low_quote
  | num n =>
    intro c hc
    have hdigit := List.all_eq_true.1 (all_isDigit_decimal n) c hc
    simp only [isDigit, Bool.and_eq_true, decide_eq_true_eq] at hdigit
    exact UInt8.le_trans (by decide) hdigit.1
  | bool b =>
    have hall : (text "true").all (fun c => decide (32 ≤ c)) = true ∧
        (text "false").all (fun c => decide (32 ≤ c)) = true := by decide
    intro c hc
    cases b
    · exact of_decide_eq_true (List.all_eq_true.1 hall.2 c hc)
    · exact of_decide_eq_true (List.all_eq_true.1 hall.1 c hc)

theorem low_named {α : Type} {write : α → Bytes} {f : Bytes × α} (h : ∀ c ∈ write f.2, 32 ≤ c) :
    ∀ c ∈ writeNamed write f, 32 ≤ c := by
  intro c hc
  rcases List.mem_append.1 hc with hc | hc
  · exact low_quote c hc
  · rcases List.mem_cons.1 hc with rfl | hc
    · decide
    · exact h c hc

theorem low_value (v : Value) : ∀ c ∈ v.write, 32 ≤ c := by
  cases v with
  | one v => exact low_scalar v
  | many vs => exact low_many (by decide) (by decide) fun v _ => low_scalar v
  | fields fs => exact low_many (by decide) (by decide) fun f _ => low_named (low_scalar f.2)

/-- **What is written is one line.** -/
theorem low_writeObject (o : Object) : ∀ c ∈ writeObject o, 32 ≤ c :=
  low_many (by decide) (by decide) fun f _ => low_named (low_value f.2)

def Scalar.Valid : Scalar → Prop
  | .str s => Utf8.valid s = true
  | _ => True

def Value.Valid : Value → Prop
  | .one v => v.Valid
  | .many vs => ∀ v ∈ vs, v.Valid
  | .fields fs => ∀ f ∈ fs, Utf8.valid f.1 = true ∧ f.2.Valid

theorem valid_digits {ds : Bytes} (h : ds.all isDigit = true) : Utf8.valid ds = true := by
  have hlow : ∀ c ∈ ds, c < 0x80 := by
    intro c hc
    have hdigit := List.all_eq_true.1 h c hc
    simp only [isDigit, Bool.and_eq_true, decide_eq_true_eq] at hdigit
    exact UInt8.lt_of_le_of_lt hdigit.2 (by decide)
  have := Utf8.valid_append_of_ascii hlow []
  rwa [List.nil_append] at this

theorem Scalar.valid_write {v : Scalar} (h : v.Valid) : Utf8.valid v.write = true := by
  cases v with
  | str s => exact valid_quote h
  | num n => exact valid_digits (all_isDigit_decimal n)
  | bool b => cases b <;> decide

theorem valid_writeNamed {α : Type} {write : α → Bytes} {f : Bytes × α}
    (hname : Utf8.valid f.1 = true) (hwrite : Utf8.valid (write f.2) = true) :
    Utf8.valid (writeNamed write f) = true := by
  rw [writeNamed, Utf8.valid_append (valid_quote hname), valid_cons_ascii (by decide), hwrite]

theorem Value.valid_write {v : Value} (h : v.Valid) : Utf8.valid v.write = true := by
  cases v with
  | one v => exact Scalar.valid_write h
  | many vs =>
    exact valid_writeMany (fun v hv => Scalar.valid_write (h v hv)) (by decide) (by decide)
  | fields fs =>
    exact valid_writeMany (fun f hf => valid_writeNamed (h f hf).1 (Scalar.valid_write (h f hf).2))
      (by decide) (by decide)

/-- **What is written is read back**, less the control characters that were left out. -/
theorem parse_writeObject {o : Object} (h : ∀ f ∈ o, Utf8.valid f.1 = true ∧ f.2.Valid) :
    parse (writeObject o) = some (o.map (keptNamed Value.kept)) := by
  have hvalid : Utf8.valid (writeObject o) = true :=
    valid_writeMany (fun f hf => valid_writeNamed (h f hf).1 (Value.valid_write (h f hf).2))
      (by decide) (by decide)
  have hread : readMany (readNamed readValue) 123 125
      (writeMany (writeNamed Value.write) 123 125 o ++ []) =
        some (o.map (keptNamed Value.kept), []) :=
    readMany_named (fun f _ c r hc => readValue_write f.2 hc r) []
  rw [List.append_nil] at hread
  unfold parse
  rw [if_pos hvalid]
  unfold writeObject
  rw [hread]

end Json

end Aurade
