import Aurade.Foundations.Bytes

/-!
# Percent encoding

`percentEncode safe` writes the bytes that are not `safe` as a percent sign and two digits, and
`percentDecoded plain` is what such a text stands for: an escape is its byte, every other byte `b`
is `plain b`, and a percent sign that starts no escape stands for itself.

A program that decodes a string in place cuts it behind a percent sign, which it can do only between
characters, and reads what it cut out as a number. `decodeLoop` is that loop, with `none` where the
cut is no cut. `decodeLoop_eq_iff` says where it does what it should: on a `Clean` string, and on no
other string is the difference lost in what is left over when the bytes are read as text.
-/

namespace Aurade

/-- The value of a hexadecimal digit. -/
def hexValue (b : UInt8) : Option ℕ :=
  if isDigit b then some (b.toNat - 48)
  else if 97 ≤ b && b ≤ 102 then some (b.toNat - 87)
  else if 65 ≤ b && b ≤ 70 then some (b.toNat - 55)
  else none

/-- A hexadecimal digit in upper case. -/
def hexUpper (n : ℕ) : UInt8 := if n < 10 then UInt8.ofNat (48 + n) else UInt8.ofNat (55 + n)

/-- The byte two digits stand for. -/
def hexByte (a b : UInt8) : Option UInt8 :=
  (hexValue a).bind fun m => (hexValue b).map fun n => UInt8.ofNat (16 * m + n)

/-- The bytes that are not safe as escapes. -/
def percentEncode (safe : UInt8 → Bool) (bs : Bytes) : Bytes :=
  bs.flatMap fun b => if safe b then [b] else [37, hexUpper (b.toNat / 16), hexUpper (b.toNat % 16)]

/-- What a text with escapes stands for. -/
def percentDecoded (plain : UInt8 → UInt8) : Bytes → Bytes
  | p :: a :: b :: rest =>
    if p = 37 then
      match hexByte a b with
      | some x => x :: percentDecoded plain rest
      | none => p :: percentDecoded plain (a :: b :: rest)
    else plain p :: percentDecoded plain (a :: b :: rest)
  | bs => bs.map plain

/-! ## The loop over a string -/

/-- `u8::from_str_radix` for base 16: digits, with a plus sign before them if need be. -/
def fromStrRadix16 (s : Bytes) : Option UInt8 :=
  let digits := if 1 < s.length ∧ s.head? = some 43 then s.tail else s
  if digits = [] then none
  else (digits.foldlM (fun n b => (hexValue b).map (16 * n + ·)) 0).bind fun n =>
    if n < 256 then some (UInt8.ofNat n) else none

/-- Whether a string can be cut before these bytes of it. -/
def isCharBoundary (bs : Bytes) : Bool := !(bs.head?.any Utf8.isCont)

/-- The decoding loop. Nothing where the two bytes behind a percent sign are no slice of the string,
which stops the program. -/
def decodeLoop (plain : UInt8 → UInt8) : Bytes → Option Bytes
  | p :: a :: b :: rest =>
    if p = 37 then
      if isCharBoundary (a :: b :: rest) && isCharBoundary rest then
        match fromStrRadix16 [a, b] with
        | some x => (decodeLoop plain rest).map (x :: ·)
        | none => (decodeLoop plain (a :: b :: rest)).map (p :: ·)
      else none
    else (decodeLoop plain (a :: b :: rest)).map (plain p :: ·)
  | bs => some (bs.map plain)

/-- What is wrong behind a percent sign: no slice, or a number with a sign. -/
def Trap (a b : UInt8) (rest : Bytes) : Prop :=
  ¬(isCharBoundary (a :: b :: rest) && isCharBoundary rest) = true ∨ (a = 43 ∧ (hexValue b).isSome)

instance (a b : UInt8) (rest : Bytes) : Decidable (Trap a b rest) := inferInstanceAs (Decidable (_ ∨ _))

/-- Nothing is wrong behind any percent sign. -/
def Clean : Bytes → Prop
  | p :: a :: b :: rest => (p = 37 → ¬Trap a b rest) ∧ Clean (a :: b :: rest)
  | _ => True

instance decidableClean : (bs : Bytes) → Decidable (Clean bs)
  | _ :: a :: b :: rest =>
    have := decidableClean (a :: b :: rest)
    inferInstanceAs (Decidable (_ ∧ _))
  | [_, _] => .isTrue trivial
  | [_] => .isTrue trivial
  | [] => .isTrue trivial

theorem hexByte_hexUpper (x : UInt8) :
    hexByte (hexUpper (x.toNat / 16)) (hexUpper (x.toNat % 16)) = some x ∧
      hexUpper (x.toNat / 16) ≠ 43 ∧ hexUpper (x.toNat / 16) < 0x80 ∧ hexUpper (x.toNat % 16) < 0x80 := by
  revert x
  exact forall_byte (by decide +kernel)

theorem hexValue_ne {b : UInt8} (h : (hexValue b).isSome) : b ≠ 37 ∧ b ≠ 43 := by
  constructor <;> rintro rfl <;> exact absurd h (by decide)

theorem hexValue_lt {b : UInt8} {n : ℕ} (h : hexValue b = some n) : n < 16 := by
  have hall : ∀ b, (hexValue b).all (· < 16) = true := forall_byte (by decide +kernel)
  simpa [h] using hall b

/-- Two digits are read as they should; behind a plus sign one is. -/
theorem fromStrRadix16_pair (a b : UInt8) :
    fromStrRadix16 [a, b] = if a = 43 then (hexValue b).map UInt8.ofNat else hexByte a b := by
  by_cases ha : a = 43
  · subst ha
    cases hb : hexValue b with
    | none => simp [fromStrRadix16, hb]
    | some n =>
      have hn := hexValue_lt hb
      have hlt : n < 256 := by omega
      simp [fromStrRadix16, hb, hlt]
  · rw [if_neg ha]
    cases hx : hexValue a with
    | none => simp [fromStrRadix16, hexByte, ha, hx]
    | some m =>
      cases hb : hexValue b with
      | none => simp [fromStrRadix16, hexByte, ha, hx, hb]
      | some n =>
        have hm := hexValue_lt hx
        have hn := hexValue_lt hb
        have hlt : 16 * m + n < 256 := by omega
        simp [fromStrRadix16, hexByte, ha, hx, hb, hlt]

section

variable {plain : UInt8 → UInt8}

theorem percentDecoded_cons {p : UInt8} (hp : p ≠ 37) (bs : Bytes) :
    percentDecoded plain (p :: bs) = plain p :: percentDecoded plain bs := by
  rcases bs with _ | ⟨a, _ | ⟨b, rest⟩⟩
  · rfl
  · rfl
  · rw [percentDecoded, if_neg hp]

theorem decodeLoop_cons {p : UInt8} (hp : p ≠ 37) (bs : Bytes) :
    decodeLoop plain (p :: bs) = (decodeLoop plain bs).map (plain p :: ·) := by
  rcases bs with _ | ⟨a, _ | ⟨b, rest⟩⟩
  · rfl
  · rfl
  · rw [decodeLoop, if_neg hp]

theorem clean_cons {p : UInt8} (hp : p ≠ 37) (bs : Bytes) : Clean (p :: bs) ↔ Clean bs := by
  rcases bs with _ | ⟨a, _ | ⟨b, rest⟩⟩
  · exact Iff.rfl
  · exact Iff.rfl
  · rw [Clean]
    exact and_iff_right fun h => absurd h hp

/-- Behind an escape of two digits. -/
theorem clean_escape {a b : UInt8} {x : UInt8} (h : hexByte a b = some x) (rest : Bytes) :
    Clean (a :: b :: rest) ↔ Clean rest := by
  obtain ⟨m, hm, hb⟩ := Option.bind_eq_some_iff.1 h
  obtain ⟨n, hn, -⟩ := Option.map_eq_some_iff.1 hb
  rw [clean_cons (hexValue_ne (by rw [hm]; rfl)).1, clean_cons (hexValue_ne (by rw [hn]; rfl)).1]

theorem trap_append {a b : UInt8} {rest : Bytes} (h : Trap a b rest) (z : Bytes) :
    Trap a b (rest ++ z) := by
  refine h.imp_left fun hcut hall => hcut ?_
  cases rest with
  | nil =>
    rw [Bool.and_eq_true] at hall ⊢
    exact ⟨hall.1, rfl⟩
  | cons c rest => exact hall

/-- A part of a clean string is clean. -/
theorem Clean.of_isInfix {v bs : Bytes} (h : Clean bs) (hv : v <:+: bs) : Clean v := by
  obtain ⟨u, w, rfl⟩ := hv
  have htail : ∀ {x : UInt8} {ys : Bytes}, Clean (x :: ys) → Clean ys := by
    intro x ys hx
    rcases ys with _ | ⟨a, _ | ⟨b, rest⟩⟩
    · trivial
    · trivial
    · exact hx.2
  have hvw : Clean (v ++ w) := by
    induction u with
    | nil => exact h
    | cons x u ih => exact ih (htail h)
  clear h
  induction v with
  | nil => trivial
  | cons p v ih =>
    rcases v with _ | ⟨a, _ | ⟨b, rest⟩⟩
    · trivial
    · trivial
    · exact ⟨fun hp htrap => hvw.1 hp (trap_append htrap w), ih hvw.2⟩

/-- Where nothing is wrong behind a percent sign, the number that is read is the escape's byte. -/
theorem fromStrRadix16_of_not_trap {a b : UInt8} {rest : Bytes} (h : ¬Trap a b rest) :
    (isCharBoundary (a :: b :: rest) && isCharBoundary rest) = true ∧
      fromStrRadix16 [a, b] = hexByte a b := by
  rw [Trap, not_or, Classical.not_not] at h
  refine ⟨h.1, ?_⟩
  rw [fromStrRadix16_pair]
  split
  · next ha =>
    have hb : hexValue b = none := by
      cases hb : hexValue b with
      | none => rfl
      | some n => exact absurd ⟨ha, by rw [hb]; rfl⟩ h.2
    subst ha
    rw [hb]
    rfl
  · rfl

theorem decodeLoop_of_not_trap {a b : UInt8} {rest : Bytes} (h : ¬Trap a b rest) :
    decodeLoop plain (37 :: a :: b :: rest) =
      match hexByte a b with
      | some x => (decodeLoop plain rest).map (x :: ·)
      | none => (decodeLoop plain (a :: b :: rest)).map (37 :: ·) := by
  obtain ⟨hcut, hread⟩ := fromStrRadix16_of_not_trap h
  rw [decodeLoop, if_pos rfl, if_pos hcut, hread]

/-- On a clean string the loop gives what the string stands for. -/
theorem decodeLoop_of_clean {bs : Bytes} (h : Clean bs) :
    decodeLoop plain bs = some (percentDecoded plain bs) := by
  fun_induction percentDecoded plain bs with
  | case1 a b rest x hx ih =>
    rw [decodeLoop_of_not_trap (h.1 rfl), hx]
    dsimp only
    rw [ih ((clean_escape hx rest).1 h.2)]
    rfl
  | case2 a b rest hx ih =>
    rw [decodeLoop_of_not_trap (h.1 rfl), hx]
    dsimp only
    rw [ih h.2]
    rfl
  | case3 p a b rest hp ih =>
    rw [decodeLoop_cons hp, ih h.2]
    rfl
  | case4 bs hbs =>
    rcases bs with _ | ⟨a, _ | ⟨b, _ | ⟨c, rest⟩⟩⟩
    · rfl
    · rfl
    · rfl
    · exact absurd rfl (hbs a b c rest)

/-- A result that does not come, or has a control character where the text has a percent sign. -/
def Misread (result : Option Bytes) (stands : Bytes) : Prop :=
  result = none ∨ ∃ u x v w, result = some (u ++ x :: v) ∧ stands = u ++ 37 :: w ∧ x < 16

theorem Misread.cons {result : Option Bytes} {stands : Bytes} (h : Misread result stands)
    (c : UInt8) : Misread (result.map (c :: ·)) (c :: stands) := by
  rcases h with rfl | ⟨u, x, v, w, rfl, rfl, hx⟩
  · exact Or.inl rfl
  · exact Or.inr ⟨c :: u, x, v, w, rfl, rfl, hx⟩

theorem decodeLoop_of_trap (plain : UInt8 → UInt8) {a b : UInt8} {rest : Bytes} (h : Trap a b rest) :
    Misread (decodeLoop plain (37 :: a :: b :: rest)) (percentDecoded plain (37 :: a :: b :: rest)) := by
  rw [decodeLoop, if_pos rfl]
  split
  · next hcut =>
    obtain ⟨rfl, hb⟩ := h.resolve_left fun hno => hno hcut
    obtain ⟨n, hn⟩ := Option.isSome_iff_exists.1 hb
    have hlt := hexValue_lt hn
    have hx : UInt8.ofNat n < 16 := by
      rw [UInt8.lt_iff_toNat_lt, UInt8.toNat_ofNat_of_lt' (hlt.trans (by decide))]
      exact hlt
    rw [fromStrRadix16_pair, if_pos rfl, hn]
    cases hrest : decodeLoop plain rest with
    | none => exact Or.inl rfl
    | some v => exact Or.inr ⟨[], _, v, _, rfl, rfl, hx⟩
  · exact Or.inl rfl

/-- On any other string the loop misreads something. -/
theorem decodeLoop_of_not_clean (plain : UInt8 → UInt8) {bs : Bytes} (h : ¬Clean bs) :
    Misread (decodeLoop plain bs) (percentDecoded plain bs) := by
  fun_induction percentDecoded plain bs with
  | case1 a b rest x hx ih =>
    by_cases htrap : Trap a b rest
    · have hall := decodeLoop_of_trap plain htrap
      rwa [percentDecoded, if_pos rfl, hx] at hall
    · rw [decodeLoop_of_not_trap htrap, hx]
      exact (ih fun hr => h ⟨fun _ => htrap, (clean_escape hx rest).2 hr⟩).cons x
  | case2 a b rest hx ih =>
    by_cases htrap : Trap a b rest
    · have hall := decodeLoop_of_trap plain htrap
      rwa [percentDecoded, if_pos rfl, hx] at hall
    · rw [decodeLoop_of_not_trap htrap, hx]
      exact (ih fun hr => h ⟨fun _ => htrap, hr⟩).cons 37
  | case3 p a b rest hp ih =>
    rw [decodeLoop_cons hp]
    exact (ih fun hr => h ⟨fun h37 => absurd h37 hp, hr⟩).cons (plain p)
  | case4 bs hbs =>
    rcases bs with _ | ⟨a, _ | ⟨b, _ | ⟨c, rest⟩⟩⟩
    · exact absurd trivial h
    · exact absurd trivial h
    · exact absurd trivial h
    · exact absurd rfl (hbs a b c rest)

/-- **Where decoding in place is right**: the loop ends with what the string stands for, read as
bytes or as text, exactly on the clean strings. -/
theorem decodeLoop_eq_iff (bs : Bytes) :
    (decodeLoop plain bs = some (percentDecoded plain bs) ↔ Clean bs) ∧
      ((decodeLoop plain bs).map Utf8.lossy = some (Utf8.lossy (percentDecoded plain bs)) ↔ Clean bs) := by
  have hmisread : ¬Clean bs →
      (decodeLoop plain bs).map Utf8.lossy ≠ some (Utf8.lossy (percentDecoded plain bs)) := by
    intro h heq
    rcases decodeLoop_of_not_clean plain h with hnone | ⟨u, x, v, w, hsome, hstands, hx⟩
    · rw [hnone] at heq
      exact nomatch heq
    · rw [hsome, hstands, Option.map_some, Utf8.lossy_append_ascii (UInt8.lt_trans hx (by decide)),
        Utf8.lossy_append_ascii (by decide)] at heq
      have hcons := List.append_cancel_left (Option.some.inj heq)
      rw [(List.cons.inj hcons).1] at hx
      exact absurd hx (by decide)
  refine ⟨⟨fun heq => ?_, decodeLoop_of_clean⟩, fun heq => ?_, fun h => ?_⟩
  · by_contra h
    exact hmisread h (congrArg (Option.map Utf8.lossy) heq)
  · by_contra h
    exact hmisread h heq
  · rw [decodeLoop_of_clean h]
    rfl

/-! ## Encoding and back -/

/-- What is encoded is read back, where the bytes that are safe are left alone by the decoding. -/
theorem decodeLoop_percentEncode {safe : UInt8 → Bool}
    (hsafe : ∀ b, safe b = true → b < 0x80 ∧ b ≠ 37 ∧ plain b = b) (bs : Bytes) :
    decodeLoop plain (percentEncode safe bs) = some bs := by
  have hstart : ∀ bs, isCharBoundary (percentEncode safe bs) = true := by
    intro bs
    cases bs with
    | nil => rfl
    | cons b bs =>
      rw [percentEncode, List.flatMap_cons]
      split
      · next hb =>
        rw [List.singleton_append, isCharBoundary, List.head?_cons, Option.any_some,
          Utf8.not_cont_of_ascii (hsafe b hb).1]
        rfl
      · rfl
  induction bs with
  | nil => rfl
  | cons b bs ih =>
    have hcons : percentEncode safe (b :: bs) =
        (if safe b then [b] else [37, hexUpper (b.toNat / 16), hexUpper (b.toNat % 16)]) ++
          percentEncode safe bs := List.flatMap_cons
    rw [hcons]
    split
    · next hb =>
      obtain ⟨-, hne, hplain⟩ := hsafe b hb
      rw [List.singleton_append, decodeLoop_cons hne, ih, hplain]
      rfl
    · obtain ⟨hbyte, hplus, hhigh, hlow⟩ := hexByte_hexUpper b
      have htrap : ¬Trap (hexUpper (b.toNat / 16)) (hexUpper (b.toNat % 16)) (percentEncode safe bs) := by
        rw [Trap, hstart, isCharBoundary, List.head?_cons, Option.any_some,
          Utf8.not_cont_of_ascii hhigh]
        simp [hplus]
      rw [List.cons_append, List.cons_append, List.cons_append, List.nil_append,
        decodeLoop_of_not_trap htrap, hbyte, ih]
      rfl

end

end Aurade
