import Aurade.Foundations.Bytes
import Aurade.Foundations.Chars

/-!
# The characters of a text

What decoding does to UTF-8: a chunk's bytes are put together into a code point, and a chunk that is
no character becomes U+FFFD. Of a text, the characters' bytes are the text again (`encode_decode`).
-/

namespace Aurade

/-- The bits a first byte has of its character. -/
def leadBits (b : UInt8) : ℕ :=
  if b < 0x80 then b.toNat
  else if b < 0xE0 then b.toNat - 0xC0
  else if b < 0xF0 then b.toNat - 0xE0
  else b.toNat - 0xF0

/-- The code point of a first byte and the bytes that continue it. -/
def codePoint (b : UInt8) (u : Bytes) : ℕ := u.foldl (fun n c => 64 * n + (c.toNat - 0x80)) (leadBits b)

namespace Utf8

/-- `decode` of at most `n` bytes. -/
def decodeAux : ℕ → Bytes → Str
  | 0, _ => []
  | _ + 1, [] => []
  | n + 1, b :: bs =>
    (if (chunk b bs).1 then Char.ofNat (codePoint b (bs.take (chunk b bs).2)) else '\uFFFD') ::
      decodeAux n (bs.drop (chunk b bs).2)

/-- The characters of a string read as text. -/
def decode (bs : Bytes) : Str := decodeAux bs.length bs

theorem isCont_iff {c : UInt8} : isCont c = true ↔ 0x80 ≤ c.toNat ∧ c.toNat ≤ 0xBF := by
  simp [isCont, UInt8.le_iff_toNat_le]

theorem val_ofNat {n : ℕ} (h : n.isValidChar) : (Char.ofNat n).val.toNat = n := by
  rw [Char.ofNat, dif_pos h]
  rfl

/-- The bytes of a character, where they are as many as its code point needs. -/
theorem encode_ofNat {n : ℕ} (h : n.isValidChar) :
    String.utf8EncodeChar (Char.ofNat n) =
      if n < 0x80 then [UInt8.ofNat n]
      else if n < 0x800 then [UInt8.ofNat (n / 64 + 0xC0), UInt8.ofNat (n % 64 + 0x80)]
      else if n < 0x10000 then
        [UInt8.ofNat (n / 4096 + 0xE0), UInt8.ofNat (n / 64 % 64 + 0x80), UInt8.ofNat (n % 64 + 0x80)]
      else [UInt8.ofNat (n / 262144 + 0xF0), UInt8.ofNat (n / 4096 % 64 + 0x80),
        UInt8.ofNat (n / 64 % 64 + 0x80), UInt8.ofNat (n % 64 + 0x80)] := by
  have hbound : n < 0x110000 := by
    rcases h with h | h <;> omega
  simp only [String.utf8EncodeChar, val_ofNat h]
  by_cases h1 : n < 0x80
  · rw [if_pos h1, if_pos (by omega)]
  rw [if_neg h1, if_neg (by omega)]
  by_cases h2 : n < 0x800
  · rw [if_pos h2, if_pos (by omega), Nat.mod_eq_of_lt (by omega : n / 64 < 0x20)]
  rw [if_neg h2, if_neg (by omega)]
  by_cases h3 : n < 0x10000
  · rw [if_pos h3, if_pos (by omega), Nat.mod_eq_of_lt (by omega : n / 4096 < 0x10)]
  · rw [if_neg h3, if_neg (by omega), Nat.mod_eq_of_lt (by omega : n / 262144 < 0x08)]

theorem ofNat_eq {n : ℕ} {b : UInt8} (h : n = b.toNat) : UInt8.ofNat n = b := by
  rw [h, UInt8.ofNat_toNat]

section

variable {b c d e : UInt8}

theorem encode_one (hb : b.toNat < 0x80) : String.utf8EncodeChar (Char.ofNat (codePoint b [])) = [b] := by
  have hlead : codePoint b [] = b.toNat := by simp [codePoint, leadBits, UInt8.lt_iff_toNat_lt, hb]
  rw [hlead, encode_ofNat (Or.inl (by omega)), if_pos hb, UInt8.ofNat_toNat]

theorem encode_two (hlow : 0xC2 ≤ b.toNat) (hhigh : b.toNat < 0xE0) (hc : isCont c = true) :
    String.utf8EncodeChar (Char.ofNat (codePoint b [c])) = [b, c] := by
  rw [isCont_iff] at hc
  have hlead : codePoint b [c] = 64 * (b.toNat - 0xC0) + (c.toNat - 0x80) := by
    simp [codePoint, leadBits, UInt8.lt_iff_toNat_lt, hhigh, show ¬b.toNat < 0x80 by omega]
  rw [hlead, encode_ofNat (Or.inl (by omega)), if_neg (by omega), if_pos (by omega)]
  rw [ofNat_eq (b := b) (by omega), ofNat_eq (b := c) (by omega)]

/-- A character of three bytes is none of those that are encoded in two, and no surrogate. -/
theorem encode_three (hlow : 0xE0 ≤ b.toNat) (hhigh : b.toNat < 0xF0) (hc : isCont c = true)
    (hd : isCont d = true) (hshort : b.toNat = 0xE0 → 0xA0 ≤ c.toNat)
    (hsurrogate : b.toNat = 0xED → c.toNat ≤ 0x9F) :
    String.utf8EncodeChar (Char.ofNat (codePoint b [c, d])) = [b, c, d] := by
  rw [isCont_iff] at hc hd
  have hlead : codePoint b [c, d] =
      64 * (64 * (b.toNat - 0xE0) + (c.toNat - 0x80)) + (d.toNat - 0x80) := by
    simp [codePoint, leadBits, UInt8.lt_iff_toNat_lt, hhigh, show ¬b.toNat < 0x80 by omega,
      show ¬b.toNat < 0xE0 by omega]
  have hvalid : (64 * (64 * (b.toNat - 0xE0) + (c.toNat - 0x80)) + (d.toNat - 0x80)).isValidChar := by
    rw [Nat.isValidChar]
    omega
  rw [hlead, encode_ofNat hvalid, if_neg (by omega), if_neg (by omega), if_pos (by omega)]
  rw [ofNat_eq (b := b) (by omega), ofNat_eq (b := c) (by omega), ofNat_eq (b := d) (by omega)]

theorem encode_four (hlow : 0xF0 ≤ b.toNat) (hhigh : b.toNat ≤ 0xF4) (hc : isCont c = true)
    (hd : isCont d = true) (he : isCont e = true) (hshort : b.toNat = 0xF0 → 0x90 ≤ c.toNat)
    (hlong : b.toNat = 0xF4 → c.toNat ≤ 0x8F) :
    String.utf8EncodeChar (Char.ofNat (codePoint b [c, d, e])) = [b, c, d, e] := by
  rw [isCont_iff] at hc hd he
  have hlead : codePoint b [c, d, e] =
      64 * (64 * (64 * (b.toNat - 0xF0) + (c.toNat - 0x80)) + (d.toNat - 0x80)) +
        (e.toNat - 0x80) := by
    simp [codePoint, leadBits, UInt8.lt_iff_toNat_lt, show ¬b.toNat < 0x80 by omega,
      show ¬b.toNat < 0xE0 by omega, show ¬b.toNat < 0xF0 by omega]
  rw [hlead, encode_ofNat (Or.inr (by omega)), if_neg (by omega), if_neg (by omega),
    if_neg (by omega)]
  rw [ofNat_eq (b := b) (by omega), ofNat_eq (b := c) (by omega), ofNat_eq (b := d) (by omega),
    ofNat_eq (b := e) (by omega)]

theorem follow_cons {p : UInt8 → Bool} {cs : List (UInt8 → Bool)} {xs : Bytes}
    (h : (follow (p :: cs) xs).1 = true) :
    ∃ x z, xs = x :: z ∧ p x = true ∧ (follow cs z).1 = true ∧
      xs.take (follow (p :: cs) xs).2 = x :: z.take (follow cs z).2 := by
  cases xs with
  | nil => simp [follow] at h
  | cons x z =>
    by_cases hx : p x = true
    · simp only [follow, hx, if_true] at h ⊢
      exact ⟨x, z, rfl, hx, h, rfl⟩
    · simp [follow, hx] at h

/-- **A character's bytes are those it was read from.** -/
theorem encode_chunk {bs : Bytes} (h : (chunk b bs).1 = true) :
    String.utf8EncodeChar (Char.ofNat (codePoint b (bs.take (chunk b bs).2))) =
      b :: bs.take (chunk b bs).2 := by
  unfold chunk at h ⊢
  cases ht : trail b with
  | none => simp [ht] at h
  | some cs =>
    simp only [ht] at h ⊢
    unfold trail at ht
    simp only [UInt8.lt_iff_toNat_lt, ← UInt8.toNat_inj, UInt8.reduceToNat] at ht
    split_ifs at ht with h1 h2 h3 h4 h5 h6 h7 h8 h9 <;> obtain rfl := Option.some.inj ht
    · simpa [follow] using encode_one h1
    · obtain ⟨c, z, rfl, hc, -, htake⟩ := follow_cons h
      rw [htake]
      simpa [follow] using encode_two (by omega) h3 hc
    · obtain ⟨c, z, rfl, hc, h', htake⟩ := follow_cons h
      obtain ⟨d, z, rfl, hd, -, htake'⟩ := follow_cons h'
      rw [htake, htake']
      simp only [Bool.and_eq_true, decide_eq_true_eq, UInt8.le_iff_toNat_le] at hc
      have hcont : isCont c = true := isCont_iff.2 ⟨le_trans (by decide) hc.1, hc.2⟩
      simpa [follow] using encode_three (by omega) (by omega) hcont hd (fun _ => hc.1) (by omega)
    · obtain ⟨c, z, rfl, hc, h', htake⟩ := follow_cons h
      obtain ⟨d, z, rfl, hd, -, htake'⟩ := follow_cons h'
      rw [htake, htake']
      simp only [Bool.and_eq_true, decide_eq_true_eq, UInt8.le_iff_toNat_le] at hc
      have hcont : isCont c = true := isCont_iff.2 ⟨hc.1, le_trans hc.2 (by decide)⟩
      simpa [follow] using encode_three (by omega) (by omega) hcont hd (by omega) (fun _ => hc.2)
    · obtain ⟨c, z, rfl, hc, h', htake⟩ := follow_cons h
      obtain ⟨d, z, rfl, hd, -, htake'⟩ := follow_cons h'
      rw [htake, htake']
      simpa [follow] using encode_three (by omega) (by omega) hc hd (by omega) (by omega)
    · obtain ⟨c, z, rfl, hc, h', htake⟩ := follow_cons h
      obtain ⟨d, z, rfl, hd, h'', htake'⟩ := follow_cons h'
      obtain ⟨e, z, rfl, he, -, htake''⟩ := follow_cons h''
      rw [htake, htake', htake'']
      simp only [Bool.and_eq_true, decide_eq_true_eq, UInt8.le_iff_toNat_le] at hc
      have hcont : isCont c = true := isCont_iff.2 ⟨le_trans (by decide) hc.1, hc.2⟩
      simpa [follow] using encode_four (by omega) (by omega) hcont hd he (fun _ => hc.1) (by omega)
    · obtain ⟨c, z, rfl, hc, h', htake⟩ := follow_cons h
      obtain ⟨d, z, rfl, hd, h'', htake'⟩ := follow_cons h'
      obtain ⟨e, z, rfl, he, -, htake''⟩ := follow_cons h''
      rw [htake, htake', htake'']
      simpa [follow] using encode_four (by omega) (by omega) hc hd he (by omega) (by omega)
    · obtain ⟨c, z, rfl, hc, h', htake⟩ := follow_cons h
      obtain ⟨d, z, rfl, hd, h'', htake'⟩ := follow_cons h'
      obtain ⟨e, z, rfl, he, -, htake''⟩ := follow_cons h''
      rw [htake, htake', htake'']
      simp only [Bool.and_eq_true, decide_eq_true_eq, UInt8.le_iff_toNat_le] at hc
      have hcont : isCont c = true := isCont_iff.2 ⟨hc.1, le_trans hc.2 (by decide)⟩
      simpa [follow] using encode_four (by omega) (by omega) hcont hd he (by omega) (fun _ => hc.2)

end

theorem encode_decodeAux {n : ℕ} {bs : Bytes} (hn : bs.length ≤ n) (h : validAux n bs = true) :
    (decodeAux n bs).flatMap String.utf8EncodeChar = bs := by
  induction n generalizing bs with
  | zero =>
    obtain rfl := List.length_eq_zero_iff.1 (Nat.le_zero.1 hn)
    rfl
  | succ n ih =>
    cases bs with
    | nil => rfl
    | cons b bs =>
      rw [validAux, Bool.and_eq_true] at h
      have hlen : (bs.drop (chunk b bs).2).length ≤ n := by
        rw [List.length_drop]
        rw [List.length_cons] at hn
        omega
      rw [decodeAux, if_pos h.1, List.flatMap_cons, encode_chunk h.1, ih hlen h.2, List.cons_append,
        List.take_append_drop]

/-- **The characters of a text are encoded by it.** -/
theorem encode_decode {bs : Bytes} (h : valid bs = true) :
    (decode bs).flatMap String.utf8EncodeChar = bs :=
  encode_decodeAux le_rfl h

end Utf8

end Aurade
