import Mathlib.Data.Nat.Digits.Lemmas
import Mathlib.Tactic.Common

/-!
# Byte strings

What programs that read names byte by byte rest on, over `List UInt8`:

* `Utf8.lossy`, the reading of a byte string as text that puts U+FFFD for every maximal part that
  is no character, and `Utf8.valid`. `lossy_eq_self_iff` is the point where the two meet: nothing is
  put exactly when the string is valid.
* `decimal` and its inverse `parseDecimal` (`parseDecimal_decimal`), with zeros in front
  (`parseDecimal_padded`).
* `rsplitOnce`, the split at the last occurrence of a byte.
-/

namespace Aurade

/-- A byte string: a file name, a path, a file's contents. -/
abbrev Bytes := List UInt8

/-- Byte strings are compared as lists. -/
instance lawfulBEq_bytes : LawfulBEq Bytes := inferInstance

/-- The bytes of a literal text. -/
def text (s : String) : Bytes := s.toUTF8.data.toList

namespace Utf8

/-- A continuation byte. -/
def isCont (b : UInt8) : Bool := 0x80 ≤ b && b ≤ 0xBF

/-- What the bytes after a first byte have to be, or `none` where no character starts with it. -/
def trail (b : UInt8) : Option (List (UInt8 → Bool)) :=
  if b < 0x80 then some []
  else if b < 0xC2 then none
  else if b < 0xE0 then some [isCont]
  else if b = 0xE0 then some [fun c => 0xA0 ≤ c && c ≤ 0xBF, isCont]
  else if b = 0xED then some [fun c => 0x80 ≤ c && c ≤ 0x9F, isCont]
  else if b < 0xF0 then some [isCont, isCont]
  else if b = 0xF0 then some [fun c => 0x90 ≤ c && c ≤ 0xBF, isCont, isCont]
  else if b < 0xF4 then some [isCont, isCont, isCont]
  else if b = 0xF4 then some [fun c => 0x80 ≤ c && c ≤ 0x8F, isCont, isCont]
  else none

/-- Whether the bytes start as demanded, and how many of them do. -/
def follow : List (UInt8 → Bool) → Bytes → Bool × ℕ
  | [], _ => (true, 0)
  | _ :: _, [] => (false, 0)
  | c :: cs, x :: xs => if c x then ((follow cs xs).1, (follow cs xs).2 + 1) else (false, 0)

/-- The first chunk of `b :: bs`: whether it is a character, and how many bytes it has after `b`. A
chunk that is none is the longest start of one. -/
def chunk (b : UInt8) (bs : Bytes) : Bool × ℕ :=
  match trail b with
  | some cs => follow cs bs
  | none => (false, 0)

/-- U+FFFD, the replacement character. -/
def replacement : Bytes := [0xEF, 0xBF, 0xBD]

/-- `lossy` on strings of at most `n` bytes. -/
def lossyAux : ℕ → Bytes → Bytes
  | 0, _ => []
  | _ + 1, [] => []
  | n + 1, b :: bs =>
    (if (chunk b bs).1 then b :: bs.take (chunk b bs).2 else replacement) ++
      lossyAux n (bs.drop (chunk b bs).2)

/-- The string as text: every chunk that is no character becomes U+FFFD. -/
def lossy (bs : Bytes) : Bytes := lossyAux bs.length bs

/-- `valid` on strings of at most `n` bytes. -/
def validAux : ℕ → Bytes → Bool
  | 0, _ => true
  | _ + 1, [] => true
  | n + 1, b :: bs => (chunk b bs).1 && validAux n (bs.drop (chunk b bs).2)

/-- Whether the string is UTF-8. -/
def valid (bs : Bytes) : Bool := validAux bs.length bs

theorem lossyAux_of_validAux {n : ℕ} {bs : Bytes} (hn : bs.length ≤ n) (h : validAux n bs = true) :
    lossyAux n bs = bs := by
  induction n generalizing bs with
  | zero =>
    obtain rfl : bs = [] := by simpa using hn
    rfl
  | succ n ih =>
    cases bs with
    | nil => rfl
    | cons b bs =>
      rw [validAux, Bool.and_eq_true] at h
      rw [lossyAux, if_pos h.1, ih (by simp at hn ⊢; omega) h.2, List.cons_append,
        List.take_append_drop]

theorem validAux_of_lossyAux {n : ℕ} {bs : Bytes} (h : lossyAux n bs = bs) :
    validAux n bs = true := by
  induction n generalizing bs with
  | zero => rfl
  | succ n ih =>
    cases bs with
    | nil => rfl
    | cons b bs =>
      rw [lossyAux] at h
      by_cases hc : (chunk b bs).1 = true
      · rw [if_pos hc, List.cons_append, List.cons.injEq] at h
        have hdrop : lossyAux n (bs.drop (chunk b bs).2) = bs.drop (chunk b bs).2 := by
          have := h.2.trans (List.take_append_drop (chunk b bs).2 bs).symm
          exact List.append_cancel_left this
        rw [validAux, hc, ih hdrop]
        rfl
      · -- the string would start with U+FFFD, which is a character
        rw [if_neg hc, replacement, List.cons_append, List.cons.injEq] at h
        obtain ⟨rfl, hbs⟩ := h
        rw [← hbs] at hc
        exact absurd rfl hc

/-- **Nothing is replaced exactly when the string is UTF-8.** -/
theorem lossy_eq_self_iff {bs : Bytes} : lossy bs = bs ↔ valid bs = true :=
  ⟨validAux_of_lossyAux, lossyAux_of_validAux le_rfl⟩

theorem mem_lossyAux {n : ℕ} {bs : Bytes} {c : UInt8} (h : c ∈ lossyAux n bs) :
    c ∈ bs ∨ c ∈ replacement := by
  induction n generalizing bs with
  | zero => simp [lossyAux] at h
  | succ n ih =>
    cases bs with
    | nil => simp [lossyAux] at h
    | cons b bs =>
      rw [lossyAux, List.mem_append] at h
      rcases h with h | h
      · split at h
        · rcases List.mem_cons.1 h with rfl | h
          · exact Or.inl List.mem_cons_self
          · exact Or.inl (List.mem_cons_of_mem _ (List.mem_of_mem_take h))
        · exact Or.inr h
      · exact (ih h).imp_left fun h => List.mem_cons_of_mem _ (List.mem_of_mem_drop h)

/-- A byte of the text is a byte of the string or of a replacement character. -/
theorem mem_lossy {bs : Bytes} {c : UInt8} (h : c ∈ lossy bs) : c ∈ bs ∨ c ∈ replacement :=
  mem_lossyAux h

theorem lossy_ne_nil {bs : Bytes} (h : bs ≠ []) : lossy bs ≠ [] := by
  cases bs with
  | nil => exact absurd rfl h
  | cons b bs =>
    rw [lossy, List.length_cons, lossyAux]
    split <;> simp [replacement]

theorem validAux_of_ascii {n : ℕ} {bs : Bytes} (h : ∀ c ∈ lossyAux n bs, c < 0x80) :
    validAux n bs = true := by
  induction n generalizing bs with
  | zero => rfl
  | succ n ih =>
    cases bs with
    | nil => rfl
    | cons b bs =>
      rw [lossyAux] at h
      by_cases hc : (chunk b bs).1 = true
      · rw [validAux, hc, ih fun c hc => h c (List.mem_append_right _ hc)]
        rfl
      · rw [if_neg hc] at h
        exact absurd (h 0xEF (by simp [replacement])) (by decide)

/-- A text of ASCII characters only is the string itself. -/
theorem lossy_eq_self_of_ascii {bs : Bytes} (h : ∀ c ∈ lossy bs, c < 0x80) : lossy bs = bs :=
  lossy_eq_self_iff.2 (validAux_of_ascii h)

/-! ### Strings put together -/

theorem follow_le (cs : List (UInt8 → Bool)) (xs : Bytes) : (follow cs xs).2 ≤ xs.length := by
  induction cs generalizing xs with
  | nil => simp [follow]
  | cons c cs ih =>
    cases xs with
    | nil => simp [follow]
    | cons x xs =>
      rw [follow]
      split
      · simpa using ih xs
      · simp

/-- Only the bytes that follow matter. -/
theorem follow_take {cs : List (UInt8 → Bool)} {xs : Bytes} (h : (follow cs xs).1 = true)
    (ys : Bytes) : follow cs (xs.take (follow cs xs).2 ++ ys) = follow cs xs := by
  induction cs generalizing xs with
  | nil => rfl
  | cons c cs ih =>
    cases xs with
    | nil => simp [follow] at h
    | cons x xs =>
      rw [follow] at h ⊢
      split at h
      · next hx =>
        rw [if_pos hx, List.take_succ_cons, List.cons_append, follow, if_pos hx, ih h]
      · simp at h

/-- A byte that cannot follow ends a chunk as the end of the string does. -/
theorem follow_stop {cs : List (UInt8 → Bool)} {c : UInt8} (hc : ∀ p ∈ cs, p c = false)
    (xs ys : Bytes) : follow cs (xs ++ c :: ys) = follow cs xs := by
  induction cs generalizing xs with
  | nil => rfl
  | cons p cs ih =>
    have hp := hc p List.mem_cons_self
    cases xs with
    | nil => simp [follow, hp]
    | cons x xs =>
      rw [List.cons_append, follow, follow, ih fun q hq => hc q (List.mem_cons_of_mem _ hq)]

/-- Only continuation bytes follow a first byte. -/
theorem trail_cont {b c : UInt8} {cs : List (UInt8 → Bool)} (h : trail b = some cs)
    (hc : isCont c = false) : ∀ p ∈ cs, p c = false := by
  have hrange : ∀ l u : UInt8, 0x80 ≤ l → u ≤ 0xBF → (decide (l ≤ c) && decide (c ≤ u)) = false := by
    intro l u hl hu
    rw [Bool.eq_false_iff]
    intro hmem
    rw [Bool.and_eq_true, decide_eq_true_eq, decide_eq_true_eq] at hmem
    refine absurd hc ?_
    rw [isCont, Bool.not_eq_false, Bool.and_eq_true, decide_eq_true_eq, decide_eq_true_eq]
    exact ⟨UInt8.le_trans hl hmem.1, UInt8.le_trans hmem.2 hu⟩
  have hcont := hrange 0x80 0xBF (by decide) (by decide)
  have h₁ := hrange 0xA0 0xBF (by decide) (by decide)
  have h₂ := hrange 0x80 0x9F (by decide) (by decide)
  have h₃ := hrange 0x90 0xBF (by decide) (by decide)
  have h₄ := hrange 0x80 0x8F (by decide) (by decide)
  unfold trail at h
  split_ifs at h <;> obtain rfl := Option.some.inj h <;>
    simp only [isCont, List.forall_mem_cons, List.not_mem_nil, false_implies, implies_true,
      and_true, hcont, h₁, h₂, h₃, h₄]

theorem not_cont_of_ascii {c : UInt8} (hc : c < 0x80) : isCont c = false := by
  rw [isCont, Bool.and_eq_false_iff, decide_eq_false_iff_not, UInt8.not_le]
  exact Or.inl hc

theorem validAux_eq {n : ℕ} {bs : Bytes} (hn : bs.length ≤ n) : validAux n bs = valid bs := by
  have hstep : ∀ n bs, bs.length ≤ n → validAux (n + 1) bs = validAux n bs := by
    intro n
    induction n with
    | zero =>
      intro bs h
      obtain rfl : bs = [] := by simpa using h
      rfl
    | succ n ih =>
      intro bs h
      cases bs with
      | nil => rfl
      | cons b bs => rw [validAux, validAux, ih _ (by simp at h ⊢; omega)]
  induction n, hn using Nat.le_induction with
  | base => rfl
  | succ n hn ih => rw [hstep n bs hn, ih]

theorem valid_cons (b : UInt8) (bs : Bytes) :
    valid (b :: bs) = ((chunk b bs).1 && valid (bs.drop (chunk b bs).2)) := by
  rw [valid, List.length_cons, validAux, validAux_eq (by simp)]

theorem chunk_ascii {c : UInt8} (hc : c < 0x80) (bs : Bytes) : chunk c bs = (true, 0) := by
  rw [chunk, trail, if_pos hc]
  rfl

/-- A byte that continues no character is in no chunk of what is before it. -/
theorem chunk_append_cons {c : UInt8} (hc : isCont c = false) (b : UInt8) (a z : Bytes) :
    chunk b (a ++ c :: z) = chunk b a ∧ (chunk b a).2 ≤ a.length := by
  unfold chunk
  cases ht : trail b with
  | none => simp
  | some cs => exact ⟨follow_stop (trail_cont ht hc) a z, follow_le cs a⟩

/-- **A byte that continues no character splits a string** into two that are UTF-8 or not each for
itself. -/
theorem valid_append_cons {c : UInt8} (hc : isCont c = false) (a z : Bytes) :
    valid (a ++ c :: z) = (valid a && valid (c :: z)) := by
  induction hlen : a.length using Nat.strong_induction_on generalizing a with
  | _ n ih =>
    cases a with
    | nil => rfl
    | cons b a =>
      have hchunk := chunk_append_cons hc b a z
      rw [List.cons_append, valid_cons, valid_cons, hchunk.1, List.drop_append_of_le_length hchunk.2,
        ih _ (by rw [← hlen, List.length_drop, List.length_cons]; omega) _ rfl, Bool.and_assoc]

theorem valid_append_ascii {c : UInt8} (hc : c < 0x80) (a z : Bytes) :
    valid (a ++ c :: z) = (valid a && valid z) := by
  rw [valid_append_cons (not_cont_of_ascii hc), valid_cons c, chunk_ascii hc]
  rfl

theorem lossyAux_eq {n : ℕ} {bs : Bytes} (hn : bs.length ≤ n) : lossyAux n bs = lossy bs := by
  have hstep : ∀ n bs, bs.length ≤ n → lossyAux (n + 1) bs = lossyAux n bs := by
    intro n
    induction n with
    | zero =>
      intro bs h
      obtain rfl : bs = [] := by simpa using h
      rfl
    | succ n ih =>
      intro bs h
      cases bs with
      | nil => rfl
      | cons b bs => rw [lossyAux, lossyAux, ih _ (by simp at h ⊢; omega)]
  induction n, hn using Nat.le_induction with
  | base => rfl
  | succ n hn ih => rw [hstep n bs hn, ih]

theorem lossy_cons (b : UInt8) (bs : Bytes) :
    lossy (b :: bs) = (if (chunk b bs).1 then b :: bs.take (chunk b bs).2 else replacement) ++
      lossy (bs.drop (chunk b bs).2) := by
  rw [lossy, List.length_cons, lossyAux, lossyAux_eq (by simp)]

/-- An ASCII character stands in the text, between the texts of what is before and behind it. -/
theorem lossy_append_ascii {c : UInt8} (hc : c < 0x80) (a z : Bytes) :
    lossy (a ++ c :: z) = lossy a ++ c :: lossy z := by
  induction hlen : a.length using Nat.strong_induction_on generalizing a with
  | _ n ih =>
    cases a with
    | nil =>
      rw [List.nil_append, lossy_cons, chunk_ascii hc]
      rfl
    | cons b a =>
      obtain ⟨hchunk, hle⟩ := chunk_append_cons (not_cont_of_ascii hc) b a z
      rw [List.cons_append, lossy_cons, lossy_cons b a, hchunk, List.drop_append_of_le_length hle,
        List.take_append_of_le_length hle,
        ih _ (by rw [← hlen, List.length_drop, List.length_cons]; omega) _ rfl, List.append_assoc]

/-- An ASCII character comes first in the text where it comes first in the bytes. -/
theorem head_lossy {c : UInt8} (hc : c < 0x80) (bs : Bytes) :
    (lossy bs).head? = some c ↔ bs.head? = some c := by
  cases bs with
  | nil => exact Iff.rfl
  | cons b bs =>
    rw [lossy_cons]
    split
    · rfl
    · next hchunk =>
      apply iff_of_false
      · intro h
        obtain rfl : 0xEF = c := Option.some.inj h
        exact absurd hc (by decide)
      · intro h
        rw [Option.some.inj h, chunk_ascii hc] at hchunk
        exact hchunk rfl

/-- What follows a text is UTF-8 or not for itself. -/
theorem valid_append {a : Bytes} (ha : valid a = true) (z : Bytes) : valid (a ++ z) = valid z := by
  induction hlen : a.length using Nat.strong_induction_on generalizing a with
  | _ n ih =>
    cases a with
    | nil => rfl
    | cons b a =>
      rw [valid_cons, Bool.and_eq_true] at ha
      have hchunk : chunk b (a ++ z) = chunk b a ∧ (chunk b a).2 ≤ a.length := by
        have hc := ha.1
        unfold chunk at hc ⊢
        cases ht : trail b with
        | none => simp [ht] at hc
        | some cs =>
          simp only [ht] at hc ⊢
          refine ⟨?_, follow_le cs a⟩
          have := follow_take hc (a.drop (follow cs a).2 ++ z)
          rwa [← List.append_assoc, List.take_append_drop] at this
      rw [List.cons_append, valid_cons, hchunk.1, List.drop_append_of_le_length hchunk.2, ha.1,
        ih _ (by rw [← hlen, List.length_drop, List.length_cons]; omega) ha.2 rfl, Bool.true_and]

/-- No character starts with a byte that continues one. -/
theorem not_cont_of_valid {b : UInt8} {bs : Bytes} (h : valid (b :: bs) = true) : isCont b = false := by
  rw [valid_cons, Bool.and_eq_true] at h
  by_contra hcont
  have hrange : (0x80 ≤ b ∧ b ≤ 0xBF) := by simpa [isCont] using hcont
  have htrail : trail b = none := by
    have hlow : ¬b < 0x80 := UInt8.not_lt.2 hrange.1
    have hhigh : b < 0xC2 := UInt8.lt_of_le_of_lt hrange.2 (by decide)
    rw [trail, if_neg hlow, if_pos hhigh]
  simp [chunk, htrail] at h

/-- The first `n` bytes end where a character of the string does. -/
def Boundary (bs : Bytes) (n : ℕ) : Prop := ∀ b, bs[n]? = some b → isCont b = false

instance (bs : Bytes) (n : ℕ) : Decidable (Boundary bs n) :=
  inferInstanceAs (Decidable (∀ b ∈ bs[n]?, isCont b = false))

/-- **Where a text may be cut** so that what is kept is a text. -/
theorem valid_take_iff {bs : Bytes} (h : valid bs = true) (n : ℕ) :
    valid (bs.take n) = true ↔ Boundary bs n := by
  cases hn : bs[n]? with
  | none => simp [Boundary, hn, List.take_of_length_le (List.getElem?_eq_none_iff.1 hn), h]
  | some b =>
    obtain ⟨hlt, rfl⟩ := List.getElem?_eq_some_iff.1 hn
    have hsplit : bs.take n ++ bs[n] :: bs.drop (n + 1) = bs := by
      rw [← List.drop_eq_getElem_cons hlt, List.take_append_drop]
    simp only [Boundary, hn, Option.some.injEq, forall_eq']
    refine ⟨fun htake => ?_, fun hcont => ?_⟩
    · rw [← hsplit, valid_append htake] at h
      exact not_cont_of_valid h
    · rw [← hsplit, valid_append_cons hcont, Bool.and_eq_true] at h
      exact h.1

theorem mem_take_follow {cs : List (UInt8 → Bool)} {xs : Bytes} {x : UInt8}
    (hx : x ∈ xs.take (follow cs xs).2) : ∃ p ∈ cs, p x = true := by
  induction cs generalizing xs with
  | nil => simp [follow] at hx
  | cons c cs ih =>
    cases xs with
    | nil => simp at hx
    | cons y ys =>
      rw [follow] at hx
      split at hx
      · next hy =>
        rw [List.take_succ_cons, List.mem_cons] at hx
        rcases hx with rfl | hx
        · exact ⟨c, List.mem_cons_self, hy⟩
        · obtain ⟨p, hp, hpx⟩ := ih hx
          exact ⟨p, List.mem_cons_of_mem _ hp, hpx⟩
      · simp at hx

/-- **The first character of a text**: its first byte, the bytes that continue it, and the rest. -/
theorem exists_char {b : UInt8} {bs : Bytes} (h : valid (b :: bs) = true) :
    ∃ u z, bs = u ++ z ∧ (∀ x ∈ u, isCont x = true) ∧ valid (b :: u) = true ∧ valid z = true := by
  rw [valid_cons, Bool.and_eq_true] at h
  refine ⟨bs.take (chunk b bs).2, bs.drop (chunk b bs).2, (List.take_append_drop _ _).symm, ?_, ?_,
    h.2⟩
  · intro x hx
    by_contra hcont
    unfold chunk at hx
    cases ht : trail b with
    | none => simp [ht] at hx
    | some cs =>
      simp only [ht] at hx
      obtain ⟨p, hp, hpx⟩ := mem_take_follow hx
      rw [trail_cont ht (Bool.not_eq_true _ ▸ hcont) p hp] at hpx
      cases hpx
  · have hchunk : chunk b (bs.take (chunk b bs).2) = chunk b bs ∧
        (bs.take (chunk b bs).2).length = (chunk b bs).2 := by
      have hc := h.1
      unfold chunk at hc ⊢
      cases ht : trail b with
      | none => simp [ht] at hc
      | some cs =>
        simp only [ht] at hc ⊢
        have := follow_take hc []
        rw [List.append_nil] at this
        exact ⟨this, by simpa using follow_le cs bs⟩
    rw [valid_cons, hchunk.1, h.1, List.drop_eq_nil_of_le hchunk.2.le]
    rfl

theorem valid_append_of_ascii {s : Bytes} (hs : ∀ c ∈ s, c < 0x80) (a : Bytes) :
    valid (a ++ s) = valid a := by
  induction s generalizing a with
  | nil => rw [List.append_nil]
  | cons c s ih =>
    have hall := List.forall_mem_cons.1 hs
    have hs' : valid s = true := by
      have := ih hall.2 []
      rwa [List.nil_append] at this
    rw [valid_append_ascii hall.1, hs', Bool.and_true]

/-- The text of a string is UTF-8. -/
theorem valid_lossy (bs : Bytes) : valid (lossy bs) = true := by
  have haux : ∀ n bs, valid (lossyAux n bs) = true := by
    intro n
    induction n with
    | zero => exact fun _ => rfl
    | succ n ih =>
      intro bs
      cases bs with
      | nil => rfl
      | cons b bs =>
        rw [lossyAux]
        split
        · next hc =>
          have hchunk : ∀ z, chunk b (bs.take (chunk b bs).2 ++ z) = chunk b bs ∧
              (bs.take (chunk b bs).2).length = (chunk b bs).2 := by
            intro z
            unfold chunk at hc ⊢
            cases ht : trail b with
            | none => simp [ht] at hc
            | some cs =>
              simp only [ht] at hc ⊢
              exact ⟨follow_take hc z, by simpa using follow_le cs bs⟩
          obtain ⟨hch, hlen⟩ := hchunk (lossyAux n (bs.drop (chunk b bs).2))
          rw [List.cons_append, valid_cons, hch, hc, List.drop_left' hlen, ih]
          rfl
        · have hmark : ∀ z, chunk 0xEF (0xBF :: 0xBD :: z) = (true, 2) := fun z => rfl
          rw [replacement, List.cons_append, List.cons_append, List.cons_append, List.nil_append,
            valid_cons, hmark]
          exact ih _
  exact haux _ bs

end Utf8

/-- Bytes can be checked one by one. -/
theorem forall_byte {P : UInt8 → Prop} (h : ∀ n < 256, P (UInt8.ofNat n)) (b : UInt8) : P b := by
  have := h b.toNat b.toNat_lt
  rwa [UInt8.ofNat_toNat] at this

/-! ## Numbers -/

/-- A number in decimal. -/
def decimal (n : ℕ) : Bytes :=
  if n = 0 then [48] else ((Nat.digits 10 n).map fun d => UInt8.ofNat (48 + d)).reverse

/-- A letter in lower case, where it is one of ASCII. -/
def asciiLower (b : UInt8) : UInt8 := if 65 ≤ b && b ≤ 90 then b + 32 else b

/-- An ASCII digit. -/
def isDigit (b : UInt8) : Bool := 48 ≤ b && b ≤ 57

/-- The number a string of digits stands for. -/
def parseDecimal (bs : Bytes) : ℕ := bs.foldl (fun n b => 10 * n + (b.toNat - 48)) 0

/-- A number in decimal with zeros in front up to `width` digits. -/
def padded (width n : ℕ) : Bytes :=
  List.replicate (width - (decimal n).length) 48 ++ decimal n

theorem isDigit_ofNat {d : ℕ} (h : d < 10) : isDigit (UInt8.ofNat (48 + d)) = true := by
  interval_cases d <;> decide

theorem all_isDigit_decimal (n : ℕ) : (decimal n).all isDigit = true := by
  unfold decimal
  split
  · decide
  · rw [List.all_reverse, List.all_map, List.all_eq_true]
    exact fun d hd => isDigit_ofNat (Nat.digits_lt_base (by omega) hd)

theorem decimal_ne_nil (n : ℕ) : decimal n ≠ [] := by
  unfold decimal
  split
  · simp
  · next h => simpa [Nat.digits_ne_nil_iff_ne_zero] using h

theorem parseDecimal_append (xs : Bytes) (b : UInt8) :
    parseDecimal (xs ++ [b]) = 10 * parseDecimal xs + (b.toNat - 48) := by
  simp [parseDecimal]

theorem parseDecimal_reverse_map {ds : List ℕ} (h : ∀ d ∈ ds, d < 10) :
    parseDecimal (ds.map fun d => UInt8.ofNat (48 + d)).reverse = Nat.ofDigits 10 ds := by
  induction ds with
  | nil => rfl
  | cons d ds ih =>
    have hd : (UInt8.ofNat (48 + d)).toNat - 48 = d := by
      have := h d List.mem_cons_self
      rw [UInt8.toNat_ofNat_of_lt' (by simp only [UInt8.size]; omega)]
      omega
    rw [List.map_cons, List.reverse_cons, parseDecimal_append,
      ih fun d hd => h d (List.mem_cons_of_mem _ hd), hd, Nat.ofDigits_cons]
    ring

/-- **A number is read back from its decimal.** -/
theorem parseDecimal_decimal (n : ℕ) : parseDecimal (decimal n) = n := by
  unfold decimal
  split
  · next h => subst h; rfl
  · rw [parseDecimal_reverse_map fun d hd => Nat.digits_lt_base (by omega) hd,
      Nat.ofDigits_digits]

theorem parseDecimal_replicate_zero (k : ℕ) (bs : Bytes) :
    parseDecimal (List.replicate k 48 ++ bs) = parseDecimal bs := by
  induction k with
  | zero => rfl
  | succ k ih =>
    rw [List.replicate_succ, List.cons_append, ← ih]
    rfl

theorem parseDecimal_padded (width n : ℕ) : parseDecimal (padded width n) = n := by
  rw [padded, parseDecimal_replicate_zero, parseDecimal_decimal]

theorem all_isDigit_padded (width n : ℕ) : (padded width n).all isDigit = true := by
  rw [padded, List.all_append, all_isDigit_decimal, Bool.and_true, List.all_eq_true]
  intro b hb
  rw [List.eq_of_mem_replicate hb]
  decide

theorem le_length_padded (width n : ℕ) : width ≤ (padded width n).length := by
  simp only [padded, List.length_append, List.length_replicate]
  omega

/-! ## Splitting at the last occurrence -/

/-- The string before and after the last occurrence of `c`. -/
def rsplitOnce (c : UInt8) : Bytes → Option (Bytes × Bytes)
  | [] => none
  | x :: xs =>
    match rsplitOnce c xs with
    | some (a, b) => some (x :: a, b)
    | none => if x = c then some ([], xs) else none

theorem rsplitOnce_eq_none {c : UInt8} {bs : Bytes} (h : c ∉ bs) : rsplitOnce c bs = none := by
  induction bs with
  | nil => rfl
  | cons x xs ih =>
    rw [List.mem_cons, not_or] at h
    rw [rsplitOnce, ih h.2, if_neg (Ne.symm h.1)]

theorem isSome_rsplitOnce {c : UInt8} {bs : Bytes} (h : c ∈ bs) : (rsplitOnce c bs).isSome := by
  induction bs with
  | nil => simp at h
  | cons x xs ih =>
    rw [rsplitOnce]
    cases hx : rsplitOnce c xs with
    | some ab => rfl
    | none =>
      have hxs : c ∉ xs := fun hc => by simpa [hx] using ih hc
      simp [(List.mem_cons.1 h).resolve_right hxs]

theorem rsplitOnce_append {c : UInt8} {a b : Bytes} (h : c ∉ b) :
    rsplitOnce c (a ++ c :: b) = some (a, b) := by
  induction a with
  | nil => simp [rsplitOnce, rsplitOnce_eq_none h]
  | cons x a ih => simp [rsplitOnce, ih]

theorem eq_of_rsplitOnce {c : UInt8} {bs a b : Bytes} (h : rsplitOnce c bs = some (a, b)) :
    bs = a ++ c :: b ∧ c ∉ b := by
  induction bs generalizing a with
  | nil => simp [rsplitOnce] at h
  | cons x xs ih =>
    rw [rsplitOnce] at h
    cases hx : rsplitOnce c xs with
    | some ab =>
      obtain ⟨a', b'⟩ := ab
      simp only [hx, Option.some.injEq, Prod.mk.injEq] at h
      obtain ⟨rfl, rfl⟩ := h
      obtain ⟨rfl, hb⟩ := ih hx
      exact ⟨rfl, hb⟩
    | none =>
      simp only [hx, Option.ite_none_right_eq_some, Option.some.injEq, Prod.mk.injEq] at h
      obtain ⟨rfl, rfl, rfl⟩ := h
      exact ⟨rfl, fun hmem => by simpa [hx] using isSome_rsplitOnce hmem⟩

end Aurade
