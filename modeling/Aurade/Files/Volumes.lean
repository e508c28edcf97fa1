import Aurade.Foundations.Text
import Aurade.Fs.Path

/-!
# Mounts

`parseMountinfo` reads what the kernel tells of the mounts, a line for each, with the characters that would
break a line written in octal; `mountFor` takes the mount with the longest point a path begins with.

The decoder goes over the bytes of a field and pushes each as a character of its own. It is right for ASCII,
and a field without an escape is not decoded at all (`unescapeOctal_escape`). Of mounts on the same point
the first is taken, where the kernel would use the last (`mountFor_eq`).
-/

namespace Aurade.Files.Volumes

open Fs

/-- A property of all bytes of a string is decided byte by byte. -/
local instance (priority := high) decidableEach (P : UInt8 → Prop) [DecidablePred P] (s : Bytes) :
    Decidable (∀ b ∈ s, P b) := List.decidableBAll P s

/-! ## What is read -/

/-- `u8::from_str_radix(_, 8)`, with a plus sign before the digits if need be. -/
def radix8 (ds : Bytes) : Option ℕ :=
  let digits := if ds.head? = some 43 then ds.tail else ds
  let n := digits.foldl (fun n b => 8 * n + (b.toNat - 48)) 0
  if digits ≠ [] ∧ digits.all (fun b => 48 ≤ b && b ≤ 55) ∧ n < 256 then some n else none

/-- A byte pushed as the character of its number. -/
def pushed (b : UInt8) : Bytes :=
  if b < 0x80 then [b] else [(0xC0 : UInt8) ||| (b >>> 6), (0x80 : UInt8) ||| (b &&& 0x3F)]

/-- The loop of `unescape_octal`. A slice that does not begin and end between characters stops the program:
that is `none`. -/
def unescapeFrom : Bytes → Option Bytes
  | [] => some []
  | b :: d₁ :: d₂ :: d₃ :: rest =>
    if b = 92 then
      if Utf8.Boundary (d₁ :: d₂ :: d₃ :: rest) 0 ∧ Utf8.Boundary (d₁ :: d₂ :: d₃ :: rest) 3 then
        match radix8 [d₁, d₂, d₃] with
        | some n => (unescapeFrom rest).map (pushed (UInt8.ofNat n) ++ ·)
        | none => (unescapeFrom (d₁ :: d₂ :: d₃ :: rest)).map (pushed b ++ ·)
      else none
    else (unescapeFrom (d₁ :: d₂ :: d₃ :: rest)).map (pushed b ++ ·)
  | b :: rest => (unescapeFrom rest).map (pushed b ++ ·)

/-- `unescape_octal`. -/
def unescapeOctal (value : Bytes) : Option Bytes :=
  if 92 ∈ value then unescapeFrom value else some value

/-- One line of `/proc/self/mountinfo`. -/
structure Mount where
  source : Bytes
  mountPoint : Bytes
  fstype : Bytes
  options : List Bytes
  readOnly : Bool
  deriving DecidableEq

/-- The dash between the two halves of a line. -/
def dash : Bytes := [32, 45, 32]

/-- `split_once(" - ")`. -/
def splitDash (line : Bytes) : Option (Bytes × Bytes) :=
  (findSub dash line).map fun i => (line.take i, line.drop (i + dash.length))

/-- What becomes of one line: nothing, where it has too few fields. -/
def parseLine (line : Bytes) : Option (Option Mount) :=
  match splitDash line with
  | none => some none
  | some (l, r) =>
    let left := l.splitOn 32
    let right := r.splitOn 32
    if left.length < 6 ∨ right.length < 2 then some none
    else do
      let options := (left.getD 5 []).splitOn 44
      let superOptions := (right[2]?.map fun o => o.splitOn 44).getD []
      let mountPoint ← unescapeOctal (left.getD 4 [])
      let fstype ← unescapeOctal (right.getD 0 [])
      let source ← unescapeOctal (right.getD 1 [])
      some (some
        { source, mountPoint, fstype, options
          readOnly := options.contains (text "ro") || superOptions.contains (text "ro") })

/-- The loop of `parse_mountinfo`. -/
def parseLines : List Bytes → Option (List Mount)
  | [] => some []
  | line :: ls => do
    let m ← parseLine line
    let ms ← parseLines ls
    some (m.toList ++ ms)

/-- `parse_mountinfo`. -/
def parseMountinfo (text : Bytes) : Option (List Mount) := parseLines (lines text)

/-- One turn of the loop of `mount_for`. -/
def better (path : Bytes) (best : Option Mount) (mount : Mount) : Option Mount :=
  if components mount.mountPoint <+: components path then
    match best with
    | none => some mount
    | some b => if b.mountPoint.length < mount.mountPoint.length then some mount else some b
  else best

/-- `mount_for`, where the kernel tells this of the mounts. -/
def mountFor (mountinfo : Bytes) (path : Bytes) : Option (Option Mount) :=
  (parseMountinfo mountinfo).map fun ms => ms.foldl (better path) none

/-! ## What the kernel writes -/

/-- A character in octal. -/
def octal (b : UInt8) : Bytes :=
  [92, (48 : UInt8) + (b >>> 6 &&& 7), (48 : UInt8) + (b >>> 3 &&& 7), (48 : UInt8) + (b &&& 7)]

/-- A string with the characters of a set in octal. -/
def escape (set : List UInt8) (s : Bytes) : Bytes := s.flatMap fun b => if b ∈ set then octal b else [b]

/-- What the kernel escapes: ASCII, and at least the tab, the newline, the space and the backslash. -/
structure Escapes (set : List UInt8) : Prop where
  ascii : ∀ b ∈ set, b < 0x80
  tab : 9 ∈ set
  newline : 10 ∈ set
  space : 32 ∈ set
  backslash : 92 ∈ set

/-- A mount as the kernel has it: what a line has before its point, where it is, and so on. -/
structure KernelMount where
  before : List Bytes
  point : Fs.Path
  options : Bytes
  optional : List Bytes
  fstype : Bytes
  source : Bytes
  superOptions : Bytes

/-- The point as a string. -/
def pointText (p : Fs.Path) : Bytes := if p = [] then [slash] else p.render

/-- Its line. -/
def KernelMount.line (set : List UInt8) (k : KernelMount) : Bytes :=
  [32].intercalate (k.before ++ escape set (pointText k.point) :: k.options :: k.optional) ++ dash ++
    [32].intercalate [escape set k.fstype, escape set k.source, k.superOptions]

/-- `/proc/self/mountinfo`. -/
def mountinfo (set : List UInt8) (ks : List KernelMount) : Bytes := ks.flatMap fun k => k.line set ++ [newline]

/-! ## Escaping and its undoing -/

theorem pushed_ascii {b : UInt8} (h : b < 0x80) : pushed b = [b] := if_pos h

theorem length_pushed {b : UInt8} (h : ¬b < 0x80) : (pushed b).length = 2 := by rw [pushed, if_neg h]; rfl

/-- The decoded bytes are the string exactly where it is ASCII. -/
theorem flatMap_pushed_iff (s : Bytes) : s.flatMap pushed = s ↔ ∀ b ∈ s, b < 0x80 := by
  have hle (s : Bytes) : s.length ≤ (s.flatMap pushed).length := by
    induction s with
    | nil => exact Nat.le_refl 0
    | cons b s ih =>
      rw [List.flatMap_cons, List.length_append, List.length_cons]
      by_cases hb : b < 0x80
      · rw [pushed_ascii hb, List.length_singleton]
        omega
      · rw [length_pushed hb]
        omega
  induction s with
  | nil => simp
  | cons b s ih =>
    rw [List.flatMap_cons, List.forall_mem_cons]
    by_cases hb : b < 0x80
    · simp [pushed_ascii hb, hb, ih]
    · refine iff_of_false (fun h => ?_) fun h => hb h.1
      have hlen := congrArg List.length h
      have := hle s
      rw [List.length_append, length_pushed hb, List.length_cons] at hlen
      omega

/-- What is read of a character in octal. -/
theorem radix8_octal (b : UInt8) (hb : b < 0x80) : radix8 (octal b).tail = some b.toNat := by
  revert hb
  exact forall_byte (P := fun b => b < 0x80 → radix8 (octal b).tail = some b.toNat) (by decide +kernel) b

theorem not_cont_octal (b : UInt8) : ∀ d ∈ octal b, Utf8.isCont d = false :=
  forall_byte (P := fun b => ∀ d ∈ octal b, Utf8.isCont d = false) (by decide +kernel) b

/-- Behind an ASCII character no byte continues one. -/
def Safe (s : Bytes) : Prop := ∀ a b c t, s = a ++ b :: c :: t → b < 0x80 → Utf8.isCont c = false

theorem safe_of_valid {s : Bytes} (h : Utf8.valid s = true) : Safe s := by
  rintro a b c t rfl hb
  rw [Utf8.valid_append_ascii hb, Bool.and_eq_true] at h
  exact Utf8.not_cont_of_valid h.2

theorem Safe.tail {b : UInt8} {s : Bytes} (h : Safe (b :: s)) : Safe s := by
  rintro a b' c t rfl
  exact h (b :: a) b' c t rfl

theorem unescapeFrom_cons {b : UInt8} (hb : b ≠ 92) (s : Bytes) :
    unescapeFrom (b :: s) = (unescapeFrom s).map (pushed b ++ ·) := by
  match s with
  | [] => rfl
  | [_] => rfl
  | [_, _] => rfl
  | _ :: _ :: _ :: _ => rw [unescapeFrom, if_neg hb]

/-- The decoder undoes the escapes and takes every byte for a character. -/
theorem unescapeFrom_escape {set : List UInt8} (hset : Escapes set) {s : Bytes} (h : Safe s) :
    unescapeFrom (escape set s) = some (s.flatMap pushed) := by
  induction s with
  | nil => rfl
  | cons b s ih =>
    rw [escape, List.flatMap_cons, List.flatMap_cons, ← escape]
    by_cases hb : b ∈ set
    · have hcont := not_cont_octal b
      have hradix := radix8_octal b (hset.ascii b hb)
      have hnext (c : UInt8) (hc : (escape set s)[0]? = some c) : Utf8.isCont c = false := by
        cases s with
        | nil => cases hc
        | cons c' s =>
          rw [escape, List.flatMap_cons] at hc
          by_cases hc' : c' ∈ set
          · rw [if_pos hc'] at hc
            exact not_cont_octal c' c (by simpa [octal] using Or.inl hc.symm)
          · rw [if_neg hc'] at hc
            obtain rfl : c' = c := by simpa using hc
            exact h [] b c' s rfl (hset.ascii b hb)
      rw [if_pos hb]
      simp only [octal, List.tail_cons, List.cons_append, List.nil_append] at hcont hradix ⊢
      rw [unescapeFrom, if_pos rfl, if_pos, hradix, ih h.tail]
      · simp
      · refine ⟨fun c hc => ?_, fun c hc => hnext c ?_⟩
        · obtain rfl := Option.some.inj hc
          exact hcont _ (by simp)
        · simpa using hc
    · have hb92 : b ≠ 92 := fun he => hb (he ▸ hset.backslash)
      rw [if_neg hb, List.singleton_append, unescapeFrom_cons hb92, ih h.tail]
      rfl

/-- What is read of a string that was escaped. -/
def decoded (set : List UInt8) (s : Bytes) : Bytes := if ∀ b ∈ s, b ∉ set then s else s.flatMap pushed

/-- The string is read as it is: nothing in it is escaped, or all of it is ASCII. -/
def Plain (set : List UInt8) (s : Bytes) : Prop := (∀ b ∈ s, b ∉ set) ∨ ∀ b ∈ s, b < 0x80

instance (set : List UInt8) (s : Bytes) : Decidable (Plain set s) :=
  inferInstanceAs (Decidable ((∀ b ∈ s, b ∉ set) ∨ ∀ b ∈ s, b < 0x80))

theorem decoded_eq_iff (set : List UInt8) (s : Bytes) : decoded set s = s ↔ Plain set s := by
  rw [decoded, Plain]
  split
  case isTrue h => exact iff_of_true rfl (.inl h)
  case isFalse h => rw [flatMap_pushed_iff, or_iff_right h]

theorem escape_eq_self {set : List UInt8} {s : Bytes} (h : ∀ b ∈ s, b ∉ set) : escape set s = s := by
  induction s with
  | nil => rfl
  | cons b s ih =>
    rw [List.forall_mem_cons] at h
    rw [escape, List.flatMap_cons, if_neg h.1, ← escape, ih h.2]
    rfl

theorem mem_escape {set : List UInt8} {s : Bytes} {c : UInt8} (h : c ∈ escape set s) :
    (∃ b ∈ s, b ∈ set ∧ c ∈ octal b) ∨ c ∈ s ∧ c ∉ set := by
  obtain ⟨b, hb, hc⟩ := List.mem_flatMap.1 h
  split at hc
  case isTrue hset => exact .inl ⟨b, hb, hset, hc⟩
  case isFalse hset =>
    obtain rfl := List.mem_singleton.1 hc
    exact .inr ⟨hb, hset⟩

/-- **What the decoder makes of an escaped text.** No slice of it is out of place. -/
theorem unescapeOctal_escape {set : List UInt8} (hset : Escapes set) {s : Bytes} (h : Utf8.valid s = true) :
    unescapeOctal (escape set s) = some (decoded set s) := by
  rw [unescapeOctal, decoded]
  by_cases hnone : ∀ b ∈ s, b ∉ set
  · have hslash : 92 ∉ s := fun hmem => hnone 92 hmem hset.backslash
    rw [escape_eq_self hnone, if_neg hslash, if_pos hnone]
  · have hslash : 92 ∈ escape set s := by
      push Not at hnone
      obtain ⟨b, hb, hbs⟩ := hnone
      refine List.mem_flatMap.2 ⟨b, hb, ?_⟩
      rw [if_pos hbs]
      exact List.mem_cons_self
    rw [if_pos hslash, if_neg hnone, unescapeFrom_escape hset (safe_of_valid h)]

/-! ## Lines -/

/-- A field of a line: not empty, no dash alone, no space and no newline. -/
structure Field (f : Bytes) : Prop where
  ne_nil : f ≠ []
  ne_dash : f ≠ [45]
  space : 32 ∉ f
  newline : newline ∉ f

/-- What the kernel writes into a line. -/
structure KernelMount.Written (k : KernelMount) : Prop where
  before_length : k.before.length = 4
  before : ∀ f ∈ k.before, Field f
  options : Field k.options
  optional : ∀ f ∈ k.optional, Field f
  point : Utf8.valid (pointText k.point) = true
  fstype : Utf8.valid k.fstype = true
  source : Utf8.valid k.source = true
  space : 32 ∉ k.superOptions
  newline : newline ∉ k.superOptions

/-- The record of a mount. -/
def KernelMount.told (k : KernelMount) : Mount where
  source := k.source
  mountPoint := pointText k.point
  fstype := k.fstype
  options := k.options.splitOn 44
  readOnly := (k.options.splitOn 44).contains (text "ro") ||
    ((chomp k.superOptions).splitOn 44).contains (text "ro")

/-- The record as it is read. -/
def KernelMount.read (set : List UInt8) (k : KernelMount) : Mount :=
  { k.told with
    source := decoded set k.source
    mountPoint := decoded set (pointText k.point)
    fstype := decoded set k.fstype }

/-- Every string of the mount is read as it is. -/
def KernelMount.Plain (set : List UInt8) (k : KernelMount) : Prop :=
  Volumes.Plain set (pointText k.point) ∧ Volumes.Plain set k.fstype ∧ Volumes.Plain set k.source

theorem read_eq_iff (set : List UInt8) (k : KernelMount) : k.read set = k.told ↔ k.Plain set := by
  rw [KernelMount.read, KernelMount.Plain, ← decoded_eq_iff, ← decoded_eq_iff, ← decoded_eq_iff,
    KernelMount.told, Mount.mk.injEq]
  simp only [and_true]
  exact and_rotate

theorem octal_field (b : UInt8) : ∀ c ∈ octal b, c ≠ 32 ∧ c ≠ newline :=
  forall_byte (P := fun b => ∀ c ∈ octal b, c ≠ 32 ∧ c ≠ newline) (by decide +kernel) b

theorem notMem_escape {set : List UInt8} (hset : Escapes set) (s : Bytes) :
    32 ∉ escape set s ∧ newline ∉ escape set s := by
  constructor <;> intro h <;> rcases mem_escape h with ⟨b, -, -, hc⟩ | ⟨-, hc⟩
  · exact (octal_field b _ hc).1 rfl
  · exact hc hset.space
  · exact (octal_field b _ hc).2 rfl
  · exact hc hset.newline

/-- The point begins with a slash, so that it is no dash. -/
theorem field_point {set : List UInt8} (hset : Escapes set) (p : Fs.Path) : Field (escape set (pointText p)) := by
  have hcons : ∃ t, pointText p = slash :: t := by
    cases p with
    | nil => exact ⟨[], rfl⟩
    | cons n p => exact ⟨_, rfl⟩
  obtain ⟨t, ht⟩ := hcons
  have hhead : ∃ c t', escape set (pointText p) = c :: t' ∧ c ≠ 45 := by
    rw [ht, escape, List.flatMap_cons]
    split
    · exact ⟨92, _, rfl, by decide⟩
    · exact ⟨slash, _, rfl, by decide⟩
  obtain ⟨c, t', heq, hc⟩ := hhead
  refine ⟨heq ▸ List.cons_ne_nil c t', fun h => hc ?_, (notMem_escape hset _).1, (notMem_escape hset _).2⟩
  exact (List.cons.inj (heq.symm.trans h)).1

/-- A field is no dash with a space behind it. -/
theorem Field.not_dash {f : Bytes} (hf : Field f) (y : Bytes) : ¬[45, 32] <+: f ++ y ∧ ¬f ++ y <+: [45, 32] := by
  match f, hf with
  | [], hf => exact absurd rfl hf.ne_nil
  | [x], hf =>
    have hx : x ≠ 45 := fun hx => hf.ne_dash (by rw [hx])
    simp [List.cons_prefix_cons, hx, Ne.symm hx]
  | x :: c :: t, hf =>
    have hc : c ≠ 32 := fun hc => hf.space (by rw [hc]; simp)
    simp [List.cons_prefix_cons, hc, Ne.symm hc]

/-- No dash between spaces begins in fields with spaces between them. -/
theorem misses_fields {fs : List Bytes} (h : ∀ f ∈ fs, Field f) : Misses dash ([32].intercalate fs) := by
  induction fs with
  | nil => trivial
  | cons f fs ih =>
    have hf := (List.forall_mem_cons.1 h).1
    have hrest := ih (List.forall_mem_cons.1 h).2
    cases fs with
    | nil =>
      rw [List.intercalate_singleton]
      exact misses_of_notMem hf.space
    | cons g fs =>
      have hg := h g (List.mem_cons_of_mem f List.mem_cons_self)
      have hspace : ∃ y, [32].intercalate (g :: fs) = g ++ y := by
        cases fs with
        | nil => exact ⟨[], by rw [List.intercalate_singleton, List.append_nil]⟩
        | cons g' fs => exact ⟨_, by rw [List.intercalate_cons_cons, List.append_assoc]⟩
      obtain ⟨y, hy⟩ := hspace
      rw [List.intercalate_cons_cons, List.append_assoc]
      refine misses_append (misses_of_notMem hf.space) ⟨?_, hrest⟩
      rw [hy]
      have hdash := hg.not_dash y
      exact ⟨fun hn => hdash.1 (List.cons_prefix_cons.1 hn).2, fun hn => hdash.2 (List.cons_prefix_cons.1 hn).2⟩

theorem splitDash_append {a : Bytes} (h : Misses dash a) (b : Bytes) :
    splitDash (a ++ dash ++ b) = some (a, b) := by
  rw [splitDash, List.append_assoc, findSub_of_misses h, findSub_append]
  simp only [Option.map_some, Nat.zero_add, List.take_left, Option.some.injEq, Prod.mk.injEq, true_and]
  rw [← List.drop_drop, List.drop_left, List.drop_left]

theorem notMem_intercalate {c : UInt8} (hc : c ≠ 32) {fs : List Bytes} (h : ∀ f ∈ fs, c ∉ f) :
    c ∉ [32].intercalate fs := by
  induction fs with
  | nil => simp
  | cons f fs ih =>
    rw [List.forall_mem_cons] at h
    cases fs with
    | nil => simpa using h.1
    | cons g fs =>
      rw [List.intercalate_cons_cons]
      simp only [List.mem_append, List.mem_singleton, not_or]
      exact ⟨⟨h.1, hc⟩, ih h.2⟩

/-- A carriage return at the end of a line stands at the end of its last field. -/
theorem chomp_append_cons (a b : Bytes) : chomp (a ++ 32 :: b) = a ++ 32 :: chomp b := by
  cases b with
  | nil => simp [chomp]
  | cons x b =>
    have hlast : (a ++ 32 :: x :: b).getLast? = (x :: b).getLast? := by
      rw [List.getLast?_append_of_ne_nil _ (by simp), List.getLast?_cons_cons]
    rw [chomp, chomp, hlast]
    split
    · rw [List.dropLast_append_of_ne_nil (by simp), List.dropLast_cons_of_ne_nil (by simp)]
    · rfl

theorem chomp_line (set : List UInt8) (k : KernelMount) :
    chomp (k.line set) = ({ k with superOptions := chomp k.superOptions } : KernelMount).line set := by
  simp only [KernelMount.line, List.intercalate_cons_cons, List.intercalate_singleton, List.append_assoc,
    List.singleton_append]
  simp only [← List.append_assoc, ← List.cons_append]
  exact chomp_append_cons _ _

theorem mem_chomp {line : Bytes} {c : UInt8} (h : c ∈ chomp line) : c ∈ line := by
  rw [chomp] at h
  split at h
  · exact List.mem_of_mem_dropLast h
  · exact h

/-- **What is read of the line of a mount.** -/
theorem parseLine_line {set : List UInt8} (hset : Escapes set) {k : KernelMount} (hk : k.Written) :
    parseLine (chomp (k.line set)) = some (some (k.read set)) := by
  have hfields : ∀ f ∈ k.before ++ escape set (pointText k.point) :: k.options :: k.optional, Field f := by
    intro f hf
    simp only [List.mem_append, List.mem_cons] at hf
    rcases hf with hf | rfl | rfl | hf
    · exact hk.before f hf
    · exact field_point hset k.point
    · exact hk.options
    · exact hk.optional f hf
  have hleft := List.splitOn_intercalate 32 (fun f hf => (hfields f hf).space) (by simp)
  have hright : ([32].intercalate [escape set k.fstype, escape set k.source, chomp k.superOptions]).splitOn 32 =
      [escape set k.fstype, escape set k.source, chomp k.superOptions] := by
    refine List.splitOn_intercalate 32 (fun f hf => ?_) (by simp)
    simp only [List.mem_cons, List.not_mem_nil, or_false] at hf
    rcases hf with rfl | rfl | rfl
    · exact (notMem_escape hset _).1
    · exact (notMem_escape hset _).1
    · exact fun h => hk.space (mem_chomp h)
  rw [chomp_line, parseLine, KernelMount.line, splitDash_append (misses_fields hfields)]
  have h4 : (k.before ++ escape set (pointText k.point) :: k.options :: k.optional).getD 4 [] =
      escape set (pointText k.point) := by
    rw [List.getD_eq_getElem?_getD, List.getElem?_append_right hk.before_length.le, hk.before_length]
    rfl
  have h5 : (k.before ++ escape set (pointText k.point) :: k.options :: k.optional).getD 5 [] = k.options := by
    rw [List.getD_eq_getElem?_getD, List.getElem?_append_right (by rw [hk.before_length]; decide),
      hk.before_length]
    rfl
  have hlen : ¬((k.before ++ escape set (pointText k.point) :: k.options :: k.optional).length < 6 ∨
      [escape set k.fstype, escape set k.source, chomp k.superOptions].length < 2) := by
    simp only [List.length_append, List.length_cons, hk.before_length]
    omega
  simp only [hleft, hright, h4, h5, if_neg hlen]
  simp [unescapeOctal_escape hset hk.point, unescapeOctal_escape hset hk.fstype,
    unescapeOctal_escape hset hk.source, KernelMount.read, KernelMount.told]

theorem newline_notMem_line {set : List UInt8} (hset : Escapes set) {k : KernelMount} (hk : k.Written) :
    newline ∉ k.line set := by
  rw [KernelMount.line]
  simp only [List.mem_append, not_or]
  refine ⟨⟨notMem_intercalate (by decide) fun f hf => ?_, by decide⟩,
    notMem_intercalate (by decide) fun f hf => ?_⟩
  · simp only [List.mem_append, List.mem_cons] at hf
    rcases hf with hf | rfl | rfl | hf
    · exact (hk.before f hf).newline
    · exact (notMem_escape hset _).2
    · exact hk.options.newline
    · exact (hk.optional f hf).newline
  · simp only [List.mem_cons, List.not_mem_nil, or_false] at hf
    rcases hf with rfl | rfl | rfl
    · exact (notMem_escape hset _).2
    · exact (notMem_escape hset _).2
    · exact hk.newline

/-- **What is read of the mounts**: every line gives its mount, in order. -/
theorem parseMountinfo_mountinfo {set : List UInt8} (hset : Escapes set) {ks : List KernelMount}
    (hks : ∀ k ∈ ks, k.Written) : parseMountinfo (mountinfo set ks) = some (ks.map (KernelMount.read set)) := by
  rw [parseMountinfo, mountinfo]
  induction ks with
  | nil => rfl
  | cons k ks ih =>
    rw [List.forall_mem_cons] at hks
    have hsplit := List.splitOn_eq_singleton (newline_notMem_line hset hks.1)
    rw [List.flatMap_cons, List.append_assoc, List.singleton_append, lines_append_newline, hsplit,
      List.map_singleton, List.singleton_append, parseLines, parseLine_line hset hks.1, ih hks.2]
    rfl

/-! ## The mount a path is on -/

/-- The first of what is largest, as a loop finds it. -/
def pick {α : Type} (f : α → ℕ) (best : Option α) (a : α) : Option α :=
  match best with
  | none => some a
  | some b => if f b < f a then some a else some b

/-- What the loop has found: nothing before it is as large, and nothing behind it is larger. -/
theorem foldl_pick_spec {α : Type} (f : α → ℕ) (l : List α) :
    (l.foldl (pick f) none = none ∧ l = []) ∨
      ∃ as b bs, l.foldl (pick f) none = some b ∧ l = as ++ b :: bs ∧ (∀ a ∈ as, f a < f b) ∧
        ∀ a ∈ bs, f a ≤ f b := by
  induction l using List.reverseRecOn with
  | nil => exact .inl ⟨rfl, rfl⟩
  | append_singleton l x ih =>
    rw [List.foldl_append]
    rcases ih with ⟨hnone, rfl⟩ | ⟨as, b, bs, hb, rfl, has, hbs⟩
    · exact .inr ⟨[], x, [], rfl, rfl, by simp, by simp⟩
    · rw [hb]
      by_cases hlt : f b < f x
      · refine .inr ⟨as ++ b :: bs, x, [], if_pos hlt, rfl, fun a ha => ?_, by simp⟩
        rcases List.mem_append.1 ha with ha | ha
        · exact (has a ha).trans hlt
        · rcases List.mem_cons.1 ha with rfl | ha
          · exact hlt
          · exact (hbs a ha).trans_lt hlt
      · refine .inr ⟨as, b, bs ++ [x], if_neg hlt, by simp, has, fun a ha => ?_⟩
        rcases List.mem_append.1 ha with ha | ha
        · exact hbs a ha
        · obtain rfl := List.mem_singleton.1 ha
          exact not_lt.1 hlt

/-- What is largest, in order. -/
def largest {α : Type} (f : α → ℕ) (l : List α) : List α := l.filter fun a => ∀ a' ∈ l, f a' ≤ f a

theorem foldl_pick {α : Type} (f : α → ℕ) (l : List α) : l.foldl (pick f) none = (largest f l).head? := by
  rcases foldl_pick_spec f l with ⟨hnone, rfl⟩ | ⟨as, b, bs, hb, hl, has, hbs⟩
  · rfl
  · have hmax : ∀ a ∈ l, f a ≤ f b := by
      intro a ha
      rw [hl, List.mem_append, List.mem_cons] at ha
      rcases ha with ha | rfl | ha
      · exact (has a ha).le
      · exact le_rfl
      · exact hbs a ha
    rw [hb, largest, List.head?_filter, eq_comm, List.find?_eq_some_iff_append]
    refine ⟨decide_eq_true hmax, as, bs, hl, fun a ha => ?_⟩
    have hmem : b ∈ l := hl ▸ List.mem_append_right _ List.mem_cons_self
    simp only [Bool.not_eq_true', decide_eq_false_iff_not]
    exact fun h => (has a ha).not_ge (h b hmem)

/-- The mounts on the longest point that the path begins with, in order. -/
def onPath (path : Bytes) (ms : List Mount) : List Mount :=
  largest (fun m => m.mountPoint.length) (ms.filter fun m => components m.mountPoint <+: components path)

/-- **The mount a path is on is the first of those on the longest point.** -/
theorem foldl_better (path : Bytes) (ms : List Mount) :
    ms.foldl (better path) none = (onPath path ms).head? := by
  rw [onPath, ← foldl_pick, List.foldl_filter]
  congr 1
  funext best m
  by_cases h : components m.mountPoint <+: components path
  · cases best <;> simp [better, h, pick]
  · simp [better, h]

/-- **Mounts are read as the kernel means them exactly when** no string with an escape in it has other than
ASCII, and the first of the mounts on the path's point is told as the last one is. -/
theorem mountinfo_iff {set : List UInt8} (hset : Escapes set) {ks : List KernelMount}
    (hks : ∀ k ∈ ks, k.Written) (path : Bytes) :
    (parseMountinfo (mountinfo set ks) = some (ks.map KernelMount.told) ∧
      mountFor (mountinfo set ks) path = some (onPath path (ks.map KernelMount.told)).getLast?) ↔
      (∀ k ∈ ks, k.Plain set) ∧
        (onPath path (ks.map KernelMount.told)).head? = (onPath path (ks.map KernelMount.told)).getLast? := by
  have hplain : parseMountinfo (mountinfo set ks) = some (ks.map KernelMount.told) ↔
      ∀ k ∈ ks, k.Plain set := by
    rw [parseMountinfo_mountinfo hset hks, Option.some.injEq, List.map_inj_left]
    exact forall₂_congr fun k _ => read_eq_iff set k
  rw [← hplain]
  refine and_congr_right fun hparse => ?_
  rw [mountFor, hparse, Option.map_some, foldl_better, Option.some.injEq]

/-- A mount of a source on a directory of the root. -/
def mountOn (source dir : String) : KernelMount where
  before := [text "50", text "28", text "8:17", text "/"]
  point := Path.of [dir]
  options := text "rw,relatime"
  optional := [text "shared:40"]
  fstype := text "vfat"
  source := text source
  superOptions := text "rw"

theorem field_of_decide {f : Bytes} (h : f ≠ [] ∧ f ≠ [45] ∧ 32 ∉ f ∧ newline ∉ f) : Field f :=
  ⟨h.1, h.2.1, h.2.2.1, h.2.2.2⟩

theorem mountOn_written {source dir : String} (hs : Utf8.valid (text source) = true)
    (hd : Utf8.valid (pointText (Path.of [dir])) = true) : (mountOn source dir).Written where
  before_length := rfl
  before f hf := by
    have hall : ∀ f ∈ [text "50", text "28", text "8:17", text "/"],
        f ≠ [] ∧ f ≠ [45] ∧ 32 ∉ f ∧ newline ∉ f := by decide
    exact field_of_decide (hall f hf)
  options := field_of_decide (f := text "rw,relatime") (by decide)
  optional f hf := by
    obtain rfl := List.mem_singleton.1 hf
    exact field_of_decide (by decide)
  point := hd
  fstype := show Utf8.valid (text "vfat") = true by decide
  source := hs
  space := show 32 ∉ text "rw" by decide
  newline := show newline ∉ text "rw" by decide

/-- What the kernel escapes in a point. -/
theorem escapes_point : Escapes [32, 9, 10, 92] := ⟨by decide, by decide, by decide, by decide, by decide⟩

theorem mountinfo_iff_stick :
    parseMountinfo (mountinfo [32, 9, 10, 92] [mountOn "/dev/sdb1" "MY STICK"]) =
        some ([mountOn "/dev/sdb1" "MY STICK"].map KernelMount.told) ∧
      mountFor (mountinfo [32, 9, 10, 92] [mountOn "/dev/sdb1" "MY STICK"]) (text "/MY STICK/a") =
        some (onPath (text "/MY STICK/a") ([mountOn "/dev/sdb1" "MY STICK"].map KernelMount.told)).getLast? := by
  refine (mountinfo_iff escapes_point (fun k hk => ?_) _).2 ⟨fun k hk => ?_, by decide⟩
  · obtain rfl := List.mem_singleton.1 hk
    exact mountOn_written (by decide) (by decide)
  · obtain rfl := List.mem_singleton.1 hk
    exact ⟨.inr (by decide), .inr (by decide), .inr (by decide)⟩

set_option maxRecDepth 4000 in
/-- A point with a space and an accent does not come back, and of two mounts on one point the first is
taken. -/
theorem mounts_misread :
    ((mountOn "/dev/sdb1" "é x").Written ∧ (mountOn "/dev/sdb1" "mnt").Written ∧
      (mountOn "/dev/sdc1" "mnt").Written) ∧
    parseMountinfo (mountinfo [32, 9, 10, 92] [mountOn "/dev/sdb1" "é x"]) ≠
        some ([mountOn "/dev/sdb1" "é x"].map KernelMount.told) ∧
      mountFor (mountinfo [32, 9, 10, 92] [mountOn "/dev/sdb1" "mnt", mountOn "/dev/sdc1" "mnt"])
        (text "/mnt/a") = some (some (mountOn "/dev/sdb1" "mnt").told) :=
  ⟨⟨mountOn_written (by decide) (by decide), mountOn_written (by decide) (by decide),
    mountOn_written (by decide) (by decide)⟩, by decide, by decide⟩

end Aurade.Files.Volumes
