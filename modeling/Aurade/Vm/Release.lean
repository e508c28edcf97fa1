import Aurade.Foundations.Text
import Mathlib.Data.List.Sort

/-!
# The release ISOs of the base folder

What `aurade-vm` calls the files it downloads, the order of its versions (`update.Newer`), and the
ISO it takes when a VM has recorded none (`newestISO`), which goes by the names. Of two releases
with numbers equally long the later in one order is the later in the other.
-/

namespace Aurade.Vm.Release

/-- `ISOName`. -/
def isoName (tag : Bytes) : Bytes := text "aurade-" ++ tag ++ text "-x86_64.iso"

/-- The stamp that says an ISO was checked. -/
def checked (iso : Bytes) : Bytes := iso ++ text ".checked"

/-- The download, until it is whole. -/
def part (iso : Bytes) : Bytes := iso ++ text ".part"

/-! ## Versions -/

/-- `strconv.Atoi`. -/
def atoi (s : Bytes) : Option ℤ :=
  let (neg, digits) := match s with
    | 43 :: ds => (false, ds)
    | 45 :: ds => (true, ds)
    | ds => (false, ds)
  if digits = [] ∨ ¬ digits.all isDigit then none else
  let n : ℤ := if neg then -parseDecimal digits else parseDecimal digits
  if -2 ^ 63 ≤ n ∧ n < 2 ^ 63 then some n else none

/-- `strings.TrimPrefix` of `v`. -/
def trimV : Bytes → Bytes
  | 118 :: v => v
  | v => v

def semver (v : Bytes) : Option (List ℤ) :=
  let parts := (trimV v).splitOn 46
  if parts.length ≠ 3 then none else
  parts.mapM fun p => (atoi p).filter (0 ≤ ·)

/-- The first number that differs decides. -/
def later : List ℤ → List ℤ → Bool
  | a :: as, b :: bs => if a ≠ b then a > b else later as bs
  | _, _ => false

/-- `Newer`. -/
def newer (a b : Bytes) : Bool :=
  match semver a, semver b with
  | some pa, some pb => later pa pb
  | _, _ => false

/-! ## The newest ISO -/

/-- `filepath.Glob` of `aurade-v*-x86_64.iso`: the names it matches, sorted. -/
def glob (names : List Bytes) : List Bytes :=
  (names.filter fun n => (text "aurade-v").isPrefixOf n && (text "-x86_64.iso").isSuffixOf
    (n.drop (text "aurade-v").length)).insertionSort (· ≤ ·)

/-- The path, or none for the empty one. -/
def newestISO (names : List Bytes) : Option Bytes := (glob names).getLast?

theorem newestISO_mem {names : List Bytes} {iso : Bytes} (h : newestISO names = some iso) :
    iso ∈ names := by
  have hmem := List.mem_of_getLast? h
  rw [glob, List.mem_insertionSort] at hmem
  exact List.mem_of_mem_filter hmem

/-- The name is the last of those the pattern matches. -/
theorem le_newestISO {names : List Bytes} {iso n : Bytes} (h : newestISO names = some iso)
    (hn : n ∈ glob names) : n ≤ iso := by
  obtain ⟨l, hl⟩ := List.getLast?_eq_some_iff.1 h
  have hsorted : (glob names).Pairwise (· ≤ ·) := List.pairwise_insertionSort _ _
  rw [hl, List.mem_append, List.mem_singleton] at hn
  rw [hl, List.pairwise_append] at hsorted
  obtain hn | rfl := hn
  · exact hsorted.2.2 n hn iso List.mem_cons_self
  · exact List.le_refl _

/-! ## Numbers in decimal, as text -/

theorem parseDecimal_cons (d : UInt8) (ds : Bytes) :
    parseDecimal (d :: ds) = (d.toNat - 48) * 10 ^ ds.length + parseDecimal ds := by
  induction ds using List.reverseRecOn with
  | nil => simp [parseDecimal]
  | append_singleton ds e ih =>
    rw [← List.cons_append, parseDecimal_append, ih, parseDecimal_append, List.length_append,
      List.length_singleton, pow_succ]
    ring

theorem digit_bounds {d : UInt8} (h : isDigit d = true) : 48 ≤ d.toNat ∧ d.toNat ≤ 57 := by
  rw [isDigit, Bool.and_eq_true, decide_eq_true_eq, decide_eq_true_eq] at h
  exact ⟨UInt8.le_iff_toNat_le.1 h.1, UInt8.le_iff_toNat_le.1 h.2⟩

theorem parseDecimal_lt {ds : Bytes} (h : ds.all isDigit = true) :
    parseDecimal ds < 10 ^ ds.length := by
  induction ds with
  | nil => simp [parseDecimal]
  | cons d ds ih =>
    rw [List.all_cons, Bool.and_eq_true] at h
    have hd : d.toNat - 48 ≤ 9 := by
      have := digit_bounds h.1
      omega
    have hle := Nat.mul_le_mul_right (10 ^ ds.length) hd
    have hrest := ih h.2
    rw [parseDecimal_cons, List.length_cons, pow_succ]
    omega

/-- The first digit decides, or the rest does. -/
theorem head_cases {p q r t n : ℕ} (ht : t < n) (h : p * n + r ≤ q * n + t) :
    p < q ∨ p = q ∧ r ≤ t := by
  obtain hpq | rfl | hpq := lt_trichotomy p q
  · exact .inl hpq
  · exact .inr ⟨rfl, by omega⟩
  · have hle : (q + 1) * n ≤ p * n := Nat.mul_le_mul_right n hpq
    rw [add_mul, one_mul] at hle
    omega

/-- **Numbers equally long** stand in the order of their texts, whatever follows. -/
theorem append_lt_append {a b : Bytes} (ha : a.all isDigit = true) (hb : b.all isDigit = true)
    (hlen : a.length = b.length) (hle : parseDecimal a ≤ parseDecimal b) :
    a = b ∨ ∀ x y : Bytes, a ++ x < b ++ y := by
  induction a generalizing b with
  | nil => exact .inl (List.length_eq_zero_iff.1 hlen.symm).symm
  | cons d a ih =>
    cases b with
    | nil => cases hlen
    | cons e b =>
      rw [List.length_cons, List.length_cons, Nat.add_right_cancel_iff] at hlen
      rw [List.all_cons, Bool.and_eq_true] at ha hb
      have hd := digit_bounds ha.1
      have he := digit_bounds hb.1
      rw [parseDecimal_cons, parseDecimal_cons, hlen] at hle
      obtain hlt | ⟨heq, hrest⟩ := head_cases (parseDecimal_lt hb.2) hle
      · refine .inr fun x y => List.cons_lt_cons_iff.2 (.inl (UInt8.lt_iff_toNat_lt.2 ?_))
        omega
      · obtain rfl : d = e := UInt8.toNat.inj (by omega)
        obtain rfl | hlt := ih ha.2 hb.2 hlen hrest
        · exact .inl rfl
        · exact .inr fun x y => List.cons_lt_cons_iff.2 (.inr ⟨rfl, hlt x y⟩)

/-! ## Release tags -/

/-- A number of a tag. -/
def Digits (ds : Bytes) : Prop := ds ≠ [] ∧ ds.all isDigit = true

theorem Digits.notMem {ds : Bytes} (h : Digits ds) {c : UInt8} (hc : isDigit c = false) : c ∉ ds :=
  fun hmem => by simp [List.all_eq_true.1 h.2 c hmem] at hc

theorem atoi_digits {ds : Bytes} {n : ℤ} (h : Digits ds) (hn : atoi ds = some n) :
    n = parseDecimal ds := by
  have hhead : ∀ c rest, ds = c :: rest → isDigit c = true := fun c rest hds =>
    List.all_eq_true.1 h.2 c (hds ▸ List.mem_cons_self)
  unfold atoi at hn
  split at hn
  next neg digits heq =>
    split at heq
    · exact absurd (hhead _ _ rfl) (by decide)
    · exact absurd (hhead _ _ rfl) (by decide)
    · cases heq
      simp only [Bool.false_eq_true, if_false] at hn
      split_ifs at hn
      exact (Option.some.inj hn).symm

/-- A tag that `tagRe` matches. -/
def tag (a b c : Bytes) : Bytes := text "v" ++ (a ++ 46 :: (b ++ 46 :: c))

theorem semver_tag {a b c : Bytes} (ha : Digits a) (hb : Digits b) (hc : Digits c) {ns : List ℤ}
    (h : semver (tag a b c) = some ns) :
    ns = [(parseDecimal a : ℤ), (parseDecimal b : ℤ), (parseDecimal c : ℤ)] := by
  have hdot : isDigit 46 = false := by decide
  have hsplit : (trimV (tag a b c)).splitOn 46 = [a, b, c] := by
    show (a ++ 46 :: (b ++ 46 :: c)).splitOn 46 = _
    rw [List.splitOn_append_cons_self, List.splitOn_append_cons_self,
      List.splitOn_eq_singleton (ha.notMem hdot), List.splitOn_eq_singleton (hb.notMem hdot),
      List.splitOn_eq_singleton (hc.notMem hdot)]
    rfl
  rw [semver, hsplit] at h
  simp only [List.length_cons, List.length_nil, ne_eq, not_true_eq_false, List.mapM_cons,
    List.mapM_nil, Option.bind_eq_bind, Option.bind_eq_some_iff, Option.filter_eq_some_iff,
    Option.pure_def, Option.some.injEq, ↓reduceIte] at h
  obtain ⟨x, ⟨hx, -⟩, y', ⟨y, ⟨hy, -⟩, z', ⟨z, ⟨hz, -⟩, w, rfl, rfl⟩, rfl⟩, rfl⟩ := h
  rw [atoi_digits ha hx, atoi_digits hb hy, atoi_digits hc hz]

theorem append_lt_of_le {a b x y : Bytes} (ha : Digits a) (hb : Digits b)
    (hlen : a.length = b.length) (hle : parseDecimal a ≤ parseDecimal b)
    (hrest : parseDecimal a = parseDecimal b → x < y) : a ++ x < b ++ y := by
  obtain rfl | hlt := append_lt_append ha.2 hb.2 hlen hle
  · exact List.append_left_lt (hrest rfl)
  · exact hlt x y

theorem later_cons {m n : ℕ} {as bs : List ℤ} (h : later (m :: as) (n :: bs) = true) :
    n ≤ m ∧ (n = m → later as bs = true) := by
  rw [later] at h
  split_ifs at h with hne
  · have hlt : n < m := Nat.cast_lt.1 (of_decide_eq_true h)
    exact ⟨hlt.le, fun heq => absurd heq hlt.ne⟩
  · exact ⟨(Nat.cast_inj.1 (not_not.1 hne)).ge, fun _ => h⟩

/-- A newer release with numbers as long has the later name. -/
theorem isoName_lt {a b c a' b' c' : Bytes} (ha : Digits a) (hb : Digits b) (hc : Digits c)
    (ha' : Digits a') (hb' : Digits b') (hc' : Digits c') (hla : a.length = a'.length)
    (hlb : b.length = b'.length) (hlc : c.length = c'.length)
    (h : newer (tag a' b' c') (tag a b c) = true) :
    isoName (tag a b c) < isoName (tag a' b' c') := by
  unfold newer at h
  split at h
  next pa pb hpa hpb =>
    rw [semver_tag ha' hb' hc' hpa, semver_tag ha hb hc hpb] at h
    have hname : ∀ p q r : Bytes, isoName (tag p q r) = (text "aurade-" ++ text "v") ++
        (p ++ 46 :: (q ++ 46 :: (r ++ text "-x86_64.iso"))) := fun p q r => by
      simp only [isoName, tag, List.append_assoc, List.cons_append]
    rw [hname, hname]
    obtain ⟨hlea, h⟩ := later_cons h
    refine List.append_left_lt (append_lt_of_le ha ha' hla hlea fun heqa => ?_)
    obtain ⟨hleb, h⟩ := later_cons (h heqa)
    refine List.cons_lt_cons_iff.2 (.inr ⟨rfl, append_lt_of_le hb hb' hlb hleb fun heqb => ?_⟩)
    obtain ⟨hlec, h⟩ := later_cons (h heqb)
    refine List.cons_lt_cons_iff.2 (.inr ⟨rfl, append_lt_of_le hc hc' hlc hlec fun heqc => ?_⟩)
    exact absurd (h heqc) Bool.false_ne_true
  · cases h

/-- **No release of the folder is newer than the newest ISO,** of those with numbers as long. -/
theorem newer_newestISO {names : List Bytes} {a b c a' b' c' : Bytes} (ha : Digits a)
    (hb : Digits b) (hc : Digits c) (ha' : Digits a') (hb' : Digits b') (hc' : Digits c')
    (hla : a.length = a'.length) (hlb : b.length = b'.length) (hlc : c.length = c'.length)
    (hmem : isoName (tag a' b' c') ∈ names)
    (h : newestISO names = some (isoName (tag a b c))) :
    newer (tag a' b' c') (tag a b c) = false := by
  have hglob : isoName (tag a' b' c') ∈ glob names := by
    rw [glob, List.mem_insertionSort, List.mem_filter, Bool.and_eq_true]
    refine ⟨hmem, ?_, ?_⟩
    · rw [List.isPrefixOf_iff_prefix]
      exact ⟨a' ++ 46 :: (b' ++ 46 :: c') ++ text "-x86_64.iso", by
        simp only [isoName, tag, List.append_assoc]; rfl⟩
    · have hdrop : (isoName (tag a' b' c')).drop (text "aurade-v").length =
          (a' ++ 46 :: (b' ++ 46 :: c')) ++ text "-x86_64.iso" := rfl
      rw [hdrop, List.isSuffixOf_iff_suffix]
      exact List.suffix_append _ _
  have hle := le_newestISO h hglob
  rw [← Bool.not_eq_true]
  exact fun hnewer => List.not_lt.2 hle (isoName_lt ha hb hc ha' hb' hc' hla hlb hlc hnewer)

end Aurade.Vm.Release
