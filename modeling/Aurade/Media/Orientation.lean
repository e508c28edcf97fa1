import Aurade.Media.Exif

/-!
# Turning a photograph

`set_orientation` writes two bytes over the value of the first entry that is one `SHORT` with the
orientation, and `exif_of` reports the last entry with its tag, of whatever kind. What is written is the
value of an entry and nothing of a header, a count, a tag or a kind, so both find the same entries in the
file that is turned (`directory_write`, `findTiffAt_write`); what the last one says afterwards depends on
where its number stands. `setOrientation_iff` puts it together.
-/

namespace Aurade.Media

/-! ## The block is found again -/

section

variable {b b' : Bytes} {n off : ℕ}

/-- Two files are the same up to an offset. -/
structure SameTo (n : ℕ) (b b' : Bytes) : Prop where
  length : b'.length = b.length
  get : ∀ i, i < n → b'[i]? = b[i]?

theorem SameTo.mono {m : ℕ} (h : SameTo n b b') (hm : m ≤ n) : SameTo m b b' :=
  ⟨h.length, fun i hi => h.get i (by omega)⟩

theorem SameTo.slice {a k : ℕ} (h : SameTo n b b') (hin : a + k ≤ n) : slice b' a k = slice b a k := by
  apply List.ext_getElem?
  intro i
  rw [getElem?_slice, getElem?_slice]
  split
  · exact h.get _ (by omega)
  · rfl

/-- A prefix is told by as many bytes. -/
theorem isPrefixOf_congr {pre l l' : Bytes} (h : l'.take pre.length = l.take pre.length) :
    pre.isPrefixOf l' = pre.isPrefixOf l := by
  rw [Bool.eq_iff_iff, List.isPrefixOf_iff_prefix, List.isPrefixOf_iff_prefix, List.prefix_iff_eq_take,
    List.prefix_iff_eq_take, h]

theorem SameTo.isPrefixOf {pre : Bytes} {a k : ℕ} (h : SameTo n b b') (hin : a + min pre.length k ≤ n) :
    pre.isPrefixOf (Aurade.slice b' a k) = pre.isPrefixOf (Aurade.slice b a k) := by
  refine isPrefixOf_congr ?_
  rw [Aurade.slice, Aurade.slice, List.take_take, List.take_take]
  exact h.slice hin

/-- The segment says that it carries the EXIF. -/
def IsExif (b : Bytes) (off : ℕ) (marker : UInt8) (stop : ℕ) : Prop :=
  marker = 0xE1 ∧ (text "Exif\x00\x00").isPrefixOf (slice b (off + 4) (stop - (off + 4))) = true

/-- **One turn of the walk**: it finds the segment it looks at, or goes on behind it. -/
theorem walkSegments_succ_iff {fuel : ℕ} {x : ℕ × ℕ} :
    walkSegments b (fuel + 1) off = .ok (some x) ↔
      ∃ marker stop, segmentAt b off = .ok (some (marker, stop)) ∧
        ((IsExif b off marker stop ∧ x = (off + 10, stop)) ∨
          (¬IsExif b off marker stop ∧ walkSegments b fuel stop = .ok (some x))) := by
  obtain ⟨r, hr, hstop⟩ := segmentAt_ok b off
  rw [walkSegments, hr, ok_bind]
  rcases r with _ | ⟨marker, stop⟩
  · constructor
    · intro h
      cases h
    · rintro ⟨_, _, h, -⟩
      cases h
  obtain ⟨hle, hlen⟩ := hstop marker stop rfl
  have hturn : (if marker = 0xE1 then do
        let body ← rangeAt b (off + 4) stop
        if (text "Exif\x00\x00").isPrefixOf body then pure (some (off + 4 + 6, stop))
        else walkSegments b fuel stop
      else walkSegments b fuel stop) = .ok (some x) ↔
      (IsExif b off marker stop ∧ x = (off + 10, stop)) ∨
        (¬IsExif b off marker stop ∧ walkSegments b fuel stop = .ok (some x)) := by
    rw [rangeAt_of_le hle hlen, ok_bind]
    unfold IsExif
    split_ifs with hmarker hexif
    · constructor
      · intro h
        cases h
        exact Or.inl ⟨⟨hmarker, hexif⟩, rfl⟩
      · rintro (⟨-, rfl⟩ | ⟨hno, -⟩)
        · rfl
        · exact absurd ⟨hmarker, hexif⟩ hno
    · simp only [hexif, Bool.false_eq_true, and_false, false_and, not_false_eq_true, true_and, false_or]
    · simp only [hmarker, false_and, not_false_eq_true, true_and, false_or]
  constructor
  · intro h
    exact ⟨marker, stop, rfl, hturn.1 h⟩
  · rintro ⟨_, _, ⟨⟩, h⟩
    exact hturn.2 h

theorem segmentAt_same (h : SameTo n b b') (hoff : off + 4 ≤ n) : segmentAt b' off = segmentAt b off := by
  simp only [segmentAt, byteAt, h.length, h.get off (by omega), h.get (off + 1) (by omega),
    h.get (off + 2) (by omega), h.get (off + 3) (by omega)]

theorem walkSegments_found {fuel : ℕ} {x : ℕ × ℕ} (h : walkSegments b fuel off = .ok (some x)) :
    off + 10 ≤ x.1 := by
  induction fuel generalizing off with
  | zero => cases h
  | succ fuel ih =>
    obtain ⟨marker, stop, hseg, ⟨-, rfl⟩ | ⟨-, hrest⟩⟩ := walkSegments_succ_iff.1 h
    · exact le_rfl
    · obtain ⟨r, hr, hstop⟩ := segmentAt_ok b off
      obtain ⟨hle, -⟩ := hstop marker stop (Except.ok.inj (hr.symm.trans hseg))
      have hx := ih hrest
      omega

/-- The walk finds a segment by what stands before it. -/
theorem walkSegments_same {fuel : ℕ} {x : ℕ × ℕ} (h : SameTo x.1 b b')
    (hwalk : walkSegments b fuel off = .ok (some x)) : walkSegments b' fuel off = .ok (some x) := by
  induction fuel generalizing off with
  | zero => cases hwalk
  | succ fuel ih =>
    have hoff := walkSegments_found hwalk
    obtain ⟨marker, stop, hseg, hturn⟩ := walkSegments_succ_iff.1 hwalk
    refine walkSegments_succ_iff.2 ⟨marker, stop, (segmentAt_same h (by omega)).trans hseg, ?_⟩
    have hin : off + 4 + min 6 (stop - (off + 4)) ≤ x.1 := by
      rcases hturn with ⟨-, rfl⟩ | ⟨-, hrest⟩
      · simp only
        omega
      · have hx := walkSegments_found hrest
        omega
    have hsame : IsExif b' off marker stop ↔ IsExif b off marker stop := by
      rw [← length_exif] at hin
      rw [IsExif, IsExif, h.isPrefixOf hin]
    rw [hsame]
    rcases hturn with hhere | ⟨hno, hrest⟩
    · exact Or.inl hhere
    · exact Or.inr ⟨hno, ih hrest⟩

/-- **A block is found by its first bytes and what stands before it.** -/
theorem findTiffAt_same {start stop : ℕ} (h : SameTo (start + 4) b b')
    (hfound : findTiffAt b = .ok (some (start, stop))) : findTiffAt b' = .ok (some (start, stop)) := by
  have hpre (pre : Bytes) (hpre : pre.length ≤ 4) : pre.isPrefixOf b' = pre.isPrefixOf b :=
    isPrefixOf_congr (h.slice (by omega) : slice b' 0 pre.length = slice b 0 pre.length)
  unfold findTiffAt at hfound ⊢
  rw [hpre _ (by decide), hpre _ (by decide), hpre _ (by decide), h.length]
  split_ifs at hfound ⊢ with hplain hjpeg
  · exact hfound
  · exact walkSegments_same (h.mono (Nat.le_add_right _ _)) hfound
  · exact hfound

end

/-! ## The directory is found again -/

namespace Tiff

section

variable {t t' : Tiff} {e : Entry} {start n i p v : ℕ}

/-- Where the entry with a number begins. -/
def place (start j : ℕ) : ℕ := start + (2 + j * 12)

theorem entryAt_eq_some {base : ℕ} (h : t.entryAt base = some e) :
    e.off = base + 8 ∧ t.u32At (base + 4) = some e.count := by
  unfold entryAt at h
  split at h
  case h_1 tag kind count htag hkind hcount =>
    cases h
    exact ⟨rfl, hcount⟩
  case h_2 => cases h

theorem mem_entriesFrom (h : e ∈ t.entriesFrom start n i) : ∃ j, t.entryAt (place start j) = some e := by
  induction n generalizing i with
  | zero => cases h
  | succ n ih =>
    rw [entriesFrom] at h
    rcases hentry : t.entryAt (start + (2 + i * 12)) with _ | e'
    · rw [hentry] at h
      cases h
    · rw [hentry] at h
      rcases List.mem_cons.1 h with rfl | h
      · exact ⟨i, hentry⟩
      · exact ih h

/-- An entry of a directory stands at its place. -/
theorem mem_entries (h : e ∈ t.entries start) : ∃ j, t.entryAt (place start j) = some e := by
  unfold entries at h
  split at h
  · cases h
  · exact mem_entriesFrom h

theorem entriesFrom_congr (h : ∀ j, t'.entryAt (place start j) = t.entryAt (place start j)) :
    t'.entriesFrom start n i = t.entriesFrom start n i := by
  induction n generalizing i with
  | zero => rfl
  | succ n ih =>
    have hentry := h i
    rw [place] at hentry
    rw [entriesFrom, entriesFrom, hentry, ih]

/-- A directory is told by its count and the tags, kinds and counts of its entries. -/
theorem entries_congr (hcount : t'.u16At start = t.u16At start)
    (h : ∀ j, t'.entryAt (place start j) = t.entryAt (place start j)) : t'.entries start = t.entries start := by
  rw [entries, entries, hcount]
  split
  · rfl
  · exact entriesFrom_congr h

/-- The block with an orientation written over what is at an offset. -/
def turn (t : Tiff) (p v : ℕ) : Tiff := t.withBytes (write t.bytes p (ordered t.bigEndian 2 v))

@[simp] theorem turn_bigEndian : (t.turn p v).bigEndian = t.bigEndian := rfl

@[simp] theorem turn_firstIfd : (t.turn p v).firstIfd = t.firstIfd := rfl

@[simp] theorem length_turn : (t.turn p v).bytes.length = t.bytes.length := length_write

theorem read?_turn {k off : ℕ} (h : off + k ≤ p ∨ p + 2 ≤ off) :
    read? t.bigEndian k (t.turn p v).bytes off = read? t.bigEndian k t.bytes off :=
  read?_write_of_apart (by rwa [length_ordered])

theorem u16At_turn {off : ℕ} (h : off + 2 ≤ p ∨ p + 2 ≤ off) : (t.turn p v).u16At off = t.u16At off :=
  read?_turn h

theorem u32At_turn {off : ℕ} (h : off + 4 ≤ p ∨ p + 2 ≤ off) : (t.turn p v).u32At off = t.u32At off :=
  read?_turn h

/-- **What is written over the value of an entry leaves its directory as it is.** -/
theorem entries_turn {j : ℕ} (hp : p = place start j + 8) : (t.turn p v).entries start = t.entries start := by
  unfold place at hp
  refine entries_congr (u16At_turn (by omega)) fun i => ?_
  unfold entryAt place
  -- Twelve bytes apart, the first eight of one entry are clear of the ninth and tenth of another.
  have hclear : i < j ∨ i = j ∨ j < i := lt_trichotomy i j
  rw [u16At_turn (by omega), u16At_turn (by omega), u32At_turn (by omega)]

theorem of_turns (h : e.turns = true) : e.tag = 0x0112 ∧ e.kind = 3 ∧ e.count = 1 := of_decide_eq_true h

theorem value_of_turns (h : e.turns = true) : t.value e = some (e.off, 2) := by
  obtain ⟨-, hkind, hcount⟩ := of_turns h
  rw [value, hkind, hcount]
  rfl

/-- An entry of the directory has its value where it had it. -/
theorem value_turn {e₀ e₁ : Entry} (h₀ : e₀ ∈ t.entries start) (h₁ : e₁ ∈ t.entries start)
    (hturns : e₀.turns = true) : (t.turn e₀.off v).value e₁ = t.value e₁ := by
  obtain ⟨j, hj⟩ := mem_entries h₀
  obtain ⟨i, hi⟩ := mem_entries h₁
  obtain ⟨hoff₀, -⟩ := entryAt_eq_some hj
  obtain ⟨hoff₁, -⟩ := entryAt_eq_some hi
  unfold place at hoff₀ hoff₁
  by_cases hij : i = j
  · -- The entry written over holds its value itself.
    obtain rfl : e₁ = e₀ := by
      rw [hij] at hi
      exact Option.some.inj (hi.symm.trans hj)
    rw [value_of_turns hturns, value_of_turns hturns]
  · rw [value, value, length_turn, u32At_turn (by omega)]

/-- Where the low half of an entry's number stands, and how many bytes of it there are. -/
def seat (t : Tiff) (e : Entry) : Option (ℕ × ℕ) :=
  (t.value e).bind fun x =>
    if e.kind = 3 ∧ x.1 + 2 ≤ t.bytes.length then some (x.1, 2)
    else if e.kind = 4 ∧ x.1 + 4 ≤ t.bytes.length then some (if t.bigEndian then x.1 + 2 else x.1, 2)
    else if e.kind = 1 ∧ x.1 + 1 ≤ t.bytes.length then some (x.1, 1)
    else none

theorem read?_mod {big : Bool} {k off : ℕ} {img : Bytes} (hk : k ≤ 2) :
    (read? big k img off).map (· % 65536) = read? big k img off := by
  rcases hread : read? big k img off with _ | x
  · rfl
  · have hlt := read?_lt hread
    have hpow : 256 ^ k ≤ 256 ^ 2 := Nat.pow_le_pow_right (by decide) hk
    rw [Option.map_some, Nat.mod_eq_of_lt (by omega)]

/-- What is reported of an entry's number stands at its seat. -/
theorem number_eq_seat : (t.number e).map (· % 65536) =
    (t.seat e).bind fun s => read? t.bigEndian s.2 t.bytes s.1 := by
  rw [number, seat]
  rcases t.value e with _ | ⟨x, size⟩
  · split_ifs <;> rfl
  simp only [Option.bind_some, Option.bind_eq_bind]
  by_cases hthree : e.kind = 3
  · rw [if_pos hthree, u16At, read?_mod le_rfl]
    by_cases hlen : x + 2 ≤ t.bytes.length
    · rw [if_pos ⟨hthree, hlen⟩, Option.bind_some]
    · have hbytes : ¬(e.kind = 1 ∧ x + 1 ≤ t.bytes.length) := by omega
      rw [if_neg (not_and_of_not_right (e.kind = 3) hlen), if_neg (by omega), if_neg hbytes,
        read?_eq_none_iff.2 (by omega), Option.bind_none]
  rw [if_neg hthree, if_neg (not_and_of_not_left (x + 2 ≤ t.bytes.length) hthree)]
  by_cases hfour : e.kind = 4
  · rw [if_pos hfour, u32At]
    by_cases hlen : x + 4 ≤ t.bytes.length
    · rw [if_pos ⟨hfour, hlen⟩, Option.bind_some, read?_four_mod hlen]
    · have hbytes : ¬(e.kind = 1 ∧ x + 1 ≤ t.bytes.length) := by omega
      rw [if_neg (not_and_of_not_right (e.kind = 4) hlen), if_neg hbytes,
        read?_eq_none_iff.2 (by omega), Option.bind_none, Option.map_none]
  rw [if_neg hfour, if_neg (not_and_of_not_left (x + 4 ≤ t.bytes.length) hfour)]
  by_cases hone : e.kind = 1
  · rw [if_pos hone, ← @read?_one t.bytes t.bigEndian, read?_mod (by decide)]
    by_cases hlen : x + 1 ≤ t.bytes.length
    · rw [if_pos ⟨hone, hlen⟩, Option.bind_some]
    · rw [if_neg (not_and_of_not_right (e.kind = 1) hlen), read?_eq_none_iff.2 (by omega),
        Option.bind_none]
  · rw [if_neg hone, if_neg (not_and_of_not_left (x + 1 ≤ t.bytes.length) hone)]
    rfl

/-- A number at a seat is within the bytes. -/
theorem seat_spec {q w : ℕ} (h : t.seat e = some (q, w)) : q + w ≤ t.bytes.length ∧ (w = 1 ∨ w = 2) := by
  obtain ⟨x, -, h⟩ := Option.bind_eq_some_iff.1 h
  split_ifs at h <;> cases h <;> omega

theorem seat_turn {e₀ e₁ : Entry} (h₀ : e₀ ∈ t.entries start) (h₁ : e₁ ∈ t.entries start)
    (hturns : e₀.turns = true) : (t.turn e₀.off v).seat e₁ = t.seat e₁ := by
  rw [seat, seat, value_turn h₀ h₁ hturns, length_turn, turn_bigEndian]

/-- The two bytes that an orientation is written as. -/
theorem getElem?_turn (hp : p + 2 ≤ t.bytes.length) (hv : v ≤ 8) :
    (t.turn p v).bytes[p]? = some (if t.bigEndian then 0 else UInt8.ofNat v) ∧
      (t.turn p v).bytes[p + 1]? = some (if t.bigEndian then UInt8.ofNat v else 0) := by
  have hhigh : v / 256 = 0 := Nat.div_eq_of_lt (by omega)
  have hlen : (ordered t.bigEndian 2 v).length = 2 := length_ordered
  have hget (i : ℕ) (hi : i < 2) : (t.turn p v).bytes[p + i]? = (ordered t.bigEndian 2 v)[i]? := by
    change (write t.bytes p (ordered t.bigEndian 2 v))[p + i]? = _
    rw [getElem?_write, if_pos (by omega), Nat.add_sub_cancel_left]
  constructor
  · refine (hget 0 (by decide)).trans ?_
    cases t.bigEndian <;> simp [ordered, be, le, hhigh]
  · rw [hget 1 (by decide)]
    cases t.bigEndian <;> simp [ordered, be, le, hhigh]

/-- A seat says `v` once it is written at an offset: it is the place written, the byte of it that says
`v`, or apart from it with `v` already. -/
def Says (t : Tiff) (p v q w : ℕ) : Prop :=
  (q = p ∧ w = 2) ∨ (w = 1 ∧ q = if t.bigEndian then p + 1 else p) ∨
    ((q + w ≤ p ∨ p + 2 ≤ q) ∧ read? t.bigEndian w t.bytes q = some v)

/-- **A number says an orientation after it is written over the bytes at an offset** just where they are
its own, or are not and it said so before. -/
theorem read?_turn_iff {q w : ℕ} (hp : p + 2 ≤ t.bytes.length) (hq : q + w ≤ t.bytes.length)
    (hw : w = 1 ∨ w = 2) (hv : 1 ≤ v) (hv' : v ≤ 8) :
    read? t.bigEndian w (t.turn p v).bytes q = some v ↔ t.Says p v q w := by
  unfold Says
  by_cases hclear : q + w ≤ p ∨ p + 2 ≤ q
  · rw [read?_turn hclear]
    constructor
    · intro h
      exact Or.inr (Or.inr ⟨hclear, h⟩)
    · rintro (⟨rfl, rfl⟩ | ⟨rfl, rfl⟩ | ⟨-, h⟩)
      · omega
      · split_ifs at hclear <;> omega
      · exact h
  obtain ⟨hlow, hhigh⟩ := getElem?_turn hp hv'
  have hsmall : (UInt8.ofNat v).toNat = v := by
    rw [UInt8.toNat_ofNat']
    omega
  rcases hw with rfl | rfl
  · rw [read?_one]
    have hplace : q = p ∨ q = p + 1 := by omega
    rcases hplace with rfl | rfl
    · rw [hlow]
      cases t.bigEndian with
      | true =>
        simp
        omega
      | false => simp [hsmall]
    · rw [hhigh]
      cases t.bigEndian with
      | true => simp [hsmall]
      | false =>
        simp
        omega
  · have hplace : q = p ∨ q = p + 1 ∨ p = q + 1 := by omega
    rcases hplace with rfl | rfl | rfl
    · have hread : read? t.bigEndian 2 (t.turn q v).bytes q = some (v % 256 ^ 2) := read?_write hp
      rw [hread, Nat.mod_eq_of_lt (by omega)]
      simp
    · -- The low byte of the one is the high byte of the other.
      obtain ⟨c, hc⟩ : ∃ c, (t.turn p v).bytes[p + 1 + 1]? = some c :=
        ⟨_, List.getElem?_eq_getElem (by rw [length_turn]; omega)⟩
      rw [read?_two hhigh hc]
      cases t.bigEndian <;> simp [hsmall] <;> omega
    · obtain ⟨c, hc⟩ : ∃ c, (t.turn (q + 1) v).bytes[q]? = some c :=
        ⟨_, List.getElem?_eq_getElem (by rw [length_turn]; omega)⟩
      rw [read?_two hc hlow]
      cases t.bigEndian <;> simp [hsmall] <;> omega

end

/-- The entry whose value `exif_of` reports as the orientation: the last with its tag. -/
def reported (t : Tiff) : Option Entry :=
  (t.entries t.firstIfd).reverse.find? fun e => e.tag = 0x0112

end Tiff

section

variable {F : Type} {fl : Floats F} {r : Readers F} {dir : ℕ → List Entry} {firstIfd : ℕ} {e : Entry}
  {es : List Entry}

theorem Main.take_orientation {s : Main F} : (s.take r e).photo.orientation =
    if e.tag = 0x0112 then (r.number e).map (· % 65536) else s.photo.orientation := by
  unfold Main.take
  split <;> simp_all

theorem Shot.take_orientation {s : Shot F} :
    (s.take fl r e).photo.orientation = s.photo.orientation := by
  unfold Shot.take
  split <;> rfl

/-- The last entry with the tag is the one that counts. -/
theorem mainOf_orientation : (mainOf r dir firstIfd).photo.orientation =
    ((dir firstIfd).reverse.find? fun e => e.tag = 0x0112).bind fun e => (r.number e).map (· % 65536) := by
  unfold mainOf
  induction dir firstIfd using List.reverseRecOn with
  | nil => rfl
  | append_singleton es e ih =>
    rw [List.foldl_append, List.foldl_cons, List.foldl_nil, Main.take_orientation, ih,
      List.reverse_append, List.reverse_singleton, List.singleton_append, List.find?_cons]
    split_ifs with htag <;> simp [htag]

theorem shotOf_orientation {main : Main F} :
    (shotOf fl r dir main).photo.orientation = main.photo.orientation := by
  unfold shotOf
  split
  · rfl
  case h_2 start _ =>
    induction dir start using List.reverseRecOn with
    | nil => rfl
    | append_singleton es e ih =>
      rw [List.foldl_append, List.foldl_cons, List.foldl_nil, Shot.take_orientation, ih]

theorem placed_orientation {main : Main F} {photo : Photo F} :
    (placed fl r dir main photo).orientation = photo.orientation := by
  unfold placed
  split <;> rfl

/-- A photograph that is left out has no orientation. -/
theorem kept_orientation (p : Photo F) :
    (if p.isEmpty then none else some p).bind Photo.orientation = p.orientation := by
  split_ifs with hempty
  · simp only [Photo.isEmpty, Bool.and_eq_true, Option.isNone_iff_eq_none] at hempty
    obtain ⟨-, horient⟩ := hempty.1.1.1.1.1.1.1.1
    rw [horient, Option.bind_none]
  · rfl

/-- **What `exif_of` reports is the number of the last entry with the tag.** -/
theorem photo_orientation (t : Tiff) : (t.photo fl).bind Photo.orientation =
    t.reported.bind fun e => (t.number e).map (· % 65536) := by
  refine (kept_orientation _).trans ?_
  exact placed_orientation.trans (shotOf_orientation.trans mainOf_orientation)

end

/-! ## Turning -/

/-- Both readers say `v` once it is written: the entry that `exif_of` reports has its number where the
first that is one `SHORT` has it, or says `v` all the same. -/
def Tiff.Agrees (t : Tiff) (v : ℕ) : Prop :=
  ∃ e₀ e₁ q w, (t.entries t.firstIfd).find? Entry.turns = some e₀ ∧ t.reported = some e₁ ∧
    t.seat e₁ = some (q, w) ∧ t.Says e₀.off v q w

/-- A photograph is turned, and is what it was besides. -/
structure Turned {F : Type} (fl : Floats F) (b b' : Bytes) (v : ℕ) : Prop where
  /-- Nothing but two bytes differs, and the orientation is read where it was. -/
  noted : b'.length = b.length ∧ ∃ p big old, orientationAt b = .ok (some (p, big, old)) ∧
    orientationAt b' = .ok (some (p, big, v)) ∧ ∀ i, i ≠ p → i ≠ p + 1 → b'[i]? = b[i]?
  /-- The photograph reports it. -/
  shown : ∃ photo, exifOf fl b' = .ok (some photo) ∧ photo.orientation = some v

section

variable {F : Type} {fl : Floats F} {b b' : Bytes} {v : ℕ} {t : Tiff} {start stop : ℕ}

/-- What is found where there is an orientation. -/
theorem found_of_orientation {p old : ℕ} {big : Bool} (h : orientationAt b = .ok (some (p, big, old))) :
    ∃ start stop t e, findTiffAt b = .ok (some (start, stop)) ∧
      Tiff.ofBlock (slice b start (stop - start)) = some t ∧
      (t.entries t.firstIfd).find? Entry.turns = some e ∧ t.u16At e.off = some old ∧
      p = start + e.off ∧ big = t.bigEndian := by
  obtain ⟨r, hr, -⟩ := findTiffAt_ok b
  rcases r with _ | ⟨start, stop⟩
  · rw [(tiffOf_of_none hr).2] at h
    cases h
  rw [(tiffOf_of_found hr).2] at h
  obtain ⟨o, ho, hshift⟩ := Option.map_eq_some_iff.1 (Except.ok.inj h)
  obtain ⟨t, ht, ho⟩ := Option.bind_eq_some_iff.1 ho
  unfold Tiff.orientation at ho
  rcases hfind : (t.entries t.firstIfd).find? Entry.turns with _ | e
  · rw [hfind] at ho
    cases ho
  rw [hfind] at ho
  obtain ⟨value, hvalue, rfl⟩ := Option.map_eq_some_iff.1 ho
  cases hshift
  exact ⟨start, stop, t, e, hr, ht, hfind, hvalue, rfl, rfl⟩

/-- **The block that is turned is opened as before.** -/
theorem ofBlock_turn {block : Bytes} {p : ℕ} (h : Tiff.ofBlock block = some t) (hp : 10 ≤ p) :
    Tiff.ofBlock (write block p (ordered t.bigEndian 2 v)) = some (t.turn p v) := by
  unfold Tiff.ofBlock at h
  rcases horder : Tiff.orderOf block with _ | big
  · rw [horder] at h
    cases h
  rw [horder] at h
  obtain ⟨hmagic, h⟩ := Option.ite_none_right_eq_some.1 h
  obtain ⟨firstIfd, hfirst, rfl⟩ := Option.map_eq_some_iff.1 h
  have horder' : Tiff.orderOf (write block p (ordered big 2 v)) = some big := by
    unfold Tiff.orderOf at horder ⊢
    rw [slice?_write_of_apart (by omega)]
    exact horder
  unfold Tiff.ofBlock
  simp only [horder']
  rw [read?_write_of_apart (by omega), if_pos hmagic, read?_write_of_apart (by omega), hfirst]
  rfl

theorem bytes_of_ofBlock {block : Bytes} (h : Tiff.ofBlock block = some t) : t.bytes = block := by
  unfold Tiff.ofBlock at h
  split at h
  · cases h
  · obtain ⟨-, h⟩ := Option.ite_none_right_eq_some.1 h
    obtain ⟨firstIfd, -, rfl⟩ := Option.map_eq_some_iff.1 h
    rfl

/-- **A file that is turned has the block that is turned.** -/
theorem findTiffAt_write {p : ℕ} (hfound : findTiffAt b = .ok (some (start, stop))) {raw : Bytes}
    (hp : 10 ≤ p) : findTiffAt (write b (start + p) raw) = .ok (some (start, stop)) ∧
      slice (write b (start + p) raw) start (stop - start) = write (slice b start (stop - start)) p raw := by
  obtain ⟨r, hr, hin⟩ := findTiffAt_ok b
  obtain ⟨hle, hlen⟩ := hin _ (Except.ok.inj (hr.symm.trans hfound))
  simp only at hle hlen
  constructor
  · refine findTiffAt_same ⟨length_write, fun i hi => ?_⟩ hfound
    rw [getElem?_write, if_neg (by omega)]
  · exact slice_write_inside (by omega)

/-- What `set_orientation` does where it writes. -/
theorem setOrientation_eq (h : setOrientation b v = .ok (b', true)) : ∃ p big old,
    orientationAt b = .ok (some (p, big, old)) ∧ p + 2 ≤ b.length ∧
      b' = write b p (ordered big 2 v) := by
  unfold setOrientation at h
  obtain ⟨o, ho⟩ : ∃ o, orientationAt b = .ok o := by
    obtain ⟨-, o, -, ho⟩ := readers_total noFloats b
    exact ⟨o, ho⟩
  rw [ho, ok_bind] at h
  rcases o with _ | ⟨p, big, old⟩
  · cases h
  change (if p + 2 ≤ b.length then _ else _) = _ at h
  split_ifs at h with hlen
  · cases h
    exact ⟨p, big, old, ho, hlen, rfl⟩
  · cases h

/-- A value stands behind the header of its block. -/
theorem ten_le_off {e : Entry} (hfirst : (t.entries t.firstIfd).find? Entry.turns = some e) :
    10 ≤ e.off := by
  obtain ⟨j, hj⟩ := Tiff.mem_entries (List.mem_of_find?_eq_some hfirst)
  obtain ⟨hoff, -⟩ := Tiff.entryAt_eq_some hj
  unfold Tiff.place at hoff
  omega

/-- The first entry that is one `SHORT` says `v` after the turn. -/
theorem orientation_turn {e : Entry} (hfirst : (t.entries t.firstIfd).find? Entry.turns = some e)
    (hold : (t.u16At e.off).isSome) (hv : v ≤ 8) :
    (t.turn e.off v).orientation = some (e.off, t.bigEndian, v) := by
  obtain ⟨j, hj⟩ := Tiff.mem_entries (List.mem_of_find?_eq_some hfirst)
  have hentries : (t.turn e.off v).entries t.firstIfd = t.entries t.firstIfd :=
    Tiff.entries_turn (Tiff.entryAt_eq_some hj).1
  have hread : (t.turn e.off v).u16At e.off = some (v % 256 ^ 2) := read?_write (read?_isSome_iff.1 hold)
  rw [Tiff.orientation, Tiff.turn_firstIfd, hentries, hfirst]
  simp only [hread, Option.map_some, Tiff.turn_bigEndian, Nat.mod_eq_of_lt (show v < 256 ^ 2 by omega)]

/-- The last entry with the tag says `v` after the turn just where both readers agree on it. -/
theorem reported_turn_iff {e : Entry} (hfirst : (t.entries t.firstIfd).find? Entry.turns = some e)
    (hold : (t.u16At e.off).isSome) (hv : 1 ≤ v) (hv' : v ≤ 8) :
    ((t.turn e.off v).photo fl).bind Photo.orientation = some v ↔ t.Agrees v := by
  have hmem : e ∈ t.entries t.firstIfd := List.mem_of_find?_eq_some hfirst
  have hturns : e.turns = true := List.find?_some hfirst
  have hp : e.off + 2 ≤ t.bytes.length := read?_isSome_iff.1 hold
  obtain ⟨j, hj⟩ := Tiff.mem_entries hmem
  have hentries : (t.turn e.off v).entries t.firstIfd = t.entries t.firstIfd :=
    Tiff.entries_turn (Tiff.entryAt_eq_some hj).1
  have hreported : (t.turn e.off v).reported = t.reported := by
    rw [Tiff.reported, Tiff.reported, Tiff.turn_firstIfd, hentries]
  rw [photo_orientation, hreported]
  rcases hlast : t.reported with _ | e₁
  · constructor
    · intro h
      cases h
    · rintro ⟨_, _, _, _, -, hnone, -⟩
      exact absurd (hlast.symm.trans hnone) (Option.some_ne_none _).symm
  have hmem₁ : e₁ ∈ t.entries t.firstIfd := by
    exact List.mem_reverse.1 (List.mem_of_find?_eq_some hlast)
  rw [Option.bind_some, Tiff.number_eq_seat, Tiff.seat_turn hmem hmem₁ hturns]
  rcases hseat : t.seat e₁ with _ | ⟨q, w⟩
  · constructor
    · intro h
      cases h
    · rintro ⟨_, e₂, _, _, -, hlast', hseat', -⟩
      obtain rfl : e₁ = e₂ := Option.some.inj (hlast.symm.trans hlast')
      exact absurd (hseat.symm.trans hseat') (Option.some_ne_none _).symm
  obtain ⟨hq, hw⟩ := Tiff.seat_spec hseat
  rw [Option.bind_some, Tiff.turn_bigEndian, Tiff.read?_turn_iff hp hq hw hv hv']
  constructor
  · intro h
    exact ⟨e, e₁, q, w, hfirst, hlast, hseat, h⟩
  · rintro ⟨_, _, _, _, hfirst', hlast', hseat', h⟩
    cases hfirst.symm.trans hfirst'
    cases hlast.symm.trans hlast'
    cases hseat.symm.trans hseat'
    exact h

/-- **A photograph that is turned reports it just where both readers agree on the entry.** -/
theorem setOrientation_iff (fl : Floats F) (b b' : Bytes) (v : ℕ) (hv : 1 ≤ v) (hv' : v ≤ 8)
    (h : setOrientation b v = .ok (b', true)) :
    Turned fl b b' v ↔ ∀ t, tiffOf b = .ok (some t) → t.Agrees v := by
  obtain ⟨p, big, old, ho, hlen, rfl⟩ := setOrientation_eq h
  obtain ⟨start, stop, t, e, hfound, ht, hfirst, hold, rfl, rfl⟩ := found_of_orientation ho
  have hsome : (t.u16At e.off).isSome := Option.isSome_iff_exists.2 ⟨old, hold⟩
  have htiff : tiffOf b = .ok (some t) := by rw [(tiffOf_of_found hfound).1, ht]
  obtain ⟨hfound', hblock⟩ := findTiffAt_write hfound (ten_le_off hfirst)
  have ht' : Tiff.ofBlock (slice (write b (start + e.off) (ordered t.bigEndian 2 v)) start
      (stop - start)) = some (t.turn e.off v) := by
    rw [hblock]
    exact ofBlock_turn ht (ten_le_off hfirst)
  have htiff' : tiffOf (write b (start + e.off) (ordered t.bigEndian 2 v)) =
      .ok (some (t.turn e.off v)) := by
    rw [(tiffOf_of_found hfound').1, ht']
  have hexif : exifOf fl (write b (start + e.off) (ordered t.bigEndian 2 v)) =
      .ok ((t.turn e.off v).photo fl) := exifOf_of_tiff htiff'
  have hshown : ((t.turn e.off v).photo fl).bind Photo.orientation = some v ↔ t.Agrees v :=
    reported_turn_iff hfirst hsome hv hv'
  have hnoted : orientationAt (write b (start + e.off) (ordered t.bigEndian 2 v)) =
      .ok (some (start + e.off, t.bigEndian, v)) := by
    rw [(tiffOf_of_found hfound').2, ht', Option.bind_some,
      orientation_turn hfirst hsome hv']
    rfl
  constructor
  · rintro ⟨-, photo, hphoto, hsays⟩ t' htiff₁
    cases htiff.symm.trans htiff₁
    refine hshown.1 ?_
    rw [Except.ok.inj (hexif.symm.trans hphoto), Option.bind_some, hsays]
  · intro hagrees
    obtain ⟨photo, hphoto, hsays⟩ := Option.bind_eq_some_iff.1 (hshown.2 (hagrees t htiff))
    refine ⟨⟨length_write, _, _, old, ho, hnoted, fun i hi hi' => ?_⟩, photo, ?_, hsays⟩
    · rw [getElem?_write, length_ordered, if_neg (by omega)]
    · rw [hexif, hphoto]

end

/-- A TIFF with the orientation twice. -/
def twice (first last : ℕ) : Bytes :=
  [73, 73, 42, 0] ++ le 4 8 ++ le 2 2 ++ entryLE 0x0112 3 1 first ++ entryLE 0x0112 3 1 last

/-- Where the last entry says six already, the photograph is turned to six. -/
theorem setOrientation_twice : Turned noFloats (twice 1 6) (twice 6 6) 6 := by
  refine (setOrientation_iff noFloats (twice 1 6) (twice 6 6) 6 (by decide) (by decide)
    (by decide)).2 fun t ht => ?_
  have htiff : tiffOf (twice 1 6) = .ok (some ⟨twice 1 6, false, 8⟩) := by decide
  cases htiff.symm.trans ht
  refine ⟨⟨0x0112, 3, 1, 18⟩, ⟨0x0112, 3, 1, 30⟩, 30, 2, ?_, ?_, ?_, Or.inr (Or.inr ⟨?_, ?_⟩)⟩
  · decide
  · decide
  · decide
  · exact Or.inr (by decide)
  · decide

/-- Where it says three, the photograph is turned to six and reports three. -/
theorem twice_three : setOrientation (twice 1 3) 6 = .ok (twice 6 3, true) ∧
    ¬Turned noFloats (twice 1 3) (twice 6 3) 6 := by
  refine ⟨by decide, fun h => ?_⟩
  obtain ⟨photo, hphoto, hsays⟩ := h.shown
  have htiff : tiffOf (twice 6 3) = .ok (some ⟨twice 6 3, false, 8⟩) := by decide
  have hthree : (Tiff.reported ⟨twice 6 3, false, 8⟩).bind
      (fun e => (Tiff.number ⟨twice 6 3, false, 8⟩ e).map (· % 65536)) = some 3 := by decide
  have hread : Tiff.photo noFloats ⟨twice 6 3, false, 8⟩ = some photo :=
    Except.ok.inj ((exifOf_of_tiff htiff).symm.trans hphoto)
  rw [← @photo_orientation _ noFloats, hread, Option.bind_some, hsays] at hthree
  exact absurd hthree (by decide)

end Aurade.Media
