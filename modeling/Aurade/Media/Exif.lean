import Aurade.Media.Tiff

/-!
# Reading stays inside the entries

Every number of a photograph's directories is a number of the file, pointing anywhere. The readers look
only at the block that `find_tiff_at` found and never fall off its end, and each value is among the four
bytes of its entry or in the extent that the entry declares, with one exception: an entry that declares
no value at all has a place all the same, and `number` and `rational` read there what nobody declared.
`degrees`, which counts first, does not. `staysInside_iff` says when a file has no such entry.
-/

namespace Aurade.Media

/-! ## The walk -/

theorem ok_bind {α β : Type} (a : α) (f : α → Except Fault β) : (Except.ok a >>= f) = f a := rfl

theorem byteAt_of_some {bytes : Bytes} {i : ℕ} {b : UInt8} (h : bytes[i]? = some b) :
    byteAt bytes i = .ok b := by
  rw [byteAt, h]

theorem length_exif : (text "Exif\x00\x00").length = 6 := by decide

theorem rangeAt_of_le {bytes : Bytes} {start stop : ℕ} (h : start ≤ stop) (hstop : stop ≤ bytes.length) :
    rangeAt bytes start stop = .ok (slice bytes start (stop - start)) := if_pos ⟨h, hstop⟩

/-- What the four bytes of a segment's head come to. -/
def headOf (len off : ℕ) (first marker high low : UInt8) : Option (UInt8 × ℕ) :=
  let length := 256 * high.toNat + low.toNat
  if first ≠ 0xFF ∨ marker = 0xDA ∨ marker = 0xD9 ∨ length < 2 ∨ len < off + 4 + (length - 2) then none
  else some (marker, off + 4 + (length - 2))

theorem segmentAt_of_some {bytes : Bytes} {off : ℕ} {a b c d : UInt8} (ha : bytes[off]? = some a)
    (hb : bytes[off + 1]? = some b) (hc : bytes[off + 2]? = some c) (hd : bytes[off + 3]? = some d) :
    segmentAt bytes off = .ok (headOf bytes.length off a b c d) := by
  obtain ⟨hlen, -⟩ := List.getElem?_eq_some_iff.1 hd
  rw [segmentAt, if_neg (by omega), byteAt_of_some ha, byteAt_of_some hb, byteAt_of_some hc,
    byteAt_of_some hd]
  simp only [ok_bind, headOf]
  split_ifs <;> first | rfl | omega | (exfalso; tauto)

/-- A segment that starts in the file is read, and ends in it. -/
theorem segmentAt_ok (bytes : Bytes) (off : ℕ) : ∃ r, segmentAt bytes off = .ok r ∧
    ∀ marker stop, r = some (marker, stop) → off + 4 ≤ stop ∧ stop ≤ bytes.length := by
  by_cases hlen : bytes.length < off + 4
  · exact ⟨none, if_pos hlen, fun _ _ h => by cases h⟩
  · obtain ⟨a, ha⟩ : ∃ a, bytes[off]? = some a := ⟨_, List.getElem?_eq_getElem (by omega)⟩
    obtain ⟨b, hb⟩ : ∃ b, bytes[off + 1]? = some b := ⟨_, List.getElem?_eq_getElem (by omega)⟩
    obtain ⟨c, hc⟩ : ∃ c, bytes[off + 2]? = some c := ⟨_, List.getElem?_eq_getElem (by omega)⟩
    obtain ⟨d, hd⟩ : ∃ d, bytes[off + 3]? = some d := ⟨_, List.getElem?_eq_getElem (by omega)⟩
    refine ⟨_, segmentAt_of_some ha hb hc hd, fun marker stop h => ?_⟩
    rw [headOf] at h
    split_ifs at h with hbad
    cases h
    omega

/-- What the walk finds is six bytes into a segment of the file. -/
def Inside (bytes : Bytes) (off : ℕ) (x : ℕ × ℕ) : Prop :=
  off + 10 ≤ x.1 ∧ x.1 ≤ x.2 ∧ x.2 ≤ bytes.length

/-- Each turn of the walk goes on after the segment it looked at, so it comes to an end. -/
theorem walkSegments_ok {bytes : Bytes} {off fuel : ℕ} (hoff : off ≤ bytes.length)
    (hfuel : bytes.length < off + fuel) :
    ∃ r, walkSegments bytes fuel off = .ok r ∧ ∀ x, r = some x → Inside bytes off x := by
  induction fuel generalizing off with
  | zero => omega
  | succ fuel ih =>
    obtain ⟨r, hr, hstop⟩ := segmentAt_ok bytes off
    rw [walkSegments, hr, ok_bind]
    rcases r with _ | ⟨marker, stop⟩
    · exact ⟨none, rfl, fun _ h => by cases h⟩
    obtain ⟨hle, hlen⟩ := hstop marker stop rfl
    have hnext : ∃ r, walkSegments bytes fuel stop = .ok r ∧ ∀ x, r = some x → Inside bytes off x := by
      obtain ⟨r, hr, hin⟩ := ih hlen (by omega)
      refine ⟨r, hr, fun x hx => ?_⟩
      obtain ⟨hx, hrest⟩ := hin x hx
      exact ⟨by omega, hrest⟩
    change ∃ r, (if marker = 0xE1 then _ else _) = _ ∧ _
    split_ifs with hmarker
    · rw [rangeAt_of_le hle hlen, ok_bind]
      split_ifs with hexif
      · refine ⟨_, rfl, fun x hx => ?_⟩
        have hlong := (List.isPrefixOf_iff_prefix.1 hexif).length_le
        rw [length_slice (by omega), length_exif] at hlong
        cases hx
        exact ⟨le_rfl, by omega, hlen⟩
      · exact hnext
    · exact hnext

/-- `find_tiff_at` comes to an end without an index out of range, and finds a part of the file. -/
theorem findTiffAt_ok (bytes : Bytes) : ∃ r, findTiffAt bytes = .ok r ∧
    ∀ x, r = some x → x.1 ≤ x.2 ∧ x.2 ≤ bytes.length := by
  unfold findTiffAt
  split_ifs with hplain hjpeg
  · refine ⟨_, rfl, fun x hx => ?_⟩
    cases hx
    exact ⟨Nat.zero_le _, le_rfl⟩
  · have hlong := (List.isPrefixOf_iff_prefix.1 hjpeg).length_le
    obtain ⟨r, hr, hin⟩ := @walkSegments_ok bytes 2 (bytes.length + 1) hlong (by omega)
    exact ⟨r, hr, fun x hx => (hin x hx).2⟩
  · exact ⟨none, rfl, fun _ h => by cases h⟩

/-! ## Values taken -/

section

variable {F : Type} {fl : Floats F} {r r' : Readers F} {e : Entry}

@[simp] theorem read_text_eq : r.read .text e = r'.read .text e ↔ r.text e = r'.text e :=
  (Option.map_injective fun _ _ => Value.text.inj).eq_iff

@[simp] theorem read_number_eq : r.read .number e = r'.read .number e ↔ r.number e = r'.number e :=
  (Option.map_injective fun _ _ => Value.number.inj).eq_iff

@[simp] theorem read_rational_eq :
    r.read .rational e = r'.read .rational e ↔ r.rational e = r'.rational e :=
  (Option.map_injective fun _ _ => Value.rational.inj).eq_iff

@[simp] theorem read_degrees_eq : r.read .degrees e = r'.read .degrees e ↔ r.degrees e = r'.degrees e :=
  (Option.map_injective fun _ _ => Value.degrees.inj).eq_iff

end

/-- How the loop over the first directory takes the value of a tag. -/
def mainUse : ℕ → Option Use
  | 0x010F | 0x0110 | 0x0131 | 0x0132 | 0x013B | 0x8298 => some .text
  | 0x0112 | 0x8769 | 0x8825 => some .number
  | _ => none

/-- How the loop over the EXIF directory takes the value of a tag. -/
def shotUse : ℕ → Option Use
  | 0x829A | 0x829D | 0x920A => some .rational
  | 0x8827 | 0xA002 | 0xA003 => some .number
  | 0x9003 | 0xA434 => some .text
  | _ => none

/-- How the loop over the GPS directory takes the value of a tag. -/
def spotUse : ℕ → Option Use
  | 0x0001 | 0x0003 => some .text
  | 0x0002 | 0x0004 => some .degrees
  | _ => none

/-- The values a loop takes from the entries of a directory. -/
def usesIn (use : ℕ → Option Use) (es : List Entry) : List (Use × Entry) :=
  es.filterMap fun e => (use e.tag).map fun u => (u, e)

/-- The values that `exif_of` takes. -/
def takes {F : Type} (r : Readers F) (dir : ℕ → List Entry) (firstIfd : ℕ) : List (Use × Entry) :=
  let main := mainOf r dir firstIfd
  usesIn mainUse (dir firstIfd) ++ main.exifIfd.elim [] (fun start => usesIn shotUse (dir start)) ++
    main.gpsIfd.elim [] fun start => usesIn spotUse (dir start)

section

variable {F : Type} {fl : Floats F} {r r' : Readers F} {e : Entry} {es : List Entry}
  {use : ℕ → Option Use}

theorem mem_usesIn {u : Use} (he : e ∈ es) (hu : use e.tag = some u) : (u, e) ∈ usesIn use es :=
  List.mem_filterMap.2 ⟨e, he, by rw [hu, Option.map_some]⟩

theorem Main.take_congr {s : Main F} (h : ∀ u, mainUse e.tag = some u → r'.read u e = r.read u e) :
    s.take r' e = s.take r e := by
  unfold Main.take
  split <;> simp_all [mainUse]

theorem Shot.take_congr {s : Shot F} (h : ∀ u, shotUse e.tag = some u → r'.read u e = r.read u e) :
    s.take fl r' e = s.take fl r e := by
  unfold Shot.take
  split <;> simp_all [shotUse]

theorem Spot.take_congr {s : Spot F} (h : ∀ u, spotUse e.tag = some u → r'.read u e = r.read u e) :
    s.take r' e = s.take r e := by
  unfold Spot.take
  split <;> simp_all [spotUse]

/-- A loop whose turns agree on the values they take comes to the same. -/
theorem foldl_take_congr {σ : Type} {take take' : σ → Entry → σ} {s : σ}
    (hstep : ∀ s e, (∀ u, use e.tag = some u → r'.read u e = r.read u e) → take' s e = take s e)
    (h : ∀ x ∈ usesIn use es, r'.read x.1 x.2 = r.read x.1 x.2) :
    es.foldl take' s = es.foldl take s :=
  List.foldl_ext _ _ _ fun s e he => hstep s e fun u hu => h (u, e) (mem_usesIn he hu)

/-- **What `exif_of` makes of a block it makes of the values it takes.** -/
theorem exifWith_congr {dir : ℕ → List Entry} {firstIfd : ℕ}
    (h : ∀ x ∈ takes r dir firstIfd, r'.read x.1 x.2 = r.read x.1 x.2) :
    exifWith fl r' dir firstIfd = exifWith fl r dir firstIfd := by
  have hmain : mainOf r' dir firstIfd = mainOf r dir firstIfd :=
    foldl_take_congr (fun _ _ => Main.take_congr) fun x hx =>
      h x (List.mem_append_left _ (List.mem_append_left _ hx))
  have hshot : shotOf fl r' dir (mainOf r dir firstIfd) = shotOf fl r dir (mainOf r dir firstIfd) := by
    unfold shotOf
    split
    case h_1 => rfl
    case h_2 start hstart =>
      refine foldl_take_congr (fun _ _ => Shot.take_congr) fun x hx => ?_
      refine h x (List.mem_append_left _ (List.mem_append_right _ ?_))
      rwa [hstart]
  have hplaced (photo : Photo F) : placed fl r' dir (mainOf r dir firstIfd) photo =
      placed fl r dir (mainOf r dir firstIfd) photo := by
    unfold placed
    split
    case h_1 => rfl
    case h_2 start hstart =>
      have hspot : (dir start).foldl (Spot.take r') {} = (dir start).foldl (Spot.take r) {} := by
        refine foldl_take_congr (fun _ _ => Spot.take_congr) fun x hx => ?_
        refine h x (List.mem_append_right _ ?_)
        rwa [hstart]
      rw [hspot]
  simp only [exifWith, hmain, hshot, hplaced]

end

/-! ## What an entry declares -/

namespace Tiff

/-- The bytes an entry can offer: its own four, or the extent of count times unit bytes at its offset
where that does not fit in them. -/
def own (t : Tiff) (e : Entry) : Option Bytes :=
  match unitOf e.kind with
  | none => none
  | some unit =>
    if e.count * unit ≤ 4 then some (slice t.bytes e.off 4)
    else (t.u32At e.off).bind fun start => slice? t.bytes start (e.count * unit)

/-- The block with other bytes. -/
def withBytes (t : Tiff) (raw : Bytes) : Tiff := { t with bytes := raw }

/-- The readers that see of a block only what the entry offers. -/
def ownReaders {F : Type} (fl : Floats F) (t : Tiff) : Readers F where
  text e := if e.kind ≠ 2 then none else (t.own e).bind fun raw =>
    if e.count ≤ raw.length then tidy (raw.take e.count) else none
  number e :=
    if e.kind = 3 then (t.own e).bind fun raw => (t.withBytes raw).u16At 0
    else if e.kind = 4 then (t.own e).bind fun raw => (t.withBytes raw).u32At 0
    else if e.kind = 1 then (t.own e).bind fun raw => raw[0]?.map UInt8.toNat
    else none
  rational e :=
    if e.kind ≠ 5 ∧ e.kind ≠ 10 then none else (t.own e).bind fun raw => (t.withBytes raw).ratioAt 0
  degrees e :=
    if e.kind ≠ 5 ∨ e.count < 3 then none
    else (t.own e).bind fun raw => do
      let degrees ← (t.withBytes raw).ratioAt 0
      let minutes ← (t.withBytes raw).ratioAt 8
      let seconds ← (t.withBytes raw).ratioAt 16
      some (fl.degrees (degrees, minutes, seconds))

end Tiff

/-- How many bytes a value of a unit needs. -/
def Use.need (u : Use) (unit : ℕ) : ℕ :=
  match u with
  | .text => 0
  | .number | .rational => unit
  | .degrees => 3 * unit

/-- The extent that an entry declares covers a value. -/
def Covers (u : Use) (e : Entry) : Prop := ∃ unit, unitOf e.kind = some unit ∧ u.need unit ≤ e.count * unit

/-- The entry declares no value, and there is one to read where it would be. -/
def Tiff.Loose (t : Tiff) (u : Use) (e : Entry) : Prop :=
  e.count = 0 ∧
    ((u = .number ∧ (e.kind = 1 ∨ e.kind = 3 ∨ e.kind = 4) ∧
        ∃ unit, unitOf e.kind = some unit ∧ e.off + unit ≤ t.bytes.length) ∨
      (u = .rational ∧ (e.kind = 5 ∨ e.kind = 10) ∧
        ∃ bottom, t.u32At (e.off + 4) = some bottom ∧ bottom ≠ 0))

section

variable {F : Type} {fl : Floats F} {t : Tiff} {u : Use} {e : Entry}

/-- A number that lies in a part of the bytes is the same there. -/
theorem read?_slice {big : Bool} {img : Bytes} {off n a k : ℕ} (h : a + k ≤ n) (hk : 0 < k) :
    read? big k (slice img off n) a = read? big k img (off + a) := by
  have hlen : (slice img off n).length = min n (img.length - off) := by
    rw [slice, List.length_take, List.length_drop]
  by_cases hin : off + a + k ≤ img.length
  · rw [read?, read?, slice?_of_le (by omega), slice?_of_le hin, slice_slice h]
  · rw [read?_eq_none_iff.2 (by omega), read?_eq_none_iff.2 (by omega)]

theorem Tiff.value_of_none (h : unitOf e.kind = none) : t.value e = none := by
  rw [Tiff.value, h]

theorem Tiff.value_of_unit {unit : ℕ} (h : unitOf e.kind = some unit) : t.value e =
    if e.count * unit ≤ 4 then some (e.off, e.count * unit)
    else (t.u32At e.off).bind fun start =>
      (slice? t.bytes start (e.count * unit)).map fun _ => (start, e.count * unit) := by
  simp only [Tiff.value, h]
  split_ifs with hsize
  · rfl
  · rcases t.u32At e.off with _ | start
    · rfl
    · by_cases hlen : t.bytes.length < start + e.count * unit
      · simp only [if_pos hlen, Option.bind_some, slice?_eq_none hlen, Option.map_none]
      · simp only [if_neg hlen, Option.bind_some, slice?_of_le (Nat.le_of_not_lt hlen), Option.map_some]

/-- **Where a value is looked for**: in the entry where it fits, and else in the block, at the offset
that the entry tells, with all its bytes. -/
theorem Tiff.value_eq_some_iff {x : ℕ × ℕ} : t.value e = some x ↔
    ∃ unit, unitOf e.kind = some unit ∧ x.2 = e.count * unit ∧
      ((x.2 ≤ 4 ∧ x.1 = e.off) ∨
        (4 < x.2 ∧ t.u32At e.off = some x.1 ∧ x.1 + x.2 ≤ t.bytes.length)) := by
  rcases hunit : unitOf e.kind with _ | unit
  · simp [value_of_none hunit]
  obtain ⟨a, b⟩ := x
  rw [value_of_unit hunit]
  split_ifs with hsize
  · constructor
    · rintro ⟨⟩
      exact ⟨unit, rfl, rfl, Or.inl ⟨hsize, rfl⟩⟩
    · rintro ⟨_, ⟨⟩, rfl, ⟨-, rfl⟩ | ⟨hbig, -⟩⟩
      · rfl
      · omega
  · constructor
    · intro h
      obtain ⟨start, hstart, h⟩ := Option.bind_eq_some_iff.1 h
      obtain ⟨raw, hraw, ⟨⟩⟩ := Option.map_eq_some_iff.1 h
      exact ⟨unit, rfl, rfl, Or.inr ⟨by omega, hstart, (slice?_eq_some_iff.1 hraw).1⟩⟩
    · rintro ⟨_, ⟨⟩, rfl, ⟨hsmall, -⟩ | ⟨-, hstart, hlen⟩⟩
      · omega
      · rw [hstart, Option.bind_some, slice?_of_le hlen, Option.map_some]

/-- What an entry offers starts where its value is looked for. -/
theorem Tiff.own_eq (t : Tiff) (e : Entry) :
    t.own e = (t.value e).map fun x => slice t.bytes x.1 (max x.2 4) := by
  rcases hunit : unitOf e.kind with _ | unit
  · rw [own, hunit, value_of_none hunit, Option.map_none]
  simp only [own, hunit, value_of_unit hunit]
  split_ifs with hsize
  · rw [Option.map_some, Nat.max_eq_right hsize]
  · rcases t.u32At e.off with _ | start
    · rfl
    · rw [Option.bind_some, Option.bind_some, slice?]
      split_ifs
      · rw [Option.map_some, Option.map_some, Nat.max_eq_left (by omega)]
      · rfl

namespace Tiff

variable {p n a : ℕ}

theorem u16At_withBytes (h : a + 2 ≤ n) : (t.withBytes (slice t.bytes p n)).u16At a = t.u16At (p + a) :=
  read?_slice h (by decide)

theorem u32At_withBytes (h : a + 4 ≤ n) : (t.withBytes (slice t.bytes p n)).u32At a = t.u32At (p + a) :=
  read?_slice h (by decide)

theorem ratioAt_withBytes (h : a + 8 ≤ n) : (t.withBytes (slice t.bytes p n)).ratioAt a = t.ratioAt (p + a) := by
  rw [ratioAt, ratioAt, u32At_withBytes (by omega), u32At_withBytes (by omega), Nat.add_assoc]

/-- A rational without a bottom is none. -/
theorem ratioAt_eq_none (h : ∀ bottom, t.u32At (p + 4) = some bottom → bottom = 0) : t.ratioAt p = none := by
  rw [ratioAt]
  rcases t.u32At p with _ | top
  · rfl
  rcases hbottom : t.u32At (p + 4) with _ | bottom
  · rfl
  · exact if_pos (h bottom hbottom)

/-- Four bytes hold no rational. -/
theorem ratioAt_withBytes_four : (t.withBytes (slice t.bytes p 4)).ratioAt 0 = none := by
  refine ratioAt_eq_none fun bottom h => ?_
  have hnone : read? t.bigEndian 4 (slice t.bytes p 4) (0 + 4) = none := by
    rw [read?_eq_none_iff]
    have hlen : (slice t.bytes p 4).length ≤ 4 := List.length_take_le _ _
    omega
  rw [u32At] at h
  exact absurd (hnone.symm.trans h) (Option.some_ne_none _).symm

/-- A number is read from what its entry offers. -/
theorem number_eq_own (fl : Floats F) (t : Tiff) (e : Entry) : t.number e = (t.ownReaders fl).number e := by
  simp only [number, ownReaders, own_eq]
  rcases t.value e with _ | ⟨p, size⟩
  · rfl
  · simp only [Option.map_some, Option.bind_some, Option.bind_eq_bind]
    have hfirst : 0 < max size 4 := by omega
    rw [u16At_withBytes (by omega), u32At_withBytes (by omega), getElem?_slice, if_pos hfirst, Nat.add_zero]

theorem tidy_nil : tidy [] = none := rfl

/-- A text is cut from what its entry offers. -/
theorem text_eq_own (fl : Floats F) (t : Tiff) (e : Entry) : t.text e = (t.ownReaders fl).text e := by
  simp only [text, ownReaders, own_eq]
  split_ifs with hkind
  · rfl
  rcases hvalue : t.value e with _ | ⟨p, size⟩
  · rfl
  obtain ⟨unit, hunit, hsize, -⟩ := value_eq_some_iff.1 hvalue
  rw [not_not] at hkind
  obtain rfl : unit = 1 := by
    rw [hkind] at hunit
    cases hunit
    rfl
  obtain rfl : size = e.count := hsize.trans (Nat.mul_one _)
  simp only [Option.map_some, Option.bind_some, Option.bind_eq_bind]
  have hlen : (slice t.bytes p (max e.count 4)).length = min (max e.count 4) (t.bytes.length - p) := by
    rw [slice, List.length_take, List.length_drop]
  have htake : (slice t.bytes p (max e.count 4)).take e.count = slice t.bytes p e.count := by
    rw [slice, List.take_take, Nat.min_eq_left (by omega), slice]
  rw [htake, slice?]
  by_cases hcount : e.count = 0
  · -- There is nothing to cut, whatever is read.
    have hnil : slice t.bytes p e.count = [] := by rw [slice, hcount, List.take_zero]
    rw [hnil]
    split_ifs <;> simp only [Option.bind_some, Option.bind_none, tidy_nil]
  · by_cases hin : p + e.count ≤ t.bytes.length
    · rw [if_pos hin, if_pos (by omega), Option.bind_some]
    · rw [if_neg hin, if_neg (by omega), Option.bind_none]

/-- Three rationals are read from what their entry offers. -/
theorem triple_eq_own (fl : Floats F) (t : Tiff) (e : Entry) :
    (t.readers fl).degrees e = (t.ownReaders fl).degrees e := by
  simp only [readers, triple, ownReaders, own_eq]
  split_ifs with hkind
  · rfl
  rcases hvalue : t.value e with _ | ⟨p, size⟩
  · rfl
  obtain ⟨unit, hunit, hsize, -⟩ := value_eq_some_iff.1 hvalue
  obtain ⟨hfive, hcount⟩ : e.kind = 5 ∧ 3 ≤ e.count := by omega
  obtain rfl : unit = 8 := by
    rw [hfive] at hunit
    cases hunit
    rfl
  simp only [Option.map_some, Option.bind_some, Option.bind_eq_bind]
  rw [ratioAt_withBytes (by omega), ratioAt_withBytes (by omega), ratioAt_withBytes (by omega)]
  simp only [Nat.add_zero, Option.map_bind, Function.comp_def, Option.map_some]

/-- Behind an entry that declares no rational there is none, unless it is loose. -/
theorem ratioAt_of_not_loose (h : ¬t.Loose .rational e) (hkind : e.kind = 5 ∨ e.kind = 10)
    (hcount : e.count = 0) : t.ratioAt e.off = none := by
  refine ratioAt_eq_none fun bottom hbottom => ?_
  by_contra hne
  exact h ⟨hcount, Or.inr ⟨rfl, hkind, bottom, hbottom, hne⟩⟩

/-- A rational that is not loose is read from what its entry offers. -/
theorem rational_eq_own (fl : Floats F) (h : ¬t.Loose .rational e) :
    t.rational e = (t.ownReaders fl).rational e := by
  simp only [rational, ownReaders, own_eq]
  split_ifs with hkind
  · rfl
  rcases hvalue : t.value e with _ | ⟨p, size⟩
  · rfl
  obtain ⟨unit, hunit, hsize, hplace⟩ := value_eq_some_iff.1 hvalue
  have hkind : e.kind = 5 ∨ e.kind = 10 := by omega
  obtain rfl : unit = 8 := by
    rcases hkind with hkind | hkind <;> rw [hkind] at hunit <;> cases hunit <;> rfl
  simp only [Option.map_some, Option.bind_some, Option.bind_eq_bind]
  by_cases hcount : e.count = 0
  · obtain rfl : p = e.off := by omega
    rw [Nat.max_eq_right (by omega), ratioAt_withBytes_four, ratioAt_of_not_loose h hkind hcount]
  · rw [ratioAt_withBytes (by omega), Nat.add_zero]

/-- **A value that is not loose is read from what its entry offers.** -/
theorem read_eq_own (h : ¬t.Loose u e) : (t.readers fl).read u e = (t.ownReaders fl).read u e := by
  cases u with
  | text => exact read_text_eq.2 (text_eq_own fl t e)
  | number => exact read_number_eq.2 (number_eq_own fl t e)
  | rational => exact read_rational_eq.2 (rational_eq_own fl h)
  | degrees => exact read_degrees_eq.2 (triple_eq_own fl t e)

/-- An entry of a unit covers a number or a rational where it counts any. -/
theorem count_of_not_covers {unit : ℕ} (hunit : unitOf e.kind = some unit) (hneed : u.need unit ≤ unit)
    (h : ¬Covers u e) : e.count = 0 := by
  by_contra hcount
  refine h ⟨unit, hunit, hneed.trans ?_⟩
  exact Nat.le_mul_of_pos_left unit (Nat.pos_of_ne_zero hcount)

/-- An entry that counts nothing has its place in itself. -/
theorem value_of_count_zero {unit : ℕ} (hunit : unitOf e.kind = some unit) (hcount : e.count = 0) :
    t.value e = some (e.off, 0) := by
  rw [value_of_unit hunit, hcount, Nat.zero_mul, if_pos (Nat.zero_le _)]

/-- A number that is not declared is read where the block goes so far. -/
theorem number_isSome_iff {unit : ℕ} (hunit : unitOf e.kind = some unit) (hcount : e.count = 0) :
    (t.number e).isSome ↔ (e.kind = 1 ∨ e.kind = 3 ∨ e.kind = 4) ∧ e.off + unit ≤ t.bytes.length := by
  have hvalue : t.value e = some (e.off, 0) := value_of_count_zero hunit hcount
  simp only [number, hvalue, Option.bind_some, Option.bind_eq_bind]
  split_ifs with hthree hfour hone
  · obtain rfl : unit = 2 := by rw [hthree] at hunit; cases hunit; rfl
    rw [u16At, read?_isSome_iff]
    omega
  · obtain rfl : unit = 4 := by rw [hfour] at hunit; cases hunit; rfl
    rw [u32At, read?_isSome_iff]
    omega
  · obtain rfl : unit = 1 := by rw [hone] at hunit; cases hunit; rfl
    rw [Option.isSome_map, isSome_getElem?]
    omega
  · simp only [Option.isSome_none, Bool.false_eq_true, false_iff, not_and]
    omega

/-- **An entry that covers no value and is not loose yields none.** -/
theorem read_of_not_covers (h : ¬t.Loose u e) (hcovers : ¬Covers u e) : (t.readers fl).read u e = none := by
  rcases hunit : unitOf e.kind with _ | unit
  · have hvalue : t.value e = none := value_of_none hunit
    cases u <;> simp [Readers.read, readers, text, number, rational, triple, hvalue]
  cases u with
  | text => exact absurd ⟨unit, hunit, Nat.zero_le _⟩ hcovers
  | number =>
    have hcount := count_of_not_covers hunit le_rfl hcovers
    refine Option.map_eq_none_iff.2 (Option.not_isSome_iff_eq_none.1 fun hsome => ?_)
    obtain ⟨hkind, hlen⟩ := (number_isSome_iff hunit hcount).1 hsome
    exact h ⟨hcount, Or.inl ⟨rfl, hkind, unit, hunit, hlen⟩⟩
  | rational =>
    have hcount := count_of_not_covers hunit le_rfl hcovers
    refine Option.map_eq_none_iff.2 ?_
    change t.rational e = none
    rw [rational, value_of_count_zero hunit hcount]
    split_ifs with hkind
    · rfl
    · exact ratioAt_of_not_loose h (by omega) hcount
  | degrees =>
    refine Option.map_eq_none_iff.2 (Option.map_eq_none_iff.2 ?_)
    rw [triple]
    split_ifs with hkind
    · rfl
    · obtain ⟨hfive, hcount⟩ : e.kind = 5 ∧ 3 ≤ e.count := by omega
      exact absurd ⟨8, by rw [hfive]; rfl, Nat.mul_le_mul_right 8 hcount⟩ hcovers

/-- A loose entry yields a value. -/
theorem read_of_loose (h : t.Loose u e) : (t.readers fl).read u e ≠ none := by
  obtain ⟨hcount, ⟨rfl, hkind, unit, hunit, hlen⟩ | ⟨rfl, hkind, bottom, hbottom, hne⟩⟩ := h
  · obtain ⟨n, hn⟩ := Option.isSome_iff_exists.1 ((number_isSome_iff hunit hcount).2 ⟨hkind, hlen⟩)
    change (t.number e).map _ ≠ none
    rw [hn]
    exact Option.some_ne_none _
  · have hunit : unitOf e.kind = some 8 := by
      rcases hkind with hkind | hkind <;> rw [hkind] <;> rfl
    obtain ⟨top, htop⟩ : ∃ top, t.u32At e.off = some top := by
      refine Option.isSome_iff_exists.1 (read?_isSome_iff.2 ?_)
      have hlen := read?_isSome_iff.1 (Option.isSome_iff_exists.2 ⟨bottom, hbottom⟩)
      omega
    have hratio : t.ratioAt e.off = some (top, bottom) := by
      rw [ratioAt, htop, hbottom]
      exact if_neg hne
    have hread : t.rational e = some (top, bottom) := by
      rw [rational, if_neg (by omega), value_of_count_zero hunit hcount]
      exact hratio
    change (t.rational e).map _ ≠ none
    rw [hread]
    exact Option.some_ne_none _

/-- A loose entry covers nothing. -/
theorem not_covers_of_loose (h : t.Loose u e) : ¬Covers u e := by
  rintro ⟨unit, hunit, hneed⟩
  have hpos : 0 < unit := by
    unfold unitOf at hunit
    split_ifs at hunit <;> cases hunit <;> decide
  obtain ⟨hcount, ⟨rfl, -⟩ | ⟨rfl, -⟩⟩ := h
  · have hneed : unit ≤ e.count * unit := hneed
    rw [hcount, Nat.zero_mul] at hneed
    omega
  · have hneed : unit ≤ e.count * unit := hneed
    rw [hcount, Nat.zero_mul] at hneed
    omega

/-- **An entry yields only a value that it covers, from the bytes it offers**, unless it is loose. -/
theorem covered_iff : ((t.readers fl).read u e = (t.ownReaders fl).read u e ∧
    (¬Covers u e → (t.readers fl).read u e = none)) ↔ ¬t.Loose u e := by
  constructor
  · intro h hloose
    exact read_of_loose hloose (h.2 (not_covers_of_loose hloose))
  · intro h
    exact ⟨read_eq_own h, read_of_not_covers h⟩

/-- `orientation_at` reads the two bytes of an entry that offers them. -/
theorem orientation_eq_own (fl : Floats F) (t : Tiff) : t.orientation =
    ((t.entries t.firstIfd).find? Entry.turns).bind fun e =>
      ((t.ownReaders fl).number e).map fun v => (e.off, t.bigEndian, v) := by
  rw [orientation]
  rcases hfind : (t.entries t.firstIfd).find? Entry.turns with _ | e
  · rfl
  have hturns : e.turns = true := List.find?_some hfind
  obtain ⟨-, hkind, hcount⟩ := of_decide_eq_true hturns
  have hvalue : t.value e = some (e.off, 2) := by
    rw [value, hkind, hcount]
    rfl
  rw [Option.bind_some, ← number_eq_own, number, if_pos hkind, hvalue]
  rfl

end Tiff

end

/-! ## Photographs -/

/-- The values that `exif_of` takes from a block. -/
def Tiff.takes {F : Type} (fl : Floats F) (t : Tiff) : List (Use × Entry) :=
  Media.takes (t.readers fl) t.entries t.firstIfd

/-- What is found in a block, told by the offset in the file. -/
def shift (start : ℕ) (o : ℕ × Bool × ℕ) : ℕ × Bool × ℕ := (start + o.1, o.2)

/-- Reading a file's EXIF stays inside what the file declares. -/
structure StaysInside {F : Type} (fl : Floats F) (bytes : Bytes) : Prop where
  /-- The two readers come to an end, without an index out of range. -/
  total : ∃ p o, exifOf fl bytes = .ok p ∧ orientationAt bytes = .ok o
  /-- They say the same of any file where the same block is found. -/
  block : ∀ other start stop start' stop', findTiffAt bytes = .ok (some (start, stop)) →
    findTiffAt other = .ok (some (start', stop')) →
    slice bytes start (stop - start) = slice other start' (stop' - start') →
    exifOf fl other = exifOf fl bytes ∧
      ∃ o, orientationAt bytes = .ok (Option.map (shift start) o) ∧
        orientationAt other = .ok (o.map (shift start'))
  /-- What readers of the entries taken say is all that `exif_of` says. -/
  taken : ∀ t r, tiffOf bytes = .ok (some t) →
    (∀ x ∈ t.takes fl, r.read x.1 x.2 = (t.readers fl).read x.1 x.2) →
    exifOf fl bytes = .ok (exifWith fl r t.entries t.firstIfd)
  /-- A value is taken from the four bytes of its entry or the extent at its offset. -/
  own : ∀ t, tiffOf bytes = .ok (some t) → ∀ x ∈ t.takes fl,
    (t.readers fl).read x.1 x.2 = (t.ownReaders fl).read x.1 x.2
  /-- An entry that does not cover a value yields none. -/
  covered : ∀ t, tiffOf bytes = .ok (some t) → ∀ x ∈ t.takes fl,
    ¬Covers x.1 x.2 → (t.readers fl).read x.1 x.2 = none
  /-- The orientation is read like a number of its entry. -/
  turned : ∀ t, tiffOf bytes = .ok (some t) → t.orientation =
    ((t.entries t.firstIfd).find? Entry.turns).bind fun e =>
      ((t.ownReaders fl).number e).map fun v => (e.off, t.bigEndian, v)

section

variable {F : Type} {fl : Floats F} {bytes : Bytes}

/-- What the two readers make of a block that is found. -/
theorem tiffOf_of_found {start stop : ℕ} (h : findTiffAt bytes = .ok (some (start, stop))) :
    tiffOf bytes = .ok (Tiff.ofBlock (slice bytes start (stop - start))) ∧
      orientationAt bytes = .ok (((Tiff.ofBlock (slice bytes start (stop - start))).bind
        Tiff.orientation).map (shift start)) := by
  obtain ⟨r, hr, hin⟩ := findTiffAt_ok bytes
  obtain rfl : some (start, stop) = r := Except.ok.inj (h.symm.trans hr)
  obtain ⟨hle, hlen⟩ := hin _ rfl
  have hlen : start + (stop - start) ≤ bytes.length := by
    simp only at hle hlen
    omega
  rw [tiffOf, orientationAt, h, ok_bind, ok_bind]
  simp only [slice?_of_le hlen, Option.bind_some]
  exact ⟨rfl, rfl⟩

/-- Where no block is found there is no photograph and no orientation. -/
theorem tiffOf_of_none (h : findTiffAt bytes = .ok none) :
    tiffOf bytes = .ok none ∧ orientationAt bytes = .ok none := by
  rw [tiffOf, orientationAt, h]
  exact ⟨rfl, rfl⟩

theorem exifOf_of_tiff {t : Option Tiff} (h : tiffOf bytes = .ok t) :
    exifOf fl bytes = .ok (t.bind (Tiff.photo fl)) := by
  rw [exifOf, h]
  rfl

theorem readers_total (fl : Floats F) (bytes : Bytes) :
    ∃ p o, exifOf fl bytes = .ok p ∧ orientationAt bytes = .ok o := by
  obtain ⟨r, hr, -⟩ := findTiffAt_ok bytes
  rcases r with _ | ⟨start, stop⟩
  · obtain ⟨htiff, horient⟩ := tiffOf_of_none hr
    exact ⟨_, _, exifOf_of_tiff htiff, horient⟩
  · obtain ⟨htiff, horient⟩ := tiffOf_of_found hr
    exact ⟨_, _, exifOf_of_tiff htiff, horient⟩

/-- The readers see nothing of a file besides the block. -/
theorem readers_of_block {other : Bytes} {start stop start' stop' : ℕ}
    (h : findTiffAt bytes = .ok (some (start, stop)))
    (h' : findTiffAt other = .ok (some (start', stop')))
    (hsame : slice bytes start (stop - start) = slice other start' (stop' - start')) :
    exifOf fl other = exifOf fl bytes ∧
      ∃ o, orientationAt bytes = .ok (Option.map (shift start) o) ∧
        orientationAt other = .ok (o.map (shift start')) := by
  obtain ⟨htiff, horient⟩ := tiffOf_of_found h
  obtain ⟨htiff', horient'⟩ := tiffOf_of_found h'
  rw [← hsame] at htiff' horient'
  exact ⟨(exifOf_of_tiff htiff').trans (exifOf_of_tiff htiff).symm, _, horient, horient'⟩

/-- **Reading stays inside what a file declares just where no entry is loose**: none whose value is taken
and that counts none has a number of its kind there, or a rational with a bottom. -/
theorem staysInside_iff (fl : Floats F) (bytes : Bytes) : StaysInside fl bytes ↔
    ∀ t, tiffOf bytes = .ok (some t) → ∀ x ∈ t.takes fl, ¬t.Loose x.1 x.2 := by
  constructor
  · intro h t ht x hx
    exact Tiff.covered_iff.1 ⟨h.own t ht x hx, h.covered t ht x hx⟩
  · intro h
    exact
      { total := readers_total fl bytes
        block := fun _ _ _ _ _ => readers_of_block
        taken := fun t r ht hr =>
          (exifOf_of_tiff ht).trans (congrArg Except.ok (exifWith_congr hr).symm)
        own := fun t ht x hx => (Tiff.covered_iff.2 (h t ht x hx)).1
        covered := fun t ht x hx => (Tiff.covered_iff.2 (h t ht x hx)).2
        turned := fun t _ => Tiff.orientation_eq_own fl t }

end

/-- An entry of twelve bytes, low byte first. -/
def entryLE (tag kind count value : ℕ) : Bytes := le 2 tag ++ le 2 kind ++ le 4 count ++ le 4 value

/-- A TIFF whose exposure is a rational that counts none, with another entry behind it. -/
def uncounted : Bytes :=
  [73, 73, 42, 0] ++ le 4 8 ++ le 2 1 ++ entryLE 0x8769 4 1 22 ++
    le 2 2 ++ entryLE 0x829A 5 0 1 ++ entryLE 0x8827 3 1 100

/-- Floats that come to nothing. -/
def noFloats : Floats Unit where
  trim _ := []
  inverse _ := 0
  degrees _ := ()
  neg _ := ()

/-- The exposure of such a photograph is one over the tag and the kind of the next entry. -/
theorem uncounted_exposure : ¬StaysInside noFloats uncounted := by
  intro h
  have htiff : tiffOf uncounted = .ok (some ⟨uncounted, false, 8⟩) := by decide
  have hmem : (Use.rational, ⟨0x829A, 5, 0, 32⟩) ∈ Tiff.takes noFloats ⟨uncounted, false, 8⟩ := by
    decide
  have hcovers : ¬Covers .rational ⟨0x829A, 5, 0, 32⟩ := by
    rintro ⟨unit, ⟨⟩, hneed⟩
    exact absurd hneed (by decide)
  have hread : Tiff.rational ⟨uncounted, false, 8⟩ ⟨0x829A, 5, 0, 32⟩ = some (1, 0x38827) := by
    decide
  have hnone := h.covered _ htiff _ hmem hcovers
  change (Tiff.rational ⟨uncounted, false, 8⟩ ⟨0x829A, 5, 0, 32⟩).map Value.rational = none at hnone
  rw [hread] at hnone
  exact absurd hnone (Option.some_ne_none _)

end Aurade.Media
