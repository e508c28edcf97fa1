import Aurade.Foundations.Image
import Aurade.Foundations.Text

/-!
# What a photograph says about itself

`find_tiff_at` finds the block that carries the EXIF: the whole file where it is a TIFF, or the segment
of a JPEG that says so. In the block a directory is a count and entries of twelve bytes, and an entry is
a tag, a kind, a count and four bytes, which are the value where it fits in them and its offset where it
does not. `exif_of` goes through three directories and takes a value from each entry whose tag it knows;
`orientation_at` looks for one entry of the first, and `set_orientation` writes over its value.

Bytes are indexed only while the block is looked for, and there the model says what an index out of range
would be. Offsets are numbers of at most 32 bits with a few thousand added, so no sum of them leaves the
64 bits it is in.
-/

namespace Aurade.Media

/-- How indexing and a loop go wrong. -/
inductive Fault
  | outOfRange
  | endless
  deriving DecidableEq

/-! ## The block -/

/-- `bytes[i]`. -/
def byteAt (bytes : Bytes) (i : ℕ) : Except Fault UInt8 :=
  match bytes[i]? with
  | some b => .ok b
  | none => .error .outOfRange

/-- `bytes[start..stop]`. -/
def rangeAt (bytes : Bytes) (start stop : ℕ) : Except Fault Bytes :=
  if start ≤ stop ∧ stop ≤ bytes.length then .ok (slice bytes start (stop - start))
  else .error .outOfRange

/-- The head of the segment at an offset: its marker and where it ends, where the walk goes on. -/
def segmentAt (bytes : Bytes) (off : ℕ) : Except Fault (Option (UInt8 × ℕ)) :=
  if bytes.length < off + 4 then .ok none
  else do
    let first ← byteAt bytes off
    if first ≠ 0xFF then pure none
    else do
      let marker ← byteAt bytes (off + 1)
      if marker = 0xDA ∨ marker = 0xD9 then pure none
      else do
        let high ← byteAt bytes (off + 2)
        let low ← byteAt bytes (off + 3)
        let length := 256 * high.toNat + low.toNat
        if length < 2 then pure none
        else
          let stop := off + 4 + (length - 2)
          if bytes.length < stop then pure none else pure (some (marker, stop))

/-- The walk over the segments of a JPEG. -/
def walkSegments (bytes : Bytes) : ℕ → ℕ → Except Fault (Option (ℕ × ℕ))
  | 0, _ => .error .endless
  | fuel + 1, off => do
    match ← segmentAt bytes off with
    | none => pure none
    | some (marker, stop) =>
      if marker = 0xE1 then do
        let body ← rangeAt bytes (off + 4) stop
        if (text "Exif\x00\x00").isPrefixOf body then pure (some (off + 4 + 6, stop))
        else walkSegments bytes fuel stop
      else walkSegments bytes fuel stop

/-- `find_tiff_at`. -/
def findTiffAt (bytes : Bytes) : Except Fault (Option (ℕ × ℕ)) :=
  if [73, 73, 42, 0].isPrefixOf bytes || [77, 77, 0, 42].isPrefixOf bytes then
    .ok (some (0, bytes.length))
  else if [0xFF, 0xD8].isPrefixOf bytes then walkSegments bytes (bytes.length + 1) 2
  else .ok none

/-! ## Directories -/

/-- One directory entry, located and not read: `off` is where its four value bytes are. -/
structure Entry where
  tag : ℕ
  kind : ℕ
  count : ℕ
  off : ℕ
  deriving DecidableEq

/-- The block, the order of its bytes and where its first directory is. -/
structure Tiff where
  bytes : Bytes
  bigEndian : Bool
  firstIfd : ℕ
  deriving DecidableEq

/-- How many entries of a directory are read. -/
def maxEntries : ℕ := 512

/-- How many bytes one of a kind has. -/
def unitOf (kind : ℕ) : Option ℕ :=
  if kind = 1 ∨ kind = 2 ∨ kind = 6 ∨ kind = 7 then some 1
  else if kind = 3 ∨ kind = 8 then some 2
  else if kind = 4 ∨ kind = 9 ∨ kind = 11 then some 4
  else if kind = 5 ∨ kind = 10 ∨ kind = 12 then some 8
  else none

/-- A text up to its first NUL, without the spaces around it, where there is one. -/
def tidy (raw : Bytes) : Option Bytes :=
  let t := trimBytes (Utf8.lossy (raw.takeWhile (· ≠ 0)))
  if t = [] then none else some t

namespace Tiff

/-- `u16_at`. -/
def u16At (t : Tiff) (off : ℕ) : Option ℕ := read? t.bigEndian 2 t.bytes off

/-- `u32_at`. -/
def u32At (t : Tiff) (off : ℕ) : Option ℕ := read? t.bigEndian 4 t.bytes off

/-- The order of the bytes that a block names. -/
def orderOf (bytes : Bytes) : Option Bool :=
  match slice? bytes 0 2 with
  | none => none
  | some raw => if raw = [77, 77] then some true else if raw = [73, 73] then some false else none

/-- `open`. -/
def ofBlock (bytes : Bytes) : Option Tiff :=
  match orderOf bytes with
  | none => none
  | some bigEndian =>
    if read? bigEndian 2 bytes 2 = some 42 then
      (read? bigEndian 4 bytes 4).map fun firstIfd => { bytes, bigEndian, firstIfd }
    else none

/-- The entry at an offset. -/
def entryAt (t : Tiff) (base : ℕ) : Option Entry :=
  match t.u16At base, t.u16At (base + 2), t.u32At (base + 4) with
  | some tag, some kind, some count => some { tag, kind, count, off := base + 8 }
  | _, _, _ => none

/-- The next `n` entries of a directory from the one with a number on, up to one that cannot be read. -/
def entriesFrom (t : Tiff) (start : ℕ) : ℕ → ℕ → List Entry
  | 0, _ => []
  | n + 1, i =>
    match t.entryAt (start + (2 + i * 12)) with
    | some e => e :: entriesFrom t start n (i + 1)
    | none => []

/-- `entries`. -/
def entries (t : Tiff) (start : ℕ) : List Entry :=
  match t.u16At start with
  | none => []
  | some count => entriesFrom t start (min count maxEntries) 0

/-- `value`: where an entry's bytes are, and how many there are. -/
def value (t : Tiff) (e : Entry) : Option (ℕ × ℕ) :=
  match unitOf e.kind with
  | none => none
  | some unit =>
    let size := e.count * unit
    if size ≤ 4 then some (e.off, size)
    else
      match t.u32At e.off with
      | none => none
      | some start => if t.bytes.length < start + size then none else some (start, size)

/-- `text`. -/
def text (t : Tiff) (e : Entry) : Option Bytes :=
  if e.kind ≠ 2 then none
  else do
    let (start, size) ← t.value e
    let raw ← slice? t.bytes start size
    tidy raw

/-- `number`. -/
def number (t : Tiff) (e : Entry) : Option ℕ :=
  if e.kind = 3 then do t.u16At (← t.value e).1
  else if e.kind = 4 then do t.u32At (← t.value e).1
  else if e.kind = 1 then do t.bytes[(← t.value e).1]?.map UInt8.toNat
  else none

/-- The two numbers of a rational at an offset, where it has a bottom. -/
def ratioAt (t : Tiff) (start : ℕ) : Option (ℕ × ℕ) := do
  let top ← t.u32At start
  let bottom ← t.u32At (start + 4)
  if bottom = 0 then none else some (top, bottom)

/-- `rational`. -/
def rational (t : Tiff) (e : Entry) : Option (ℕ × ℕ) :=
  if e.kind ≠ 5 ∧ e.kind ≠ 10 then none else do t.ratioAt (← t.value e).1

/-- The three rationals of `degrees`. -/
def triple (t : Tiff) (e : Entry) : Option ((ℕ × ℕ) × (ℕ × ℕ) × (ℕ × ℕ)) :=
  if e.kind ≠ 5 ∨ e.count < 3 then none
  else do
    let (start, _) ← t.value e
    let degrees ← t.ratioAt start
    let minutes ← t.ratioAt (start + 8)
    let seconds ← t.ratioAt (start + 16)
    some (degrees, minutes, seconds)

end Tiff

/-! ## The photograph -/

/-- The arithmetic and the writing of floats: a ratio as the shortest decimal, the whole number nearest
to what a ratio goes into one, three ratios as degrees, and a sign changed. -/
structure Floats (F : Type) where
  trim : ℕ × ℕ → Bytes
  inverse : ℕ × ℕ → ℕ
  degrees : (ℕ × ℕ) × (ℕ × ℕ) × (ℕ × ℕ) → F
  neg : F → F

/-- `Photo`. -/
structure Photo (F : Type) where
  width : Option ℕ := none
  height : Option ℕ := none
  camera : Option Bytes := none
  lens : Option Bytes := none
  software : Option Bytes := none
  taken : Option Bytes := none
  orientation : Option ℕ := none
  exposure : Option Bytes := none
  aperture : Option Bytes := none
  iso : Option ℕ := none
  focalLength : Option Bytes := none
  artist : Option Bytes := none
  copyright : Option Bytes := none
  latitude : Option F := none
  longitude : Option F := none

/-- `as_shutter`. -/
def asShutter {F : Type} (fl : Floats F) (r : ℕ × ℕ) : Bytes :=
  if r.1 = 0 then Aurade.text "0 s"
  else if r.2 ≤ r.1 then fl.trim r ++ Aurade.text " s"
  else Aurade.text "1/" ++ decimal (fl.inverse r)

/-- One turn of `normalise_date`. -/
def dashColon (bs : Bytes) : Bytes :=
  match bs.findIdx? (· = 58) with
  | some i => if i < 10 then bs.set i 45 else bs
  | none => bs

/-- `normalise_date`. -/
def normaliseDate (raw : Bytes) : Bytes := dashColon (dashColon raw)

/-- `signed`. -/
def signed {F : Type} (fl : Floats F) (degrees : F) (reference : Option Bytes) (negative : UInt8) : F :=
  if reference.any fun r => r.map asciiLower = [asciiLower negative] then fl.neg degrees else degrees

/-- The camera of a make and a model. -/
def cameraOf : Option Bytes → Option Bytes → Option Bytes
  | some make, some model =>
    if make.isPrefixOf model then some model else some (make ++ Aurade.text " " ++ model)
  | make, model => make.or model

/-- `is_empty`. -/
def Photo.isEmpty {F : Type} (p : Photo F) : Bool :=
  p.width.isNone && p.height.isNone && p.camera.isNone && p.lens.isNone && p.software.isNone &&
    p.taken.isNone && p.orientation.isNone && p.exposure.isNone && p.aperture.isNone &&
    p.iso.isNone && p.focalLength.isNone && p.artist.isNone && p.copyright.isNone &&
    p.latitude.isNone && p.longitude.isNone

/-! ## The three directories -/

/-- The ways a value is taken from an entry. -/
inductive Use
  | text
  | number
  | rational
  | degrees
  deriving DecidableEq

/-- A value taken. -/
inductive Value (F : Type)
  | text (bs : Bytes)
  | number (n : ℕ)
  | rational (r : ℕ × ℕ)
  | degrees (d : F)

/-- What takes values from entries. -/
structure Readers (F : Type) where
  text : Entry → Option Bytes
  number : Entry → Option ℕ
  rational : Entry → Option (ℕ × ℕ)
  degrees : Entry → Option F

/-- The value taken from an entry in a way. -/
def Readers.read {F : Type} (r : Readers F) (u : Use) (e : Entry) : Option (Value F) :=
  match u with
  | .text => (r.text e).map .text
  | .number => (r.number e).map .number
  | .rational => (r.rational e).map .rational
  | .degrees => (r.degrees e).map .degrees

/-- The readers of a block. -/
def Tiff.readers {F : Type} (fl : Floats F) (t : Tiff) : Readers F where
  text := t.text
  number := t.number
  rational := t.rational
  degrees e := (t.triple e).map fl.degrees

/-- What the loop over the first directory holds. -/
structure Main (F : Type) where
  photo : Photo F := {}
  make : Option Bytes := none
  model : Option Bytes := none
  dateTime : Option Bytes := none
  exifIfd : Option ℕ := none
  gpsIfd : Option ℕ := none

/-- What the loop over the EXIF directory holds. -/
structure Shot (F : Type) where
  photo : Photo F
  taken : Option Bytes := none

/-- What the loop over the GPS directory holds. -/
structure Spot (F : Type) where
  lat : Option F := none
  latRef : Option Bytes := none
  lon : Option F := none
  lonRef : Option Bytes := none

section

variable {F : Type} (fl : Floats F) (r : Readers F)

def Main.take (s : Main F) (e : Entry) : Main F :=
  match e.tag with
  | 0x010F => { s with make := r.text e }
  | 0x0110 => { s with model := r.text e }
  | 0x0112 => { s with photo := { s.photo with orientation := (r.number e).map (· % 65536) } }
  | 0x0131 => { s with photo := { s.photo with software := r.text e } }
  | 0x0132 => { s with dateTime := r.text e }
  | 0x013B => { s with photo := { s.photo with artist := r.text e } }
  | 0x8298 => { s with photo := { s.photo with copyright := r.text e } }
  | 0x8769 => { s with exifIfd := r.number e }
  | 0x8825 => { s with gpsIfd := r.number e }
  | _ => s

def Shot.take (s : Shot F) (e : Entry) : Shot F :=
  match e.tag with
  | 0x829A => { s with photo := { s.photo with exposure := (r.rational e).map (asShutter fl) } }
  | 0x829D =>
    { s with photo :=
        { s.photo with aperture := (r.rational e).map fun v => Aurade.text "f/" ++ fl.trim v } }
  | 0x8827 => { s with photo := { s.photo with iso := r.number e } }
  | 0x9003 => { s with taken := r.text e }
  | 0x920A =>
    { s with photo :=
        { s.photo with focalLength := (r.rational e).map fun v => fl.trim v ++ Aurade.text " mm" } }
  | 0xA002 => { s with photo := { s.photo with width := r.number e } }
  | 0xA003 => { s with photo := { s.photo with height := r.number e } }
  | 0xA434 => { s with photo := { s.photo with lens := r.text e } }
  | _ => s

def Spot.take (s : Spot F) (e : Entry) : Spot F :=
  match e.tag with
  | 0x0001 => { s with latRef := r.text e }
  | 0x0002 => { s with lat := r.degrees e }
  | 0x0003 => { s with lonRef := r.text e }
  | 0x0004 => { s with lon := r.degrees e }
  | _ => s

variable (dir : ℕ → List Entry) (firstIfd : ℕ)

/-- The loop over the first directory. -/
def mainOf : Main F := (dir firstIfd).foldl (Main.take r) {}

/-- The loop over the EXIF directory, where there is one. -/
def shotOf (main : Main F) : Shot F :=
  match main.exifIfd with
  | none => { photo := main.photo }
  | some start => (dir start).foldl (Shot.take fl r) { photo := main.photo }

/-- The photograph with the place that the GPS directory tells, where there is one. -/
def placed (main : Main F) (photo : Photo F) : Photo F :=
  match main.gpsIfd with
  | none => photo
  | some start =>
    let spot : Spot F := (dir start).foldl (Spot.take r) {}
    { photo with
      latitude := spot.lat.map fun d => signed fl d spot.latRef 83
      longitude := spot.lon.map fun d => signed fl d spot.lonRef 87 }

/-- What `exif_of` makes of the directories of a block. -/
def exifWith : Option (Photo F) :=
  let main := mainOf r dir firstIfd
  let shot := shotOf fl r dir main
  let photo := { shot.photo with taken := (shot.taken.or main.dateTime).map normaliseDate }
  let photo := { placed fl r dir main photo with camera := cameraOf main.make main.model }
  if photo.isEmpty then none else some photo

/-- What `exif_of` makes of a block. -/
def Tiff.photo (t : Tiff) : Option (Photo F) := exifWith fl (t.readers fl) t.entries t.firstIfd

/-- The block that `find_tiff_at` finds, opened. -/
def tiffOf (bytes : Bytes) : Except Fault (Option Tiff) := do
  match ← findTiffAt bytes with
  | none => pure none
  | some (start, stop) => pure ((slice? bytes start (stop - start)).bind Tiff.ofBlock)

/-- `exif_of`. -/
def exifOf (bytes : Bytes) : Except Fault (Option (Photo F)) := do
  return (← tiffOf bytes).bind (Tiff.photo fl)

end

/-! ## The orientation -/

/-- The entry is one `SHORT` with the orientation. -/
def Entry.turns (e : Entry) : Bool := e.tag = 0x0112 ∧ e.kind = 3 ∧ e.count = 1

/-- Where a block has its orientation, the order of its bytes, and what it says. -/
def Tiff.orientation (t : Tiff) : Option (ℕ × Bool × ℕ) :=
  match (t.entries t.firstIfd).find? Entry.turns with
  | none => none
  | some e => (t.u16At e.off).map fun v => (e.off, t.bigEndian, v)

/-- `orientation_at`. -/
def orientationAt (bytes : Bytes) : Except Fault (Option (ℕ × Bool × ℕ)) := do
  match ← findTiffAt bytes with
  | none => pure none
  | some (start, stop) =>
    let found := ((slice? bytes start (stop - start)).bind Tiff.ofBlock).bind Tiff.orientation
    pure (found.map fun o => (start + o.1, o.2))

/-- `set_orientation`: the bytes after it, and whether it wrote. -/
def setOrientation (bytes : Bytes) (v : ℕ) : Except Fault (Bytes × Bool) := do
  match ← orientationAt bytes with
  | none => pure (bytes, false)
  | some (off, bigEndian, _) =>
    if off + 2 ≤ bytes.length then pure (write bytes off (ordered bigEndian 2 v), true)
    else pure (bytes, false)

end Aurade.Media
