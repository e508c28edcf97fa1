import Mathlib.Algebra.Order.BigOperators.Group.List
import Mathlib.Data.List.Sort
import Aurade.Foundations.Image
import Aurade.Foundations.Text

/-!
# The answers disk

`BuildISO` lays an ISO 9660 image out as pieces that are copied over zeros: a volume descriptor, two
path tables, a root directory of one sector, and the files. `readVolume` follows the descriptor to the
directory, `readFile` a record to a file, and what stands in both byte orders is compared.

Every piece comes behind the one before it (`laid_pieces`), so each is read back where it was written.
`readsBack_iff` says when the files are: a dot at the end of a name is lost, and so is what a length
has above 32 bits.
-/

namespace Aurade.Vm.Answers

/-! ## Building -/

/-- The bytes of a sector. -/
def sector : ℕ := 2048

/-- The volume name the live image looks for. -/
def label : Bytes := text "AURADE_ANS"

/-- A file on the disk. -/
structure File where
  name : Bytes
  content : Bytes
  deriving DecidableEq

/-- A point in time. -/
structure Time where
  year : ℕ
  month : ℕ
  day : ℕ
  hour : ℕ
  minute : ℕ
  second : ℕ

/-- `strings.ToUpper`, of one ASCII character. -/
def asciiUpper (b : UInt8) : UInt8 := if 97 ≤ b && b ≤ 122 then b - 32 else b

/-- `isoName`. -/
def isoName (name : Bytes) : Bytes :=
  let n := name.map asciiUpper
  (if n.contains 46 then n else n ++ [46]) ++ text ";1"

/-- `pad`, of so many bytes. -/
def pad (n : ℕ) (s : Bytes) : Bytes := (s ++ List.replicate n 32).take n

/-- `recDate`. -/
def recDate (now : Time) : Bytes :=
  [UInt8.ofNat (now.year - 1900), UInt8.ofNat now.month, UInt8.ofNat now.day, UInt8.ofNat now.hour,
    UInt8.ofNat now.minute, UInt8.ofNat now.second, 0]

/-- `decDate`. -/
def decDate (now : Time) : Bytes :=
  padded 4 now.year ++ padded 2 now.month ++ padded 2 now.day ++ padded 2 now.hour ++
    padded 2 now.minute ++ padded 2 now.second ++ text "00" ++ [0]

/-- `noDate`. -/
def noDate : Bytes := text "0000000000000000" ++ [0]

/-- The length of the record of a name: it is even. -/
def recordLength (name : Bytes) : ℕ := 33 + name.length + (33 + name.length) % 2

/-- The pieces of a directory record. -/
def recordPieces (now : Time) (name : Bytes) (extent size : ℕ) (dir : Bool) : List (ℕ × Bytes) :=
  [(0, [UInt8.ofNat (recordLength name)]), (2, both 4 extent), (10, both 4 size),
    (18, recDate now)] ++ (if dir then [(25, [2])] else []) ++
    [(28, both 2 1), (32, [UInt8.ofNat name.length]), (33, name)]

/-- `dirRecord`. -/
def dirRecord (now : Time) (name : Bytes) (extent size : ℕ) (dir : Bool) : Bytes :=
  writes (List.replicate (recordLength name) 0) (recordPieces now name extent size dir)

def pvdAt : ℕ := 16
def termAt : ℕ := 17
def lPathAt : ℕ := 18
def mPathAt : ℕ := 19
def rootAt : ℕ := 20
def fileAt : ℕ := 21

/-- The pieces of the primary volume descriptor; a date fills its field. -/
def descriptor (now : Time) (total : ℕ) : List (ℕ × Bytes) :=
  [(0, [1]), (1, text "CD001"), (6, [1]), (8, pad 32 []), (40, pad 32 label), (80, both 4 total),
    (120, both 2 1), (124, both 2 1), (128, both 2 sector), (132, both 4 10), (140, le 4 lPathAt),
    (148, be 4 mPathAt), (156, dirRecord now [0] rootAt sector true), (190, pad 128 []),
    (318, pad 128 []), (446, pad 128 []), (574, pad 128 (text "AURADE-VM")), (702, pad 37 []),
    (739, pad 37 []), (776, pad 37 []), (813, (decDate now).take 17), (830, (decDate now).take 17),
    (847, noDate), (864, noDate), (881, [1])]

/-- The pieces of the terminator and of the path tables, which hold the root. -/
def tables : List (ℕ × Bytes) :=
  [(termAt * sector, [255]), (termAt * sector + 1, text "CD001"), (termAt * sector + 6, [1]),
    (lPathAt * sector, [1]), (lPathAt * sector + 2, le 4 rootAt), (lPathAt * sector + 6, le 2 1),
    (mPathAt * sector, [1]), (mPathAt * sector + 2, be 4 rootAt), (mPathAt * sector + 6, be 2 1)]

/-- The sectors a file takes: one at least. -/
def sectorsOf (f : File) : ℕ :=
  let n := (f.content.length + sector - 1) / sector
  if n = 0 then 1 else n

/-- The files with their extents, from a sector on. -/
def placed : ℕ → List File → List (File × ℕ)
  | _, [] => []
  | next, f :: files => (f, next) :: placed (next + sectorsOf f) files

/-- The sectors of the image. -/
def total (files : List File) : ℕ := fileAt + (files.map sectorsOf).sum

/-- The records of the root directory: itself, its parent, and the files. -/
def records (now : Time) (files : List File) : List Bytes :=
  [dirRecord now [0] rootAt sector true, dirRecord now [1] rootAt sector true] ++
    (placed fileAt files).map fun p =>
      dirRecord now (isoName p.1.name) p.2 p.1.content.length false

/-- Pieces one behind the other. -/
def inTurn : ℕ → List Bytes → List (ℕ × Bytes)
  | _, [] => []
  | off, r :: rs => (off, r) :: inTurn (off + r.length) rs

/-- The pieces of the image, for files in their order. -/
def pieces (now : Time) (files : List File) : List (ℕ × Bytes) :=
  (descriptor now (total files)).map (fun w => (pvdAt * sector + w.1, w.2)) ++ tables ++
    inTurn (rootAt * sector) (records now files) ++
    (placed fileAt files).map fun p => (p.2 * sector, p.1.content)

/-- `sort.Slice`, by the name on the disk. -/
def sorted (files : List File) : List File :=
  files.mergeSort fun f g => isoName f.name ≤ isoName g.name

/-- The image, for files in their order. -/
def layOut (now : Time) (files : List File) : Bytes :=
  writes (List.replicate (total files * sector) 0) (pieces now files)

/-- The length of the records of the root directory. -/
def directoryLength (files : List File) : ℕ :=
  68 + (files.map fun f => recordLength (isoName f.name)).sum

/-- `BuildISO`. -/
def buildISO (now : Time) (files : List File) : Bytes := layOut now (sorted files)

/-! ## Reading -/

/-- A directory record, as it is read. -/
structure Record where
  name : Bytes
  extent : ℕ
  size : ℕ
  dir : Bool
  deriving DecidableEq

/-- The record in these bytes. -/
def readRecord (r : Bytes) : Option Record := do
  let extent ← both? 4 r 2
  let size ← both? 4 r 10
  let _ ← both? 2 r 28
  some ⟨slice r 33 (r.getD 32 0).toNat, extent, size, (r.getD 25 0) &&& 2 ≠ 0⟩

/-- The records of a directory sector, one behind the other up to a zero. -/
def readRecords : ℕ → Bytes → Option (List Record)
  | 0, _ => some []
  | fuel + 1, d =>
    let len := (d.headD 0).toNat
    if len = 0 then some []
    else do
      let r ← readRecord (d.take len)
      let rest ← readRecords fuel (d.drop len)
      some (r :: rest)

/-- The records of a directory, sector by sector. -/
def readDirectory (img : Bytes) (dir : Record) : Option (List Record) :=
  ((List.range ((dir.size + sector - 1) / sector)).mapM fun i =>
    readRecords sector (slice img ((dir.extent + i) * sector) sector)).map List.flatten

/-- The records of the root directory, where the volume descriptor is one and what stands in both byte
orders agrees. -/
def readVolume (img : Bytes) : Option (List Record) := do
  let p := slice img (16 * sector) sector
  if slice p 0 6 ≠ 1 :: text "CD001" then none
  else do
    let _ ← both? 4 p 80
    let _ ← both? 2 p 120
    let _ ← both? 2 p 124
    let _ ← both? 2 p 128
    let _ ← both? 4 p 132
    let root ← readRecord (slice p 156 34)
    readDirectory img root

/-- Without `suf` at the end. -/
def dropEnd (suf n : Bytes) : Bytes := if suf <:+ n then n.take (n.length - suf.length) else n

/-- A name as Linux shows it. -/
def shownName (n : Bytes) : Bytes := dropEnd [46] (dropEnd (text ";1") (n.map asciiLower))

/-- The file of a record. -/
def readFile (img : Bytes) (r : Record) : File :=
  ⟨shownName r.name, slice img (r.extent * sector) r.size⟩

/-- The records of the files. -/
def fileRecords (rs : List Record) : List Record := rs.filter fun r => !r.dir

/-- The sectors of a record. -/
def Record.sectors (r : Record) : ℕ := (r.size + sector - 1) / sector

/-- **What a reader should get of the image of these files**: all that stands in both byte orders
agrees, the files are the ones that were given, and their extents are in the image, behind the root
directory and apart. -/
def ReadsBack (files : List File) (img : Bytes) : Prop :=
  ∃ rs, readVolume img = some rs ∧ ((fileRecords rs).map (readFile img)).Perm files ∧
    (∀ r ∈ fileRecords rs, rootAt < r.extent ∧ (r.extent + r.sectors) * sector ≤ img.length) ∧
    (fileRecords rs).Pairwise fun r s =>
      r.extent + r.sectors ≤ s.extent ∨ s.extent + s.sectors ≤ r.extent

/-! ## A record -/

section

variable {now : Time} {name : Bytes} {extent size : ℕ} {dir : Bool}

theorem recordLength_even (name : Bytes) :
    33 + name.length ≤ recordLength name ∧ recordLength name ≤ 34 + name.length := by
  rw [recordLength]
  omega

@[simp] theorem length_recDate : (recDate now).length = 7 := rfl

theorem laid_recordPieces : Laid 0 (recordPieces now name extent size dir) (recordLength name) := by
  have hlen := (recordLength_even name).1
  cases dir <;> simp [recordPieces, Laid] <;> omega

@[simp] theorem length_dirRecord :
    (dirRecord now name extent size dir).length = recordLength name := by
  rw [dirRecord, length_writes, List.length_replicate]

variable (now name extent size dir) in
/-- A piece of a record. -/
theorem slice_dirRecord {w : ℕ × Bytes} (hw : w ∈ recordPieces now name extent size dir) :
    slice (dirRecord now name extent size dir) w.1 w.2.length = w.2 :=
  slice_writes laid_recordPieces.ascending hw
    (by rw [List.length_replicate]; exact (laid_recordPieces.within w hw).2)

theorem getD_of_slice {r : Bytes} {i : ℕ} {b : UInt8} (h : slice r i 1 = [b]) : r.getD i 0 = b := by
  have hget := congrArg (·[0]?) h
  rw [getElem?_slice, if_pos Nat.one_pos, Nat.add_zero] at hget
  rw [List.getD_eq_getElem?_getD, hget]
  rfl

theorem headD_dirRecord : (dirRecord now name extent size dir).headD 0 =
    UInt8.ofNat (recordLength name) := by
  have hget := getD_of_slice (slice_dirRecord now name extent size dir
    (w := (0, [UInt8.ofNat (recordLength name)])) (by simp [recordPieces]))
  rwa [List.getD_eq_getElem?_getD, ← List.head?_eq_getElem?, ← List.headD_eq_head?_getD] at hget

/-- The flags of a record. -/
theorem flags_dirRecord :
    (dirRecord now name extent size dir).getD 25 0 = if dir then 2 else 0 := by
  cases dir with
  | true =>
    exact getD_of_slice (slice_dirRecord now name extent size true (w := (25, [2])) (by simp [recordPieces]))
  | false =>
    refine getD_of_slice ?_
    rw [dirRecord, slice_writes_of_apart (by simp [recordPieces])]
    exact slice_replicate (by have := (recordLength_even name).1; omega)

/-- **A record reads back**, its numbers to 32 bits. -/
theorem readRecord_dirRecord (hname : name.length < 256) :
    readRecord (dirRecord now name extent size dir) =
      some ⟨name, extent % 2 ^ 32, size % 2 ^ 32, dir⟩ := by
  have hextent : slice (dirRecord now name extent size dir) 2 (4 + 4) = both 4 extent := by
    simpa using slice_dirRecord now name extent size dir
      (w := (2, both 4 extent)) (by simp [recordPieces])
  have hsize : slice (dirRecord now name extent size dir) 10 (4 + 4) = both 4 size := by
    simpa using slice_dirRecord now name extent size dir
      (w := (10, both 4 size)) (by simp [recordPieces])
  have hvolume : slice (dirRecord now name extent size dir) 28 (2 + 2) = both 2 1 := by
    simpa using slice_dirRecord now name extent size dir
      (w := (28, both 2 1)) (by simp [recordPieces])
  have hlen : (dirRecord now name extent size dir).getD 32 0 = UInt8.ofNat name.length :=
    getD_of_slice (slice_dirRecord now name extent size dir (w := (32, [UInt8.ofNat name.length])) (by simp [recordPieces]))
  have hname' : slice (dirRecord now name extent size dir) 33 name.length = name :=
    slice_dirRecord now name extent size dir (w := (33, name)) (by simp [recordPieces])
  have hnat : (UInt8.ofNat name.length).toNat = name.length := by
    rw [UInt8.toNat_ofNat', Nat.mod_eq_of_lt hname]
  rw [readRecord, both?_eq hextent, both?_eq hsize, both?_eq hvolume, hlen, hnat, hname',
    flags_dirRecord]
  cases dir <;> rfl

end

/-! ## The layout -/

section

variable {now : Time} {files : List File}

theorem laid_descriptor (now : Time) (total : ℕ) : Laid 0 (descriptor now total) sector := by
  have hdate : ((decDate now).take 17).length ≤ 17 := List.length_take_le _ _
  have hroot : ∀ extent size dir, (dirRecord now [0] extent size dir).length = 34 :=
    fun _ _ _ => length_dirRecord
  have hpad : ∀ n s, (pad n s).length = n := fun n s => by
    rw [pad, List.length_take, List.length_append, List.length_replicate]
    omega
  have hid : (text "CD001").length = 5 := by decide
  have hno : noDate.length = 17 := by decide
  simp only [descriptor, Laid, sector, hpad, hroot, hid, hno, length_both, length_le, length_be,
    List.length_cons, List.length_nil]
  omega

theorem laid_tables : Laid (17 * sector) tables (20 * sector) := by
  have hid : (text "CD001").length = 5 := by decide
  simp only [tables, Laid, sector, termAt, lPathAt, mPathAt, hid, length_le, length_be,
    List.length_cons, List.length_nil]
  omega

theorem laid_inTurn (off : ℕ) (rs : List Bytes) :
    Laid off (inTurn off rs) (off + rs.flatten.length) := by
  induction rs generalizing off with
  | nil => exact Nat.le_refl _
  | cons r rs ih =>
    refine ⟨Nat.le_refl _, ?_⟩
    rw [List.flatten_cons, List.length_append, ← Nat.add_assoc]
    exact ih _

theorem length_content (f : File) : f.content.length ≤ sectorsOf f * sector := by
  unfold sectorsOf sector
  dsimp only
  split_ifs <;> omega

theorem laid_placed (next : ℕ) (files : List File) :
    Laid (next * sector) ((placed next files).map fun p => (p.2 * sector, p.1.content))
      ((next + (files.map sectorsOf).sum) * sector) := by
  induction files generalizing next with
  | nil => exact Nat.le_refl _
  | cons f files ih =>
    rw [placed, List.map_cons, List.map_cons, List.sum_cons, ← Nat.add_assoc]
    refine ⟨Nat.le_refl _, ?_⟩
    have hcontent := length_content f
    have hrest := ih (next + sectorsOf f)
    cases hrec : placed (next + sectorsOf f) files with
    | nil =>
      have hle := hrest.le
      rw [List.map_nil, Laid]
      refine Nat.le_trans ?_ hle
      rw [Nat.add_mul]
      exact Nat.add_le_add_left hcontent _
    | cons p rest =>
      rw [hrec] at hrest
      refine ⟨Nat.le_trans ?_ hrest.1, hrest.2⟩
      rw [Nat.add_mul]
      exact Nat.add_le_add_left hcontent _

/-- **The pieces follow one another**, where the records fit in their sector. -/
theorem laid_pieces (hfits : (records now files).flatten.length ≤ sector) :
    Laid (16 * sector) (pieces now files) (total files * sector) := by
  have hdescriptor := (laid_descriptor now (total files)).shift (pvdAt * sector)
  have hrecords : Laid (20 * sector) (inTurn (rootAt * sector) (records now files)) (21 * sector) :=
    (laid_inTurn _ _).mono (Nat.add_le_add_left hfits _)
  have hpvd : pvdAt * sector + sector = 17 * sector := by decide
  rw [hpvd] at hdescriptor
  exact ((hdescriptor.append laid_tables).append hrecords).append (laid_placed _ _)

/-! ## Reading back -/

/-- A piece is where it was written. -/
theorem slice_layOut (hfits : (records now files).flatten.length ≤ sector) {w : ℕ × Bytes}
    (hw : w ∈ pieces now files) : slice (layOut now files) w.1 w.2.length = w.2 :=
  slice_writes (laid_pieces hfits).ascending hw
    (by rw [List.length_replicate]; exact ((laid_pieces hfits).within w hw).2)

/-- A piece of the descriptor is where it was written. -/
theorem slice_descriptor (hfits : (records now files).flatten.length ≤ sector) {w : ℕ × Bytes}
    (hw : w ∈ descriptor now (total files)) :
    slice (slice (layOut now files) (16 * sector) sector) w.1 w.2.length = w.2 := by
  have hmem : (pvdAt * sector + w.1, w.2) ∈ pieces now files := by
    rw [pieces, List.append_assoc, List.append_assoc]
    exact List.mem_append_left _ (List.mem_map_of_mem hw)
  rw [slice_slice ((laid_descriptor _ _).within w hw).2]
  exact slice_layOut hfits hmem

/-- What the records of a directory are, one behind the other. -/
theorem slice_inTurn {img : Bytes} {off : ℕ} {rs : List Bytes}
    (h : ∀ w ∈ inTurn off rs, slice img w.1 w.2.length = w.2) :
    slice img off rs.flatten.length = rs.flatten := by
  induction rs generalizing off with
  | nil => exact List.take_zero
  | cons r rs ih =>
    obtain ⟨hr, hrs⟩ := List.forall_mem_cons.1 h
    rw [List.flatten_cons, List.length_append, slice_add, ih hrs]
    exact congrArg (· ++ rs.flatten) hr

/-- **The sector of the root directory**: the records, and zeros. -/
theorem slice_root (hfits : (records now files).flatten.length ≤ sector) :
    slice (layOut now files) (20 * sector) sector = (records now files).flatten ++
      List.replicate (sector - (records now files).flatten.length) 0 := by
  obtain ⟨k, hk⟩ := Nat.exists_eq_add_of_le hfits
  have hlast : 21 * sector ≤ total files * sector :=
    Nat.mul_le_mul_right _ (Nat.le_add_right _ _)
  have hrecords : slice (layOut now files) (20 * sector) (records now files).flatten.length =
      (records now files).flatten := slice_inTurn fun w hw => slice_layOut hfits (by
    rw [pieces]
    exact List.mem_append_left _ (List.mem_append_right _ hw))
  refine (congrArg (slice _ _) hk).trans ?_
  rw [slice_add, hrecords, Nat.sub_eq_of_eq_add' hk]
  refine congrArg ((records now files).flatten ++ ·) ?_
  rw [layOut, slice_writes_of_apart ?_, slice_replicate (by omega)]
  intro w hw
  rw [pieces, List.mem_append, List.mem_append, List.mem_append] at hw
  rcases hw with ((hw | hw) | hw) | hw
  · have hpvd : pvdAt * sector + sector = 17 * sector := by decide
    have hend := (((laid_descriptor now (total files)).shift (pvdAt * sector)).within w hw).2
    omega
  · have hend := (laid_tables.within w hw).2
    omega
  · exact Or.inr ((laid_inTurn _ _).within w hw).2
  · have hstart := ((laid_placed _ _).within w hw).1
    have hfile : fileAt * sector = 21 * sector := rfl
    omega

/-- A record of these bytes is read as `p`, and says how long it is. -/
def ReadsAs (r : Bytes) (p : Record) : Prop :=
  0 < r.length ∧ r.length < 256 ∧ r.headD 0 = UInt8.ofNat r.length ∧ readRecord r = some p

/-- The records that are read from records one behind the other. -/
theorem readRecords_flatten {rs : List Bytes} {ps : List Record}
    (h : List.Forall₂ ReadsAs rs ps) {fuel : ℕ}
    (hfuel : rs.length < fuel) (k : ℕ) :
    readRecords fuel (rs.flatten ++ List.replicate k 0) = some ps := by
  induction h generalizing fuel with
  | nil =>
    obtain ⟨fuel, rfl⟩ := Nat.exists_eq_add_one_of_ne_zero (Nat.ne_of_gt hfuel)
    have hhead : (List.replicate k (0 : UInt8)).headD 0 = 0 := by cases k <;> rfl
    rw [readRecords, List.flatten_nil, List.nil_append, hhead]
    rfl
  | @cons r p rs ps hr _ ih =>
    obtain ⟨fuel, rfl⟩ := Nat.exists_eq_add_one_of_ne_zero (Nat.ne_of_gt (Nat.zero_lt_of_lt hfuel))
    obtain ⟨hpos, hlt, hhead, hread⟩ := hr
    have hlen : (UInt8.ofNat r.length).toNat = r.length := by
      rw [UInt8.toNat_ofNat', Nat.mod_eq_of_lt hlt]
    have hheadD : (r ++ (rs.flatten ++ List.replicate k 0)).headD 0 = r.headD 0 := by
      obtain ⟨b, r, rfl⟩ := List.exists_cons_of_length_pos hpos
      rfl
    rw [readRecords, List.flatten_cons, List.append_assoc, hheadD, hhead, hlen, if_neg (Nat.ne_of_gt hpos), List.take_left, List.drop_left, hread,
      ih (Nat.lt_of_succ_lt_succ hfuel)]
    rfl

/-- The record that is read for a file at an extent. -/
def recordOf (p : File × ℕ) : Record where
  name := isoName p.1.name
  extent := p.2 % 2 ^ 32
  size := p.1.content.length % 2 ^ 32
  dir := false

theorem length_isoName (name : Bytes) : (isoName name).length ≤ name.length + 3 := by
  have hsuffix : (text ";1").length = 2 := by decide
  dsimp only [isoName]
  split_ifs <;> simp only [List.length_append, List.length_map, List.length_singleton, hsuffix] <;>
    omega

theorem two_mul_length_le {rs : List Bytes} (h : ∀ r ∈ rs, 2 ≤ r.length) :
    2 * rs.length ≤ rs.flatten.length := by
  induction rs with
  | nil => exact Nat.le_refl _
  | cons r rs ih =>
    obtain ⟨hr, hrs⟩ := List.forall_mem_cons.1 h
    have hrest := ih hrs
    rw [List.flatten_cons, List.length_append, List.length_cons]
    omega

theorem placed_fst {next : ℕ} : (placed next files).map Prod.fst = files := by
  induction files generalizing next with
  | nil => rfl
  | cons f files ih => rw [placed, List.map_cons, ih]

theorem readsAs_dirRecord {name : Bytes} {extent size : ℕ} {dir : Bool} (h : name.length ≤ 33) :
    ReadsAs (dirRecord now name extent size dir) ⟨name, extent % 2 ^ 32, size % 2 ^ 32, dir⟩ := by
  have hlen := recordLength_even name
  rw [ReadsAs, length_dirRecord]
  exact ⟨by omega, by omega, headD_dirRecord, readRecord_dirRecord (by omega)⟩

theorem readsAs_records (hnames : ∀ f ∈ files, f.name.length ≤ 30) :
    List.Forall₂ ReadsAs (records now files)
      (⟨[0], rootAt, sector, true⟩ :: ⟨[1], rootAt, sector, true⟩ ::
        (placed fileAt files).map recordOf) := by
  refine .cons (readsAs_dirRecord (by simp)) (.cons (readsAs_dirRecord (by simp)) ?_)
  refine List.forall₂_map_left_iff.2 (List.forall₂_map_right_iff.2 (List.forall₂_same.2 ?_))
  intro q hq
  have hmem : q.1 ∈ (placed fileAt files).map Prod.fst := List.mem_map_of_mem hq
  rw [placed_fst] at hmem
  exact readsAs_dirRecord ((length_isoName _).trans (Nat.add_le_add_right (hnames _ hmem) 3))

theorem length_records_lt (hfits : (records now files).flatten.length ≤ sector) :
    (records now files).length < sector := by
  have hlen : ∀ name extent size dir, 2 ≤ (dirRecord now name extent size dir).length := by
    intro name extent size dir
    rw [length_dirRecord]
    exact Nat.le_trans (by omega) (recordLength_even name).1
  have htwo : ∀ r ∈ records now files, 2 ≤ r.length := by
    intro r hr
    rw [records, List.mem_append, List.mem_map] at hr
    rcases hr with hr | ⟨q, -, rfl⟩
    · rcases List.mem_pair.1 hr with rfl | rfl <;> exact hlen _ _ _ _
    · exact hlen _ _ _ _
  have hle := (two_mul_length_le htwo).trans hfits
  have hsector : sector = 2048 := rfl
  omega

/-- A directory of one sector. -/
theorem readDirectory_sector {img name : Bytes} {extent : ℕ} {rs : List Record}
    (h : readRecords sector (slice img (extent * sector) sector) = some rs) :
    readDirectory img ⟨name, extent, sector, true⟩ = some rs := by
  have hone : (sector + sector - 1) / sector = 1 := by decide
  rw [readDirectory, hone, List.range_one, List.mapM_cons, Nat.add_zero, h, List.mapM_nil]
  exact congrArg some (List.append_nil rs)

/-- **The records of the image are read**, their numbers to 32 bits. -/
theorem readVolume_layOut (hnames : ∀ f ∈ files, f.name.length ≤ 30)
    (hfits : (records now files).flatten.length ≤ sector) :
    readVolume (layOut now files) = some
      (⟨[0], rootAt, sector, true⟩ :: ⟨[1], rootAt, sector, true⟩ ::
        (placed fileAt files).map recordOf) := by
  set p := slice (layOut now files) (16 * sector) sector with hp
  have hfield : ∀ w ∈ descriptor now (total files), slice p w.1 w.2.length = w.2 :=
    fun w hw => slice_descriptor hfits hw
  have hid : slice p 0 6 = 1 :: text "CD001" := by
    have hkind := hfield (0, [1]) (by simp [descriptor])
    have hname := hfield (1, text "CD001") (by simp [descriptor])
    rw [show 6 = 1 + (text "CD001").length by decide, slice_add]
    exact congrArg₂ (· ++ ·) hkind hname
  have hboth : ∀ k v off, (off, both k v) ∈ descriptor now (total files) →
      both? k p off = some (v % 256 ^ k) := fun k v off hw =>
    both?_eq (by simpa using hfield _ hw)
  have hroot : slice p 156 34 = dirRecord now [0] rootAt sector true := by
    have hpiece := hfield (156, dirRecord now [0] rootAt sector true) (by simp [descriptor])
    rwa [length_dirRecord] at hpiece
  have hdirectory := readRecords_flatten (readsAs_records hnames) (length_records_lt hfits)
    (sector - (records now files).flatten.length)
  rw [← slice_root hfits, show 20 * sector = rootAt * sector from rfl] at hdirectory
  rw [readVolume, ← hp, if_neg (not_not.2 hid), hboth 4 (total files) 80 (by simp [descriptor]),
    hboth 2 1 120 (by simp [descriptor]), hboth 2 1 124 (by simp [descriptor]),
    hboth 2 sector 128 (by simp [descriptor]), hboth 4 10 132 (by simp [descriptor]), hroot,
    readRecord_dirRecord (by simp), Nat.mod_eq_of_lt (show rootAt < 2 ^ 32 by decide),
    Nat.mod_eq_of_lt (show sector < 2 ^ 32 by decide)]
  simp only [Option.bind_eq_bind, Option.bind_some]
  exact readDirectory_sector hdirectory

theorem placed_within {next : ℕ} {p : File × ℕ} (h : p ∈ placed next files) :
    next ≤ p.2 ∧ p.2 + sectorsOf p.1 ≤ next + (files.map sectorsOf).sum := by
  induction files generalizing next with
  | nil => cases h
  | cons f files ih =>
    rw [List.map_cons, List.sum_cons]
    rcases List.mem_cons.1 h with rfl | h
    · exact ⟨Nat.le_refl _, by dsimp only; omega⟩
    · have hrest := ih h
      omega

theorem placed_pairwise (next : ℕ) (files : List File) :
    (placed next files).Pairwise fun p q => p.2 + sectorsOf p.1 ≤ q.2 := by
  induction files generalizing next with
  | nil => exact List.Pairwise.nil
  | cons f files ih => exact List.pairwise_cons.2 ⟨fun q hq => (placed_within hq).1, ih _⟩

theorem sectors_recordOf (p : File × ℕ) : (recordOf p).sectors ≤ sectorsOf p.1 := by
  have hmod : p.1.content.length % 2 ^ 32 ≤ p.1.content.length := Nat.mod_le _ _
  have hdiv : (recordOf p).sectors ≤ (p.1.content.length + sector - 1) / sector :=
    Nat.div_le_div_right (by simp only [recordOf]; omega)
  dsimp only [sectorsOf]
  split_ifs <;> omega

/-- What is read of a file: its name without a dot at the end, and of its content as much as 32 bits
of its length say. -/
def shownFile (f : File) : File where
  name := if f.name.getLast? = some 46 then f.name.dropLast else f.name
  content := f.content.take (f.content.length % 2 ^ 32)

/-- The characters of a name. -/
def Documented (b : UInt8) : Prop := 97 ≤ b ∧ b ≤ 122 ∨ isDigit b = true ∨ b = 46 ∨ b = 95

instance : DecidablePred Documented := fun _ => inferInstanceAs (Decidable (_ ∨ _))

theorem asciiUpper_documented (b : UInt8) :
    Documented b → asciiLower (asciiUpper b) = b ∧ (asciiUpper b = 46 ↔ b = 46) :=
  forall_byte (P := fun b => Documented b → asciiLower (asciiUpper b) = b ∧
    (asciiUpper b = 46 ↔ b = 46)) (by decide +kernel) b

theorem dropEnd_append (a suf : Bytes) : dropEnd suf (a ++ suf) = a := by
  rw [dropEnd, if_pos (List.suffix_append _ _), List.length_append, Nat.add_sub_cancel,
    List.take_left]

/-- **A name reads back** but for a dot at its end. -/
theorem shownName_isoName {n : Bytes} (h : ∀ b ∈ n, Documented b) :
    shownName (isoName n) = if n.getLast? = some 46 then n.dropLast else n := by
  have hlower : (n.map asciiUpper).map asciiLower = n := by
    rw [List.map_map]
    conv_rhs => rw [← List.map_id n]
    exact List.map_congr_left fun b hb => (asciiUpper_documented b (h b hb)).1
  have hdot : (n.map asciiUpper).contains 46 = true ↔ 46 ∈ n := by
    rw [List.contains_iff_mem, List.mem_map]
    constructor
    · rintro ⟨b, hb, heq⟩
      rwa [(asciiUpper_documented b (h b hb)).2.1 heq] at hb
    · intro hmem
      exact ⟨46, hmem, by decide⟩
  have hversion : (text ";1").map asciiLower = text ";1" := by decide
  have hend : ∀ a : Bytes, dropEnd [46] (a ++ [46]) = a := fun a => dropEnd_append a [46]
  rw [shownName, isoName]
  by_cases hmem : 46 ∈ n
  · rw [if_pos (hdot.2 hmem), List.map_append, hlower, hversion, dropEnd_append]
    split_ifs with hlast
    · obtain ⟨a, rfl⟩ : ∃ a, n = a ++ [46] :=
        ⟨n.dropLast, (List.dropLast_append_getLast? 46 hlast).symm⟩
      rw [hend, List.dropLast_concat]
    · rw [dropEnd, if_neg]
      rintro ⟨a, rfl⟩
      exact hlast List.getLast?_concat
  · have hlast : n.getLast? ≠ some 46 := fun hlast => hmem (List.mem_of_getLast? hlast)
    rw [if_neg fun hc => hmem (hdot.1 hc), if_neg hlast, List.map_append, List.map_append, hlower,
      hversion, dropEnd_append]
    exact hend n

theorem slice_take {img : Bytes} {a n m : ℕ} (h : m ≤ n) :
    slice img a m = (slice img a n).take m := by
  rw [slice, slice, List.take_take, Nat.min_eq_left h]

/-- **A file reads back**, as far as its name and its length say. -/
theorem readFile_layOut (hfits : (records now files).flatten.length ≤ sector)
    (htotal : total files < 2 ^ 32) {p : File × ℕ} (hp : p ∈ placed fileAt files)
    (hname : ∀ b ∈ p.1.name, Documented b) :
    readFile (layOut now files) (recordOf p) = shownFile p.1 := by
  have hextent : p.2 % 2 ^ 32 = p.2 := by
    have hlast := (placed_within hp).2
    rw [total] at htotal
    exact Nat.mod_eq_of_lt (by omega)
  have hmem : (p.2 * sector, p.1.content) ∈ pieces now files := by
    rw [pieces]
    exact List.mem_append_right _ (List.mem_map.2 ⟨p, hp, rfl⟩)
  have hcontent := slice_layOut hfits hmem
  rw [readFile, shownFile]
  dsimp only [recordOf]
  rw [shownName_isoName hname, hextent, slice_take (Nat.mod_le _ _), hcontent]

/-! ## The files that read back -/

/-- A file that reads back. -/
def Keeps (f : File) : Prop := f.name.getLast? ≠ some 46 ∧ f.content.length < 2 ^ 32

theorem length_shownFile (f : File) :
    (shownFile f).name.length + (shownFile f).content.length ≤ f.name.length + f.content.length := by
  have hname : (shownFile f).name.length ≤ f.name.length := by
    dsimp only [shownFile]
    split_ifs
    · rw [List.length_dropLast]
      exact Nat.sub_le _ _
    · exact Nat.le_refl _
  have hcontent : (shownFile f).content.length ≤ f.content.length := List.length_take_le' _ _
  omega

theorem shownFile_of_keeps {f : File} (h : Keeps f) : shownFile f = f := by
  rw [shownFile, if_neg h.1, Nat.mod_eq_of_lt h.2, List.take_length]

/-- What does not read back gets shorter. -/
theorem length_shownFile_lt {f : File} (h : ¬Keeps f) :
    (shownFile f).name.length + (shownFile f).content.length < f.name.length + f.content.length := by
  have hcontent : (shownFile f).content.length = f.content.length % 2 ^ 32 := by
    dsimp only [shownFile]
    rw [List.length_take, Nat.min_eq_left (Nat.mod_le _ _)]
  have hmod : f.content.length % 2 ^ 32 ≤ f.content.length := Nat.mod_le _ _
  by_cases hlast : f.name.getLast? = some 46
  · have hname : (shownFile f).name.length = f.name.length - 1 := by
      dsimp only [shownFile]
      rw [if_pos hlast, List.length_dropLast]
    have hpos : 0 < f.name.length := List.length_pos_of_mem (List.mem_of_getLast? hlast)
    omega
  · have hname : (shownFile f).name = f.name := by
      dsimp only [shownFile]
      rw [if_neg hlast]
    rw [hname]
    have hlong : 2 ^ 32 ≤ f.content.length := Nat.le_of_not_lt fun hlt => h ⟨hlast, hlt⟩
    have hlt := Nat.mod_lt f.content.length (show 2 ^ 32 > 0 by decide)
    omega

/-- The files that are read are the files, where each of them reads back. -/
theorem map_shownFile_perm_iff {gs : List File} (h : gs.Perm files) :
    (gs.map shownFile).Perm files ↔ ∀ f ∈ files, Keeps f := by
  constructor
  · intro hperm f hf
    by_contra hkeeps
    have hlt : ((gs.map shownFile).map fun f => f.name.length + f.content.length).sum <
        (gs.map fun f => f.name.length + f.content.length).sum := by
      rw [List.map_map]
      exact List.sum_lt_sum _ _ (fun f _ => length_shownFile f)
        ⟨f, h.mem_iff.2 hf, length_shownFile_lt hkeeps⟩
    exact absurd ((hperm.trans h.symm).map _).sum_eq (Nat.ne_of_lt hlt)
  · intro hkeeps
    have hsame : gs.map shownFile = gs.map id :=
      List.map_congr_left fun f hf => shownFile_of_keeps (hkeeps f (h.mem_iff.1 hf))
    rwa [hsame, List.map_id]

theorem length_records : (records now files).flatten.length = directoryLength files := by
  have hrest : ∀ next, (((placed next files).map fun p =>
      dirRecord now (isoName p.1.name) p.2 p.1.content.length false).flatten).length =
      (files.map fun f => recordLength (isoName f.name)).sum := by
    induction files with
    | nil => exact fun _ => rfl
    | cons f files ih =>
      intro next
      rw [placed, List.map_cons, List.flatten_cons, List.length_append, ih, length_dirRecord,
        List.map_cons, List.sum_cons]
  rw [records, List.flatten_append, List.length_append, hrest, List.flatten_cons, List.flatten_cons,
    List.length_append, List.length_append, length_dirRecord, length_dirRecord]
  rfl

theorem sorted_perm (files : List File) : (sorted files).Perm files := List.mergeSort_perm _ _

theorem fileRecords_cons {r s : Record} (hr : r.dir = true) (hs : s.dir = true)
    (l : List (File × ℕ)) : fileRecords (r :: s :: l.map recordOf) = l.map recordOf := by
  rw [fileRecords, List.filter_cons_of_neg (by rw [hr]; decide),
    List.filter_cons_of_neg (by rw [hs]; decide)]
  refine List.filter_eq_self.2 fun x hx => ?_
  obtain ⟨p, -, rfl⟩ := List.mem_map.1 hx
  rfl

/-- **The files of an image**: all of them, as far as their names and lengths say. -/
theorem readFiles_layOut (hnames : ∀ f ∈ files, ∀ b ∈ f.name, Documented b)
    (hfits : (records now files).flatten.length ≤ sector) (htotal : total files < 2 ^ 32) :
    ((placed fileAt files).map recordOf).map (readFile (layOut now files)) =
      files.map shownFile := by
  have hread : ∀ p ∈ placed fileAt files,
      readFile (layOut now files) (recordOf p) = shownFile p.1 := by
    intro p hp
    have hmem : p.1 ∈ (placed fileAt files).map Prod.fst := List.mem_map_of_mem hp
    rw [placed_fst] at hmem
    exact readFile_layOut hfits htotal hp (hnames p.1 hmem)
  rw [List.map_map, List.map_congr_left (g := fun p => shownFile p.1) hread]
  conv_rhs => rw [← @placed_fst files fileAt, List.map_map]
  rfl

/-- **The extents of an image** are in it and apart. -/
theorem apart_layOut (now : Time) (htotal : total files < 2 ^ 32) :
    (∀ r ∈ (placed fileAt files).map recordOf, rootAt < r.extent ∧
      (r.extent + r.sectors) * sector ≤ (layOut now files).length) ∧
    ((placed fileAt files).map recordOf).Pairwise fun r s =>
      r.extent + r.sectors ≤ s.extent ∨ s.extent + s.sectors ≤ r.extent := by
  have hextent : ∀ p ∈ placed fileAt files, (recordOf p).extent = p.2 := fun p hp => by
    have hlast := (placed_within hp).2
    rw [total] at htotal
    exact Nat.mod_eq_of_lt (by omega)
  constructor
  · intro r hr
    obtain ⟨p, hp, rfl⟩ := List.mem_map.1 hr
    obtain ⟨hfirst, hlast⟩ := placed_within hp
    have hsectors := sectors_recordOf p
    rw [hextent p hp, layOut, length_writes, List.length_replicate]
    exact ⟨hfirst, Nat.mul_le_mul_right _ (by rw [total]; omega)⟩
  · rw [List.pairwise_map]
    refine (placed_pairwise fileAt files).imp_of_mem fun {p q} hp hq hpq => Or.inl ?_
    have hsectors := sectors_recordOf p
    rw [hextent p hp, hextent q hq]
    omega

/-- The files of an image read back where each of them does. -/
theorem readsBack_layOut_iff {gs : List File} (hperm : gs.Perm files)
    (hdoc : ∀ f ∈ gs, f.name.length ≤ 30 ∧ ∀ b ∈ f.name, Documented b)
    (hfits : directoryLength gs ≤ sector) (htotal : total gs < 2 ^ 32) :
    ReadsBack files (layOut now gs) ↔ ∀ f ∈ files, Keeps f := by
  rw [← @length_records now gs] at hfits
  have hvolume := readVolume_layOut (fun f hf => (hdoc f hf).1) hfits
  have hfiles := readFiles_layOut (fun f hf => (hdoc f hf).2) hfits htotal
  obtain ⟨hin, hapart⟩ := apart_layOut now htotal
  rw [← map_shownFile_perm_iff hperm, ← hfiles]
  constructor
  · rintro ⟨rs, hrs, hread, -⟩
    rw [hvolume] at hrs
    rw [← Option.some.inj hrs, fileRecords_cons rfl rfl] at hread
    exact hread
  · intro hread
    refine ⟨_, hvolume, ?_⟩
    rw [fileRecords_cons rfl rfl]
    exact ⟨hread, hin, hapart⟩

/-- **The answers disk reads back**, whatever the files, where no name ends in a dot and no file has
2 ^ 32 bytes. -/
theorem readsBack_iff (now : Time) (files : List File)
    (hdoc : ∀ f ∈ files, f.name.length ≤ 30 ∧ ∀ b ∈ f.name, Documented b)
    (hfits : directoryLength files ≤ sector) (htotal : total files < 2 ^ 32) :
    ReadsBack files (buildISO now files) ↔
      ∀ f ∈ files, f.name.getLast? ≠ some 46 ∧ f.content.length < 2 ^ 32 := by
  have hperm := sorted_perm files
  refine readsBack_layOut_iff hperm (fun f hf => hdoc f (hperm.mem_iff.1 hf)) ?_ ?_
  · rwa [directoryLength, (hperm.map _).sum_eq]
  · rwa [total, (hperm.map _).sum_eq]

end

/-- The answers of an installation, and an empty file. -/
def someFiles : List File := [⟨text "answers.txt", text "hostname=vm\n"⟩, ⟨text "marker", []⟩]

/-- Noon of some day. -/
def noon : Time := ⟨2026, 10, 8, 12, 0, 0⟩

theorem readsBack_someFiles :
    ReadsBack someFiles (buildISO noon someFiles) ↔
      ∀ f ∈ someFiles, f.name.getLast? ≠ some 46 ∧ f.content.length < 2 ^ 32 :=
  readsBack_iff noon someFiles (by decide +kernel) (by decide +kernel) (by decide +kernel)

/-- **A dot at the end of a name is lost**: `notes.` is read as `notes`. -/
theorem readsBack_fails : ¬ReadsBack [⟨text "notes.", []⟩] (buildISO noon [⟨text "notes.", []⟩]) := by
  have hperm := sorted_perm [⟨text "notes.", []⟩]
  rw [List.perm_singleton] at hperm
  rw [buildISO, hperm, readsBack_layOut_iff (.refl _) (by decide +kernel) (by decide +kernel)
    (by decide +kernel)]
  exact fun h => (h _ (List.mem_singleton_self _)).1 (by decide)

end Aurade.Vm.Answers
