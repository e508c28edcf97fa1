import Aurade.Foundations.Bytes
import Aurade.Foundations.Cursor

/-!
# A set of volumes read as one file

`Volumes` keeps the names of the parts with the length each had when the set was opened, a position
in all of them together, and the part it last read from, left open. The parts' contents are a
function `disk` of their names, which nothing changes; how much of what a read asks for the kernel
hands out at a time is up to the kernel (`CursorCall.read`).

The counters are 64-bit: a sum or a difference that is no 64-bit number stops the program, and so
does an index past the end of the list of parts. In the model that is `none`.

`volumes_follow` compares the set with a cursor over the concatenation. The two part company in one
place: a cursor refuses to go past the last 64-bit position, and the set is held there.
-/

namespace Aurade.Ops

/-- A sum in 64 bits. -/
def add64 (a b : ℕ) : Option ℕ := if a + b < 2 ^ 64 then some (a + b) else none

/-- A difference of unsigned numbers. -/
def sub64 (a b : ℕ) : Option ℕ := if b ≤ a then some (a - b) else none

theorem add64_eq {a b : ℕ} (h : a + b < 2 ^ 64) : add64 a b = some (a + b) := if_pos h

theorem sub64_eq {a b : ℕ} (h : b ≤ a) : sub64 a b = some (a - b) := if_pos h

/-- A part that is open: what it holds and the place its next read starts at. -/
structure OpenPart where
  content : Bytes
  offset : ℕ
  deriving DecidableEq

namespace OpenPart

def seek (f : OpenPart) (offset : ℕ) : OpenPart := { f with offset }

/-- A read into `room` bytes: one byte and at most `more`, where there are any. -/
def read (f : OpenPart) (room more : ℕ) : Bytes × OpenPart :=
  let d := (f.content.drop f.offset).take (min room (more + 1))
  (d, { f with offset := f.offset + d.length })

@[simp] theorem read_content (f : OpenPart) (room more : ℕ) : (f.read room more).2.content = f.content :=
  rfl

/-- A read gives bytes from the offset on, and none only where there are none or there is no room. -/
theorem read_seek (f : OpenPart) (offset room more : ℕ) :
    ((f.seek offset).read room more).1 <+: f.content.drop offset ∧
      ((f.seek offset).read room more).1.length ≤ room ∧
      (((f.seek offset).read room more).1.length = 0 ↔ f.content.length ≤ offset ∨ room = 0) := by
  refine ⟨List.take_prefix _ _, ?_, ?_⟩
  · rw [read, List.length_take]
    omega
  · rw [read, List.length_take, List.length_drop]
    show min (min room (more + 1)) (f.content.length - offset) = 0 ↔ _
    omega

end OpenPart

structure Volumes where
  /-- The parts by name, with the lengths they had. -/
  parts : List (Bytes × ℕ)
  total : ℕ
  pos : ℕ
  opened : Option (ℕ × OpenPart)

/-- What a call on a set of volumes comes to: what it would on a cursor, or the complaint that a
part is shorter than it was. -/
inductive VolumeAnswer
  | same (answer : CursorAnswer UInt8)
  | shorter (part : Bytes)
  deriving DecidableEq

namespace Volumes

/-- The loop of `open` over the names. -/
def measure (disk : Bytes → Bytes) :
    List Bytes → List (Bytes × ℕ) → ℕ → Option (List (Bytes × ℕ) × ℕ)
  | [], parts, total => some (parts, total)
  | name :: names, parts, total => do
    let len := (disk name).length
    let total ← add64 total len
    measure disk names (parts ++ [(name, len)]) total

/-- `Volumes::open`, on the names of the parts. -/
def openParts (disk : Bytes → Bytes) (names : List Bytes) : Option Volumes := do
  let (parts, total) ← measure disk names [] 0
  pure { parts, total, pos := 0, opened := none }

/-- The loop of `locate`: the part and the offset in it, or nothing at or past the end. -/
def locateFrom (pos : ℕ) : List (Bytes × ℕ) → ℕ → ℕ → Option (Option (ℕ × ℕ))
  | [], _, _ => some none
  | (_, len) :: parts, index, start => do
    let stop ← add64 start len
    if pos < stop then
      let offset ← sub64 pos start
      pure (some (index, offset))
    else locateFrom pos parts (index + 1) stop

def locate (v : Volumes) (pos : ℕ) : Option (Option (ℕ × ℕ)) := locateFrom pos v.parts 0 0

/-- The part that is to be read, opened where it is not. -/
def reopen (disk : Bytes → Bytes) (v : Volumes) (index : ℕ) (name : Bytes) : ℕ × OpenPart :=
  match v.opened with
  | some (was, file) => if was = index then (was, file) else (index, ⟨disk name, 0⟩)
  | none => (index, ⟨disk name, 0⟩)

def read (disk : Bytes → Bytes) (v : Volumes) (room more : ℕ) : Option (VolumeAnswer × Volumes) :=
  if room = 0 then some (.same (.got []), v) else do
    match ← v.locate v.pos with
    | none => pure (.same (.got []), v)
    | some (index, offset) =>
      let (name, len) ← v.parts[index]?
      let (index, file) := v.reopen disk index name
      let left ← sub64 len offset
      let (d, file) := (file.seek offset).read (min left room) more
      let v := { v with opened := some (index, file) }
      if d.length = 0 then pure (.shorter name, v)
      else
        let pos ← add64 v.pos d.length
        pure (.same (.got d), { v with pos })

def seek (v : Volumes) (s : Seek) : VolumeAnswer × Volumes :=
  let target := s.target v.total v.pos
  if target < 0 then (.same .refused, v)
  else
    let pos := (min target (2 ^ 64 - 1)).toNat
    (.same (.position pos), { v with pos })

def call (disk : Bytes → Bytes) (v : Volumes) : CursorCall → Option (VolumeAnswer × Volumes)
  | .read room more => v.read disk room more
  | .seek s => some (v.seek s)

/-- The answers of a sequence of calls. -/
def run (disk : Bytes → Bytes) : Volumes → List CursorCall → Option (List VolumeAnswer × Volumes)
  | v, [] => some ([], v)
  | v, c :: calls => do
    let (answer, v) ← v.call disk c
    let (answers, v) ← run disk v calls
    pure (answer :: answers, v)

/-! ## The set that was opened -/

variable {disk : Bytes → Bytes} {names : List Bytes}

/-- What `open` notes of the parts. -/
def partsOf (disk : Bytes → Bytes) (names : List Bytes) : List (Bytes × ℕ) :=
  names.map fun name => (name, (disk name).length)

theorem measure_eq (parts : List (Bytes × ℕ)) (total : ℕ)
    (h : total + (names.flatMap disk).length < 2 ^ 64) :
    measure disk names parts total =
      some (parts ++ partsOf disk names, total + (names.flatMap disk).length) := by
  induction names generalizing parts total with
  | nil => simp [measure, partsOf]
  | cons name names ih =>
    rw [List.flatMap_cons, List.length_append] at h
    rw [measure, add64_eq (by omega), Option.bind_eq_bind, Option.bind_some, ih _ _ (by omega),
      List.flatMap_cons, List.length_append, Nat.add_assoc]
    simp [partsOf]

theorem measure_none (parts : List (Bytes × ℕ)) (total : ℕ)
    (ht : total < 2 ^ 64) (h : 2 ^ 64 ≤ total + (names.flatMap disk).length) :
    measure disk names parts total = none := by
  induction names generalizing parts total with
  | nil => rw [List.flatMap_nil, List.length_nil] at h; omega
  | cons name names ih =>
    rw [List.flatMap_cons, List.length_append] at h
    rw [measure, add64]
    split
    · exact ih _ _ ‹_› (by omega)
    · rfl

/-- The set stands for the concatenation of its parts; the part that is open is the one it is noted
to be. -/
structure Stands (disk : Bytes → Bytes) (names : List Bytes) (v : Volumes) : Prop where
  parts : v.parts = partsOf disk names
  total : v.total = (names.flatMap disk).length
  pos : v.pos < 2 ^ 64
  opened : ∀ index file, v.opened = some (index, file) → ∀ name, names[index]? = some name →
    file.content = disk name

theorem openParts_eq (h : (names.flatMap disk).length < 2 ^ 64) :
    ∃ v, openParts disk names = some v ∧ v.pos = 0 ∧ Stands disk names v := by
  rw [openParts, measure_eq [] 0 (by omega)]
  exact ⟨_, rfl, rfl, rfl, Nat.zero_add _, by norm_num, fun _ _ h => nomatch h⟩

/-! ## One call -/

/-- Where a position lies: past all parts, or at an offset of one of them. -/
theorem locateFrom_eq {pos index start : ℕ} (hs : start ≤ pos)
    (h : start + (names.flatMap disk).length < 2 ^ 64) :
    (start + (names.flatMap disk).length ≤ pos ∧
      locateFrom pos (partsOf disk names) index start = some none) ∨
    ∃ before name after offset, names = before ++ name :: after ∧
      pos = start + (before.flatMap disk).length + offset ∧ offset < (disk name).length ∧
      locateFrom pos (partsOf disk names) index start = some (some (index + before.length, offset)) := by
  induction names generalizing index start with
  | nil => exact Or.inl ⟨by simpa using hs, rfl⟩
  | cons name names ih =>
    rw [List.flatMap_cons, List.length_append] at h ⊢
    rw [partsOf, List.map_cons, locateFrom, add64_eq (by omega), Option.bind_eq_bind, Option.bind_some]
    by_cases hlt : pos < start + (disk name).length
    · refine Or.inr ⟨[], name, names, pos - start, rfl, ?_, by omega, ?_⟩
      · rw [List.flatMap_nil, List.length_nil]
        omega
      · rw [if_pos hlt, sub64_eq hs]
        rfl
    · rw [if_neg hlt]
      rcases @ih (index + 1) (start + (disk name).length) (by omega) (by omega) with
        ⟨hend, hloc⟩ | ⟨before, part, after, offset, rfl, hpos, hoff, hloc⟩
      · exact Or.inl ⟨by omega, hloc⟩
      · refine Or.inr ⟨name :: before, part, after, offset, rfl, ?_, hoff, ?_⟩
        · rw [List.flatMap_cons, List.length_append]
          omega
        · rw [List.length_cons, show index + (before.length + 1) = index + 1 + before.length by omega]
          exact hloc

/-- A position in a part, seen from the concatenation. -/
theorem drop_at {before after : List Bytes} {name : Bytes} {offset : ℕ}
    (h : offset ≤ (disk name).length) :
    ((before ++ name :: after).flatMap disk).drop ((before.flatMap disk).length + offset) =
      (disk name).drop offset ++ after.flatMap disk := by
  rw [List.flatMap_append, List.flatMap_cons, ← List.drop_drop, List.drop_left,
    List.drop_append_of_le_length h]

/-- The part that is read from holds what is on the disk, whether it was open or not. -/
theorem reopen_content {v : Volumes} (hv : Stands disk names v) {index : ℕ} {name : Bytes}
    (hname : names[index]? = some name) :
    (v.reopen disk index name).1 = index ∧ (v.reopen disk index name).2.content = disk name := by
  rw [reopen]
  split
  · next was file ho =>
    split
    · next heq =>
      subst heq
      exact ⟨rfl, hv.opened was file ho name hname⟩
    · exact ⟨rfl, rfl⟩
  · exact ⟨rfl, rfl⟩

/-- What a read inside the set does, with what the part hands out. -/
theorem read_inside {v : Volumes} {room more index offset len : ℕ} {name d : Bytes}
    {was : ℕ} {file file' : OpenPart} (hroom : room ≠ 0)
    (hloc : v.locate v.pos = some (some (index, offset))) (hpart : v.parts[index]? = some (name, len))
    (hopen : v.reopen disk index name = (was, file)) (hoff : offset ≤ len)
    (hread : (file.seek offset).read (min (len - offset) room) more = (d, file'))
    (hd : d.length ≠ 0) (hpos : v.pos + d.length < 2 ^ 64) :
    v.read disk room more =
      some (.same (.got d), { v with opened := some (was, file'), pos := v.pos + d.length }) := by
  rw [read, if_neg hroom, hloc]
  simp only [Option.bind_eq_bind, Option.bind_some, hpart, hopen, sub64_eq hoff, hread, if_neg hd,
    add64_eq hpos]
  rfl

theorem read_serves {v : Volumes} (hlen : (names.flatMap disk).length < 2 ^ 64)
    (hv : Stands disk names v) (room more : ℕ) :
    ∃ answer w, v.read disk room more = some (.same answer, w) ∧ Stands disk names w ∧
      Serves Cursor.seekHeld (names.flatMap disk) v.pos (.read room more) answer w.pos := by
  by_cases hroom : room = 0
  · rw [read, if_pos hroom]
    exact ⟨_, _, rfl, hv, [], rfl, List.nil_prefix, by simp, by simp [hroom], rfl⟩
  rcases @locateFrom_eq _ _ _ 0 0 (Nat.zero_le v.pos) ((Nat.zero_add _).trans_lt hlen) with
    ⟨hend, hloc⟩ | ⟨before, name, after, offset, hnames, hpos, hoff, hloc⟩
  · have hpast : ¬ (v.pos < (names.flatMap disk).length ∧ 0 < room) := by omega
    rw [read, if_neg hroom, locate, hv.parts, hloc]
    exact ⟨_, _, rfl, hv, [], rfl, List.nil_prefix, Nat.zero_le _,
      iff_of_false (fun h => h rfl) hpast, rfl⟩
  rw [Nat.zero_add] at hpos hloc
  have hname : names[before.length]? = some name := by simp [hnames]
  have hpart : v.parts[before.length]? = some (name, (disk name).length) := by
    rw [hv.parts, partsOf, List.getElem?_map, hname]
    rfl
  have hdrop : (names.flatMap disk).drop v.pos = (disk name).drop offset ++ after.flatMap disk := by
    rw [hnames, hpos, drop_at (by omega)]
  have hinside : v.pos + ((disk name).length - offset) ≤ (names.flatMap disk).length := by
    rw [hnames, List.flatMap_append, List.flatMap_cons, List.length_append, List.length_append]
    omega
  cases hopen : v.reopen disk before.length name with
  | mk was file =>
    cases hread : (file.seek offset).read (min ((disk name).length - offset) room) more with
    | mk d file' =>
      obtain ⟨hindex, hcontent⟩ := reopen_content hv hname
      obtain ⟨hpre, hleft, hnone⟩ := file.read_seek offset (min ((disk name).length - offset) room) more
      rw [hopen] at hindex hcontent
      rw [hread] at hpre hleft hnone
      have hkept : file'.content = file.content := congrArg (·.2.content) hread.symm
      have hsome : d.length ≠ 0 := by
        rw [Ne, hnone, hcontent]
        omega
      have hshort : d.length ≤ (disk name).length - offset := hleft.trans (Nat.min_le_left _ _)
      refine ⟨_, _, read_inside hroom (by rw [locate, hv.parts]; exact hloc) hpart hopen (Nat.le_of_lt hoff)
        hread hsome (by omega), ⟨hv.parts, hv.total, by dsimp only; omega, ?_⟩, d, rfl, ?_,
        hleft.trans (Nat.min_le_right _ _), ?_, rfl⟩
      · intro i f hf n hn
        obtain ⟨rfl, rfl⟩ := Prod.mk.inj (Option.some.inj hf)
        obtain rfl : before.length = was := hindex.symm
        obtain rfl : name = n := Option.some.inj (hname.symm.trans hn)
        exact hkept.trans hcontent
      · rw [hdrop]
        exact (hcontent ▸ hpre).trans (List.prefix_append _ _)
      · exact ⟨fun _ => by omega, fun _ hnil => hsome (by rw [hnil]; rfl)⟩

theorem seek_serves {v : Volumes} (hv : Stands disk names v) (s : Seek) :
    ∃ answer, (v.seek s).1 = .same answer ∧ Stands disk names (v.seek s).2 ∧
      Serves Cursor.seekHeld (names.flatMap disk) v.pos (.seek s) answer (v.seek s).2.pos := by
  rw [seek, hv.total]
  by_cases hneg : s.target (names.flatMap disk).length v.pos < 0
  · rw [if_pos hneg]
    exact ⟨_, rfl, hv, (serves_refused (by rw [Cursor.seekHeld, if_pos hneg])).2 ⟨rfl, rfl⟩⟩
  · rw [if_neg hneg]
    exact ⟨_, rfl, ⟨hv.parts, rfl, by dsimp only; omega, hv.opened⟩,
      (serves_moved (by rw [Cursor.seekHeld, if_neg hneg])).2 ⟨rfl, rfl⟩⟩

/-- A call is answered as by a cursor over the concatenation. -/
theorem call_serves {v : Volumes} (hlen : (names.flatMap disk).length < 2 ^ 64)
    (hv : Stands disk names v) (c : CursorCall) :
    ∃ answer w, v.call disk c = some (.same answer, w) ∧ Stands disk names w ∧
      Serves Cursor.seekHeld (names.flatMap disk) v.pos c answer w.pos := by
  cases c with
  | read room more => exact read_serves hlen hv room more
  | seek s =>
    obtain ⟨answer, ha, hw, hs⟩ := seek_serves hv s
    exact ⟨answer, _, by rw [call, ← ha], hw, hs⟩

/-! ## Runs -/

theorem run_follows {v : Volumes} (hlen : (names.flatMap disk).length < 2 ^ 64)
    (hv : Stands disk names v) (calls : List CursorCall) :
    ∃ answers w, v.run disk calls = some (answers.map .same, w) ∧ Stands disk names w ∧
      Follows Cursor.seekHeld (names.flatMap disk) v.pos calls answers w.pos := by
  induction calls generalizing v with
  | nil => exact ⟨[], v, rfl, hv, Follows.nil _⟩
  | cons c calls ih =>
    obtain ⟨answer, mid, hcall, hmid, hserves⟩ := call_serves hlen hv c
    obtain ⟨answers, w, hrun, hw, hfollows⟩ := ih hmid
    refine ⟨answer :: answers, w, ?_, hw, Follows.cons hserves hfollows⟩
    rw [run, hcall, Option.bind_eq_bind, Option.bind_some]
    dsimp only
    rw [hrun]
    rfl

/-- **A set of volumes is one flat file**: where the parts together have a 64-bit length, the set
opens, every sequence of calls is answered as a cursor over the concatenation answers it, no counter
overflows on the way, and reads to the end give all that is left, from the start the whole. -/
theorem volumes_follow (disk : Bytes → Bytes) (names : List Bytes)
    (hlen : (names.flatMap disk).length < 2 ^ 64) :
    ∃ v, openParts disk names = some v ∧ v.pos = 0 ∧ ∀ calls, ∃ answers w,
      v.run disk calls = some (answers.map .same, w) ∧
      Follows Cursor.seekHeld (names.flatMap disk) 0 calls answers w.pos ∧
      ∀ reads : List (ℕ × ℕ), (∀ r ∈ reads, 0 < r.1) →
        (names.flatMap disk).length - w.pos ≤ reads.length →
        ∃ (got : List (CursorAnswer UInt8)) (w' : Volumes), w.run disk (reads.map fun r => .read r.1 r.2) = some (got.map .same, w') ∧
          got.flatMap CursorAnswer.elements = (names.flatMap disk).drop w.pos := by
  obtain ⟨v, hopen, hpos, hv⟩ := openParts_eq hlen
  refine ⟨v, hopen, hpos, fun calls => ?_⟩
  obtain ⟨answers, w, hrun, hw, hfollows⟩ := run_follows hlen hv calls
  refine ⟨answers, w, hrun, hpos ▸ hfollows, fun reads hroom hmany => ?_⟩
  obtain ⟨got, w', hrun', -, hfollows'⟩ := run_follows hlen hw (reads.map fun r => .read r.1 r.2)
  exact ⟨got, w', hrun', (hfollows'.reads hroom hmany).1⟩

/-- Three parts, the second one empty. -/
theorem volumes_follow_three : ∃ v, openParts (fun name => if name = [50] then [] else name ++ [7, 7])
    [[49], [50], [51]] = some v ∧ v.pos = 0 ∧ ∀ calls, ∃ answers w,
      v.run (fun name => if name = [50] then [] else name ++ [7, 7]) calls =
        some (answers.map .same, w) ∧
      Follows Cursor.seekHeld [49, 7, 7, 51, 7, 7] 0 calls answers w.pos := by
  obtain ⟨v, hopen, hpos, hrun⟩ := volumes_follow
    (fun name => if name = [50] then [] else name ++ [7, 7]) [[49], [50], [51]] (by decide)
  refine ⟨v, hopen, hpos, fun calls => ?_⟩
  obtain ⟨answers, w, h, hfollows, -⟩ := hrun calls
  exact ⟨answers, w, h, hfollows⟩

/-- A cursor refuses to go one past the last position, and a set of volumes does not; and three parts
of 2^63 - 1 bytes do not open. -/
theorem volumes_past_last :
    (∃ v, openParts (fun _ => []) [] = some v ∧ ¬ ∃ answers w,
      v.run (fun _ => []) [.seek (.start 0xFFFFFFFFFFFFFFFF), .seek (.current 1)] =
        some (answers.map .same, w) ∧
      Follows Cursor.seek [] 0 [.seek (.start 0xFFFFFFFFFFFFFFFF), .seek (.current 1)] answers w.pos) ∧
    openParts (fun _ => List.replicate (2 ^ 63 - 1) 0) [[49], [50], [51]] = none := by
  refine ⟨⟨_, rfl, ?_⟩, ?_⟩
  · intro h
    obtain ⟨answers, w, hrun, hfollows⟩ := h
    have hanswers : answers.map VolumeAnswer.same =
        [.same (.position 0xFFFFFFFFFFFFFFFF), .same (.position 0xFFFFFFFFFFFFFFFF)] :=
      (congrArg Prod.fst (Option.some.inj hrun)).symm
    cases hfollows with
    | cons hfirst hrest =>
      obtain ⟨rfl, rfl⟩ := (serves_moved (p := 0xFFFFFFFFFFFFFFFF) (by decide)).1 hfirst
      cases hrest with
      | cons hsecond _ =>
        obtain ⟨rfl, -⟩ := (serves_refused (by decide)).1 hsecond
        simp at hanswers
  · rw [openParts, measure_none [] 0 (by norm_num)]
    · rfl
    · simp only [List.flatMap_cons, List.flatMap_nil, List.length_append, List.length_replicate]
      norm_num

end Volumes

end Aurade.Ops
