import Aurade.Foundations.Chars
import Aurade.Foundations.Dict
import Mathlib

/-!
# The storage page of the host bridge

`DiskUsageBackend.state` on a Btrfs volume: what `btrfs` prints of the usage, of the quota groups and
of the subvolumes is parsed, joined by the subvolumes' ids and paths, and told in rows. A row says
whether it was measured.

A count that is missing is counted as zero. So the rows are what they say, and add up, exactly where
no count is missing that a row is marked to have (`state_iff`).
-/

namespace Aurade.Bridge.DiskUsage

open Aurade.Str

/-! ## What the programs print -/

section Parse

variable (u : Digits)

/-- The lines of the usage that are read, and what for. -/
def usageKey (label : Str) : Option String :=
  [("Device size", "total"), ("Used", "used"), ("Free (estimated)", "free"),
    ("Device allocated", "allocated")].lookup (String.ofList label)

/-- A line of the usage. The first with a key is the one that counts. -/
def usageLine (found : Dict String ℕ) (line : Str) : Option (Dict String ℕ) :=
  match splitOnce ':' line with
  | none => some found
  | some (label, value) =>
    match usageKey (strip label) with
    | none => some found
    | some key =>
      if (found.get key).isSome then some found
      else
        let digits := (words (strip value)).headD []
        if isdigit u digits then (int u digits).map (found.set key) else some found

/-- `parse_btrfs_usage`. It raises where `int` does. -/
def parseBtrfsUsage (text : Str) : Option (Dict String ℕ) :=
  (splitlines text).foldlM (usageLine u) .empty

structure Qgroup where
  referenced : ℕ
  exclusive : ℕ

/-- A line of the quota groups; those of level zero are subvolumes. -/
def qgroupLine (line : Str) : Option (Option (Str × Qgroup)) :=
  match words line with
  | name :: referenced :: exclusive :: _ =>
    match splitOnce '/' name with
    | none => some none
    | some (level, subvolume) =>
      if level ≠ ['0'] ∨ !isdigit u subvolume then some none
      else if !isdigit u referenced ∨ !isdigit u exclusive then some none
      else
        (int u referenced).bind fun r => (int u exclusive).map fun e => some (subvolume, ⟨r, e⟩)
  | _ => some none

/-- The quota groups of the subvolumes, as they are printed. -/
def qgroupLines (text : Str) : Option (List (Str × Qgroup)) :=
  ((splitlines text).mapM (qgroupLine u)).map List.reduceOption

/-- `parse_btrfs_qgroups`. -/
def parseBtrfsQgroups (text : Str) : Option (Dict Str Qgroup) :=
  (qgroupLines u text).map Dict.empty.update

end Parse

structure Subvolume where
  id : Str
  path : Str

def fsTree : Str := "<FS_TREE>/".toList

/-- A line of the subvolumes. -/
def subvolumeLine (line : Str) : Option Subvolume :=
  match words line with
  | word :: id :: fields =>
    if fields.length + 2 < 9 ∨ word ≠ "ID".toList then none
    else
      match (word :: id :: fields).dropWhile (· ≠ "path".toList) with
      | [] => none
      | _ :: rest =>
        let path := [' '].intercalate rest
        some ⟨id, if fsTree <+: path then path.drop fsTree.length else path⟩
  | _ => none

/-- `parse_btrfs_subvolumes`. -/
def parseBtrfsSubvolumes (text : Str) : List Subvolume := (splitlines text).filterMap subvolumeLine

/-- `is_snapshot_path`. -/
def isSnapshotPath (path snapshotDir : Str) : Bool :=
  let root := (snapshotDir.dropWhile (· = '/')).rdropWhile (· = '/')
  root ≠ [] && (path = root || (root ++ ['/']).isPrefixOf path)

/-! ## The rows -/

structure Row where
  key : String
  bytes : ℤ
  measured : Bool
  count : Option ℕ

structure Breakdown where
  total : ℕ
  used : ℕ
  free : ℕ
  rows : List Row
  detailed : Bool
  /-- Whether there are quota groups, once `state` says it. -/
  quotas : Option Bool

section Rows

variable (usage : Dict String ℕ) (qgroups : Dict Str Qgroup) (subvolumes : List Subvolume)

/-- `by_path`. -/
def byPath : Dict Str Str := Dict.empty.update (subvolumes.map fun s => (s.path, s.id))

/-- The exclusive bytes of a subvolume, by its id. -/
def exclusiveOf (id : Str) : ℕ := ((qgroups.get id).map Qgroup.exclusive).getD 0

/-- `exclusive`. -/
def exclusive (path : Str) : ℕ :=
  match (byPath subvolumes).get path with
  | none => 0
  | some id => exclusiveOf qgroups id

/-- `storage_breakdown`. -/
def storageBreakdown (packageBytes : ℤ) (homePath systemPath snapshotDir : Str) : Breakdown :=
  let used := (usage.get "used").getD 0
  let snapshots := subvolumes.filter fun s => isSnapshotPath s.path snapshotDir
  let snapshotBytes := (snapshots.map fun s => exclusiveOf qgroups s.id).sum
  let homeBytes := exclusive qgroups subvolumes homePath
  let systemTotal := exclusive qgroups subvolumes systemPath
  let packages : ℤ :=
    if systemTotal ≠ 0 then min (max packageBytes 0) systemTotal else max packageBytes 0
  let counted := systemTotal + homeBytes + snapshotBytes
  { total := (usage.get "total").getD 0
    used := used
    free := (usage.get "free").getD 0
    rows :=
      [⟨"packages", packages, true, none⟩,
        ⟨"system", max (systemTotal - packages) 0, 0 < systemTotal, none⟩,
        ⟨"home", homeBytes, ((byPath subvolumes).get homePath).isSome, none⟩,
        ⟨"snapshots", snapshotBytes, true, some snapshots.length⟩,
        ⟨"shared", max (used - counted : ℤ) 0, false, none⟩]
    detailed := true
    quotas := none }

end Rows

/-- What `btrfs` and `pacman` say of a volume. -/
structure Reading where
  usage : Str
  /-- Without quota groups `btrfs` fails. -/
  qgroups : Option Str
  subvolumes : Str
  packageBytes : ℤ
  snapshotDir : Str

def homePath : Str := "@home".toList
def systemPath : Str := "@".toList

/-- `DiskUsageBackend.state`, of a Btrfs volume. It raises where a number cannot be read. -/
def state (u : Digits) (r : Reading) : Option Breakdown :=
  (parseBtrfsUsage u r.usage).bind fun usage =>
    (r.qgroups.elim (some .empty) (parseBtrfsQgroups u)).map fun qgroups =>
      let breakdown := storageBreakdown usage qgroups (parseBtrfsSubvolumes r.subvolumes)
        r.packageBytes homePath systemPath r.snapshotDir
      if qgroups.entries ≠ [] then { breakdown with quotas := some true }
      else
        { breakdown with
          quotas := some false
          detailed := false
          rows := breakdown.rows.map fun row => { row with measured := false } }

/-! ## What was counted -/

section Counted

variable (u : Digits) (r : Reading)

/-- What the quota groups say of the subvolumes, line by line. -/
def Reading.lines : List (Str × Qgroup) := (r.qgroups.bind (qgroupLines u)).getD []

/-- The exclusive bytes in the last line of a subvolume, if there is one. -/
def Reading.lineOf (id : Str) : Option ℕ := (Dict.lastOf (r.lines u) id).map Qgroup.exclusive

/-- The subvolume that was listed last under a path. -/
def Reading.subvolumeOf (path : Str) : Option Str :=
  Dict.lastOf ((parseBtrfsSubvolumes r.subvolumes).map fun s => (s.path, s.id)) path

/-- The exclusive bytes of the subvolume at a path, where they are printed. -/
def Reading.counted (path : Str) : Option ℕ := (r.subvolumeOf path).bind (r.lineOf u)

/-- The rollback snapshots. -/
def Reading.snapshots : List Subvolume :=
  (parseBtrfsSubvolumes r.subvolumes).filter fun s => isSnapshotPath s.path r.snapshotDir

/-- The exclusive bytes of the subvolumes that are counted, as far as they are printed. -/
def Reading.exclusiveTotal : ℕ :=
  (r.counted u systemPath).getD 0 + (r.counted u homePath).getD 0 +
    (r.snapshots.map fun s => (r.lineOf u s.id).getD 0).sum

/-- What the packages take of a subvolume. -/
def Reading.packagesIn (n : ℕ) : ℤ := min (max r.packageBytes 0) n

/-- Every count in a row that is marked as measured was read from the lines of the subvolumes that
the row is about; of the packages from `pacman`, up to what the system's subvolume has. -/
structure Honest (b : Breakdown) : Prop where
  packages : ∀ row ∈ b.rows, row.key = "packages" → row.measured →
    ∃ n, r.counted u systemPath = some n ∧ row.bytes = r.packagesIn n
  system : ∀ row ∈ b.rows, row.key = "system" → row.measured →
    ∃ n, r.counted u systemPath = some n ∧ row.bytes = n - r.packagesIn n
  home : ∀ row ∈ b.rows, row.key = "home" → row.measured →
    ∃ n, r.counted u homePath = some n ∧ row.bytes = n
  snapshots : ∀ row ∈ b.rows, row.key = "snapshots" → row.measured →
    ∃ ns : List ℕ, r.snapshots.map (fun s => r.lineOf u s.id) = ns.map some ∧ row.bytes = ns.sum
  shared : ∀ row ∈ b.rows, row.key = "shared" → ¬row.measured

/-- The rows add up to what is used, unless more is counted than that. -/
def AddsUp (b : Breakdown) : Prop :=
  r.exclusiveTotal u ≤ b.used → (b.rows.map Row.bytes).sum = b.used

/-- Nothing is missing that a row is marked to have: without quota groups there are no packages; and
with them the system's subvolume has a line, and bytes in it where there are packages, the home's has
one if there is such a subvolume, and each snapshot has one. -/
def Covered : Prop :=
  (r.lines u = [] ∧ r.packageBytes ≤ 0) ∨
    (r.lines u ≠ [] ∧ (∃ n, r.counted u systemPath = some n ∧ (0 < n ∨ r.packageBytes ≤ 0)) ∧
      ((r.subvolumeOf homePath).isSome → (r.counted u homePath).isSome) ∧
      ∀ s ∈ r.snapshots, (r.lineOf u s.id).isSome)

theorem mem_mapM {α β : Type} {f : α → Option β} {as : List α} {bs : List β} (h : as.mapM f = some bs)
    {b : β} (hb : b ∈ bs) : ∃ a ∈ as, f a = some b := by
  induction as generalizing bs with
  | nil =>
    cases h
    simp at hb
  | cons a as ih =>
    simp only [List.mapM_cons, Option.bind_eq_bind, Option.bind_eq_some_iff, Option.pure_def,
      Option.some.injEq] at h
    obtain ⟨b', hb', bs', hbs', rfl⟩ := h
    rcases List.mem_cons.1 hb with rfl | hb
    · exact ⟨a, List.mem_cons_self, hb'⟩
    · obtain ⟨a', ha', hf⟩ := ih hbs' hb
      exact ⟨a', List.mem_cons_of_mem _ ha', hf⟩

/-- A line that is counted is one that is printed. -/
theorem lineOf_printed {id : Str} {n : ℕ} (h : r.lineOf u id = some n) :
    ∃ text, r.qgroups = some text ∧ ∃ line ∈ splitlines text, ∃ q : Qgroup,
      qgroupLine u line = some (some (id, q)) ∧ q.exclusive = n := by
  obtain ⟨q, hq, hn⟩ := Option.map_eq_some_iff.1 h
  have hmem := Dict.mem_of_lastOf hq
  unfold Reading.lines at hmem
  cases hb : r.qgroups.bind (qgroupLines u) with
  | none => simp [hb] at hmem
  | some es =>
    rw [hb, Option.getD_some] at hmem
    obtain ⟨text, htext, hes⟩ := Option.bind_eq_some_iff.1 hb
    obtain ⟨found, hfound, rfl⟩ := Option.map_eq_some_iff.1 hes
    rw [List.reduceOption_mem_iff] at hmem
    obtain ⟨line, hline, hread⟩ := mem_mapM hfound hmem
    exact ⟨text, htext, line, hline, q, hread, hn⟩

/-! ## When the rows are what they say -/

/-- The packages in the rows. A system's subvolume without bytes does not bound them. -/
def Reading.packagesShown : ℤ :=
  if (r.counted u systemPath).getD 0 ≠ 0 then r.packagesIn ((r.counted u systemPath).getD 0)
  else max r.packageBytes 0

/-- The rows, by what was counted. -/
def Reading.rowsShown (used : ℕ) (quotas : Bool) : List Row :=
  [⟨"packages", r.packagesShown u, quotas, none⟩,
    ⟨"system", max ((r.counted u systemPath).getD 0 - r.packagesShown u) 0,
      quotas && 0 < (r.counted u systemPath).getD 0, none⟩,
    ⟨"home", (r.counted u homePath).getD 0, quotas && (r.subvolumeOf homePath).isSome, none⟩,
    ⟨"snapshots", (r.snapshots.map fun s => (r.lineOf u s.id).getD 0).sum, quotas,
      some r.snapshots.length⟩,
    ⟨"shared", max (used - r.exclusiveTotal u : ℤ) 0, false, none⟩]

theorem get_byPath (path : Str) :
    (byPath (parseBtrfsSubvolumes r.subvolumes)).get path = r.subvolumeOf path := by
  rw [byPath, Dict.get_update, Dict.get_empty, Option.or_none]
  rfl

/-- The quota groups as they are joined: by the last line of each. -/
theorem get_qgroups {qgroups : Dict Str Qgroup}
    (h : r.qgroups.elim (some .empty) (parseBtrfsQgroups u) = some qgroups) (id : Str) :
    qgroups.get id = Dict.lastOf (r.lines u) id := by
  unfold Reading.lines
  cases hq : r.qgroups with
  | none =>
    rw [hq, Option.elim_none, Option.some.injEq] at h
    rw [← h]
    rfl
  | some text =>
    rw [hq, Option.elim_some, parseBtrfsQgroups, Option.map_eq_some_iff] at h
    obtain ⟨es, hes, rfl⟩ := h
    rw [Dict.get_update, Dict.get_empty, Option.or_none, Option.bind_some, hes]
    rfl

theorem exclusive_eq {qgroups : Dict Str Qgroup}
    (h : ∀ id, qgroups.get id = Dict.lastOf (r.lines u) id) (path : Str) :
    exclusive qgroups (parseBtrfsSubvolumes r.subvolumes) path = (r.counted u path).getD 0 := by
  rw [exclusive, get_byPath, Reading.counted]
  cases r.subvolumeOf path with
  | none => rfl
  | some id =>
    show exclusiveOf qgroups id = (r.lineOf u id).getD 0
    rw [exclusiveOf, h]
    rfl

theorem entries_eq_nil {qgroups : Dict Str Qgroup}
    (h : ∀ id, qgroups.get id = Dict.lastOf (r.lines u) id) :
    qgroups.entries = [] ↔ r.lines u = [] := by
  constructor
  · intro he
    refine List.eq_nil_iff_forall_not_mem.2 fun e hmem => ?_
    have hnone : Dict.lastOf (r.lines u) e.1 = none := by
      rw [← h, Dict.get, he]
      rfl
    exact Dict.lastOf_eq_none.1 hnone e hmem rfl
  · intro hl
    refine List.eq_nil_iff_forall_not_mem.2 fun e hmem => ?_
    have hget := Dict.mem_entries.1 hmem
    rw [h, hl] at hget
    cases hget

/-- What `state` tells, by what was counted. -/
theorem state_rows {b : Breakdown} (h : state u r = some b) :
    b.rows = r.rowsShown u b.used (decide (r.lines u ≠ [])) := by
  unfold state at h
  obtain ⟨usage, -, h⟩ := Option.bind_eq_some_iff.1 h
  obtain ⟨qgroups, hq, rfl⟩ := Option.map_eq_some_iff.1 h
  have hget := get_qgroups u r hq
  have hex := exclusive_eq u r hget
  have hof : ∀ id, exclusiveOf qgroups id = (r.lineOf u id).getD 0 := fun id => by
    rw [exclusiveOf, hget]
    rfl
  have hnil := entries_eq_nil u r hget
  by_cases hl : r.lines u = []
  · rw [if_neg (not_not_intro (hnil.2 hl))]
    simp [storageBreakdown, Reading.rowsShown, Reading.packagesShown, Reading.packagesIn,
      Reading.exclusiveTotal, hex, hof, hl, Reading.snapshots]
  · rw [if_pos (mt hnil.1 hl)]
    simp [storageBreakdown, Reading.rowsShown, Reading.packagesShown, Reading.packagesIn,
      Reading.exclusiveTotal, hex, hof, hl, Reading.snapshots, get_byPath]

theorem packagesShown_of_pos {n : ℕ} (h : r.counted u systemPath = some n) (hn : 0 < n) :
    r.packagesShown u = r.packagesIn n := by
  rw [Reading.packagesShown, h, Option.getD_some, if_pos (Nat.ne_of_gt hn)]

theorem packagesShown_of_zero (h : (r.counted u systemPath).getD 0 = 0) :
    r.packagesShown u = max r.packageBytes 0 := by
  rw [Reading.packagesShown, if_neg (not_not_intro h)]

/-- The packages are at most the line of the system's subvolume has, where it has bytes or there are
none. -/
theorem packagesShown_eq_iff {n : ℕ} (h : r.counted u systemPath = some n) :
    r.packagesShown u = r.packagesIn n ↔ 0 < n ∨ r.packageBytes ≤ 0 := by
  rcases Nat.eq_zero_or_pos n with rfl | hn
  · rw [packagesShown_of_zero u r (by rw [h, Option.getD_some]), Reading.packagesIn]
    omega
  · rw [packagesShown_of_pos u r h hn]
    exact ⟨fun _ => Or.inl hn, fun _ => rfl⟩

/-- The counts of the snapshots are read where each has a line. -/
theorem snapshots_read_iff (ss : List Subvolume) :
    (∃ ns : List ℕ, ss.map (fun s => r.lineOf u s.id) = ns.map some ∧
        ((ss.map fun s => (r.lineOf u s.id).getD 0).sum : ℤ) = (ns.sum : ℤ)) ↔
      ∀ s ∈ ss, (r.lineOf u s.id).isSome := by
  constructor
  · rintro ⟨ns, hns, -⟩ s hs
    have hmem : r.lineOf u s.id ∈ ns.map some := hns ▸ List.mem_map_of_mem hs
    obtain ⟨n, -, hn⟩ := List.mem_map.1 hmem
    rw [← hn]
    rfl
  · intro h
    refine ⟨ss.map fun s => (r.lineOf u s.id).getD 0, ?_, rfl⟩
    rw [List.map_map]
    refine List.map_congr_left fun s hs => ?_
    obtain ⟨n, hn⟩ := Option.isSome_iff_exists.1 (h s hs)
    rw [Function.comp_apply, hn]
    rfl

/-- Without quota groups no row is marked. -/
theorem honest_of_no_lines {b : Breakdown} (h : state u r = some b) (hl : r.lines u = []) :
    Honest u r b := by
  have hno : ∀ row ∈ b.rows, ¬row.measured := by
    rw [state_rows u r h]
    simp [Reading.rowsShown, hl]
  exact ⟨fun row hrow _ hm => absurd hm (hno row hrow), fun row hrow _ hm => absurd hm (hno row hrow),
    fun row hrow _ hm => absurd hm (hno row hrow), fun row hrow _ hm => absurd hm (hno row hrow),
    fun row hrow _ => hno row hrow⟩

/-- With them a row is honest where its subvolumes have their lines. -/
theorem honest_iff {b : Breakdown} (h : state u r = some b) (hl : r.lines u ≠ []) :
    Honest u r b ↔
      (∃ n, r.counted u systemPath = some n ∧ (0 < n ∨ r.packageBytes ≤ 0)) ∧
        ((r.subvolumeOf homePath).isSome → (r.counted u homePath).isSome) ∧
        ∀ s ∈ r.snapshots, (r.lineOf u s.id).isSome := by
  have hrows := state_rows u r h
  rw [decide_eq_true hl] at hrows
  constructor
  · intro hh
    refine ⟨?_, fun hhome => ?_, ?_⟩
    · obtain ⟨n, hn, hbytes⟩ := hh.packages ⟨"packages", r.packagesShown u, true, none⟩
        (by simp [hrows, Reading.rowsShown]) rfl rfl
      exact ⟨n, hn, (packagesShown_eq_iff u r hn).1 hbytes⟩
    · obtain ⟨n, hn, -⟩ := hh.home
        ⟨"home", (r.counted u homePath).getD 0, true && (r.subvolumeOf homePath).isSome, none⟩
        (by simp [hrows, Reading.rowsShown]) rfl hhome
      rw [hn]
      rfl
    · exact (snapshots_read_iff u r r.snapshots).1 (hh.snapshots
        ⟨"snapshots", (r.snapshots.map fun s => (r.lineOf u s.id).getD 0).sum, true,
          some r.snapshots.length⟩ (by simp [hrows, Reading.rowsShown]) rfl rfl)
  · rintro ⟨⟨n, hn, hpos⟩, hhome, hsnap⟩
    have hpack := (packagesShown_eq_iff u r hn).2 hpos
    constructor
    · intro row hrow hkey _
      simp only [hrows, Reading.rowsShown, List.mem_cons, List.not_mem_nil, or_false] at hrow
      rcases hrow with rfl | rfl | rfl | rfl | rfl <;> simp at hkey
      exact ⟨n, hn, hpack⟩
    · intro row hrow hkey hm
      simp only [hrows, Reading.rowsShown, List.mem_cons, List.not_mem_nil, or_false] at hrow
      rcases hrow with rfl | rfl | rfl | rfl | rfl <;> simp at hkey
      refine ⟨n, hn, ?_⟩
      show max (((r.counted u systemPath).getD 0 : ℤ) - r.packagesShown u) 0 = n - r.packagesIn n
      rw [hpack, hn, Option.getD_some, Reading.packagesIn]
      omega
    · intro row hrow hkey hm
      simp only [hrows, Reading.rowsShown, List.mem_cons, List.not_mem_nil, or_false] at hrow
      rcases hrow with rfl | rfl | rfl | rfl | rfl <;> simp at hkey
      obtain ⟨k, hk⟩ := Option.isSome_iff_exists.1 (hhome hm)
      exact ⟨k, hk, by rw [hk, Option.getD_some]⟩
    · intro row hrow hkey _
      simp only [hrows, Reading.rowsShown, List.mem_cons, List.not_mem_nil, or_false] at hrow
      rcases hrow with rfl | rfl | rfl | rfl | rfl <;> simp at hkey
      exact (snapshots_read_iff u r r.snapshots).2 hsnap
    · intro row hrow hkey
      simp only [hrows, Reading.rowsShown, List.mem_cons, List.not_mem_nil, or_false] at hrow
      rcases hrow with rfl | rfl | rfl | rfl | rfl <;> simp at hkey
      exact Bool.false_ne_true

/-- The rows add up, unless packages are shown of a system's subvolume without bytes. -/
theorem addsUp_iff {b : Breakdown} (h : state u r = some b) :
    AddsUp u r b ↔ (r.exclusiveTotal u ≤ b.used →
      0 < (r.counted u systemPath).getD 0 ∨ r.packageBytes ≤ 0) := by
  unfold AddsUp
  refine forall_congr' fun hle => ?_
  rw [state_rows u r h]
  simp only [Reading.rowsShown, List.map_cons, List.map_nil, List.sum_cons, List.sum_nil]
  have htotal : r.exclusiveTotal u = (r.counted u systemPath).getD 0 + (r.counted u homePath).getD 0 +
    (r.snapshots.map fun s => (r.lineOf u s.id).getD 0).sum := rfl
  rcases Nat.eq_zero_or_pos ((r.counted u systemPath).getD 0) with hz | hpos
  · rw [packagesShown_of_zero u r hz]
    omega
  · have hpack : r.packagesShown u = r.packagesIn ((r.counted u systemPath).getD 0) := by
      rw [Reading.packagesShown, if_pos (Nat.ne_of_gt hpos)]
    rw [hpack, Reading.packagesIn]
    omega

theorem lineOf_eq_none (hl : r.lines u = []) (id : Str) : r.lineOf u id = none := by
  rw [Reading.lineOf, hl]
  rfl

theorem counted_eq_none (hl : r.lines u = []) (path : Str) : r.counted u path = none := by
  rw [Reading.counted]
  cases r.subvolumeOf path with
  | none => rfl
  | some id => exact lineOf_eq_none u r hl id

/-- **The rows of the storage page are what they say, and add up, exactly where nothing is missing
that a row is marked to have.** -/
theorem state_iff {b : Breakdown} (h : state u r = some b) :
    (Honest u r b ∧ AddsUp u r b) ↔ Covered u r := by
  unfold Covered
  rw [addsUp_iff u r h]
  by_cases hl : r.lines u = []
  · have htotal : r.exclusiveTotal u = 0 := by
      simp [Reading.exclusiveTotal, counted_eq_none u r hl, lineOf_eq_none u r hl]
    simp [honest_of_no_lines u r h hl, hl, counted_eq_none u r hl, htotal]
  · rw [honest_iff u r h hl]
    constructor
    · rintro ⟨hh, -⟩
      exact Or.inr ⟨hl, hh⟩
    · rintro (⟨hnil, -⟩ | ⟨-, hh⟩)
      · exact absurd hnil hl
      · refine ⟨hh, fun _ => ?_⟩
        obtain ⟨⟨n, hn, hpos⟩, -⟩ := hh
        rw [hn]
        exact hpos

end Counted

/-! ## A volume -/

def ascii : Digits where
  isDigit := Char.isDigit
  value := fun c => if c.isDigit then some (c.toNat - 48) else none

/-- A volume of a system and a home, whose quota groups are these. -/
def volume (qgroups : String) : Reading where
  usage := "Overall:\n    Used:\t\t300\n".toList
  qgroups := some qgroups.toList
  subvolumes :=
    ("ID 256 gen 9 parent 5 top level 5 path @\n" ++
      "ID 257 gen 9 parent 5 top level 5 path @home\n").toList
  packageBytes := 40
  snapshotDir := "@snapshots".toList

theorem state_iff_volume :
    ∃ b, state ascii (volume "0/256 100 90\n0/257 150 120\n") = some b ∧
      Honest ascii (volume "0/256 100 90\n0/257 150 120\n") b ∧
      AddsUp ascii (volume "0/256 100 90\n0/257 150 120\n") b := by
  have hsome : (state ascii (volume "0/256 100 90\n0/257 150 120\n")).isSome := by decide
  obtain ⟨b, hb⟩ := Option.isSome_iff_exists.1 hsome
  exact ⟨b, hb, (state_iff ascii _ hb).2 (Or.inr
    ⟨by decide, ⟨90, by decide, Or.inl (by decide)⟩, by decide, by decide⟩)⟩

/-- Where the system's subvolume has no line, the packages are marked as measured all the same, and
are added to what is used. -/
theorem storage_invents :
    ∃ b, state ascii (volume "0/257 150 120\n") = some b ∧
      ¬Honest ascii (volume "0/257 150 120\n") b ∧ ¬AddsUp ascii (volume "0/257 150 120\n") b := by
  have hsome : (state ascii (volume "0/257 150 120\n")).isSome := by decide
  obtain ⟨b, hb⟩ := Option.isSome_iff_exists.1 hsome
  have hlines : (volume "0/257 150 120\n").lines ascii ≠ [] := by decide
  have hcounted : (volume "0/257 150 120\n").counted ascii systemPath = none := by decide
  refine ⟨b, hb, fun hh => ?_, fun ha => ?_⟩
  · obtain ⟨⟨n, hn, -⟩, -⟩ := (honest_iff ascii _ hb hlines).1 hh
    rw [hcounted] at hn
    cases hn
  · have hused : b.used = 300 := by
      have hmap : (state ascii (volume "0/257 150 120\n")).map Breakdown.used = some 300 := by decide
      rw [hb, Option.map_some, Option.some.injEq] at hmap
      exact hmap
    have htotal : (volume "0/257 150 120\n").exclusiveTotal ascii ≤ b.used := by
      rw [hused]
      decide
    rcases (addsUp_iff ascii _ hb).1 ha htotal with hpos | hpack
    · rw [hcounted] at hpos
      exact absurd hpos (by decide)
    · exact absurd hpack (by decide)

end Aurade.Bridge.DiskUsage
