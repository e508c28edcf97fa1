import Mathlib.Algebra.BigOperators.Group.Finset.Basic
import Mathlib.Algebra.Order.BigOperators.Group.Finset
import Mathlib.Data.List.Induction

/-!
# The size of a folder

`sizeOf` adds up a tree, with a ceiling on how many entries it counts. The walk is one over the entries of
the tree in order (`walkSize_eq`), and it stands at any time for a first part of them (`Counts`): all of
them, or as many as the ceiling lets it count.

The sums are `u64`: they are exact as long as they fit (`sizeOf_iff`).
-/

namespace Aurade.Files.Props

/-- What `statat` says of a file. -/
structure Stat where
  dev : ℕ
  ino : ℕ
  nlink : ℕ
  size : ℤ
  blocks : ℕ
  deriving DecidableEq

/-- A place in the tree: what is gone by the time it is looked at, a link, a directory that can be read or
not, anything else. -/
inductive Node
  | gone
  | symlink
  | dir (readable : Bool) (entries : List Node)
  | file (stat : Stat)

/-- `Size`. -/
structure Size where
  files : ℕ := 0
  folders : ℕ := 0
  bytes : ℕ := 0
  onDisk : ℕ := 0
  isPartial : Bool := false
  deriving DecidableEq

/-- How many values a `u64` has. -/
def u64 : ℕ := 2 ^ 64

/-- `total` and `seen`. -/
structure Walk where
  total : Size := {}
  seen : List (ℕ × ℕ) := []

/-- `total.files + total.folders`. -/
def Size.entries (s : Size) : ℕ := s.files + s.folders

/-- The ceiling. -/
def Walk.stop (maxEntries : ℕ) (w : Walk) : Walk :=
  if maxEntries ≤ w.total.entries then { w with total := { w.total with isPartial := true } } else w

/-- One directory more. -/
def Walk.addFolder (maxEntries : ℕ) (w : Walk) : Walk :=
  Walk.stop maxEntries { w with total := { w.total with folders := w.total.folders + 1 } }

/-- A file more, unless it is a hard link that was seen. -/
def Walk.addFile (maxEntries : ℕ) (w : Walk) (stat : Stat) : Walk :=
  if 1 < stat.nlink ∧ (stat.dev, stat.ino) ∈ w.seen then w
  else
    Walk.stop maxEntries
      { total :=
          { w.total with
            files := w.total.files + 1
            bytes := (w.total.bytes + (max stat.size 0).toNat) % u64
            onDisk := (w.total.onDisk + stat.blocks * 512) % u64 }
        seen := if 1 < stat.nlink then (stat.dev, stat.ino) :: w.seen else w.seen }

mutual

/-- `walk_size`. -/
def walkSize (maxEntries : ℕ) (w : Walk) : Node → Walk
  | .gone => w
  | .symlink => w
  | .dir readable entries =>
    if w.total.isPartial then w
    else if (w.addFolder maxEntries).total.isPartial || !readable then w.addFolder maxEntries
    else walkEach maxEntries (w.addFolder maxEntries) entries
  | .file stat => if w.total.isPartial then w else w.addFile maxEntries stat

/-- The loop over the entries of a directory. -/
def walkEach (maxEntries : ℕ) (w : Walk) : List Node → Walk
  | [] => w
  | n :: ns =>
    if (walkSize maxEntries w n).total.isPartial then walkSize maxEntries w n
    else walkEach maxEntries (walkSize maxEntries w n) ns

end

/-- `size_of`. -/
def sizeOf (maxEntries : ℕ) (n : Node) : Size := (walkSize maxEntries {} n).total

/-! ## The walk as one over entries -/

/-- What the walk counts: directories, and files under their inodes. -/
inductive Entry
  | folder
  | file (stat : Stat)
  deriving DecidableEq

mutual

/-- The entries that can be read, in order. -/
def entries : Node → List Entry
  | .gone => []
  | .symlink => []
  | .dir readable ns => .folder :: (if readable then entriesEach ns else [])
  | .file stat => [.file stat]

/-- Those of a list of places. -/
def entriesEach : List Node → List Entry
  | [] => []
  | n :: ns => entries n ++ entriesEach ns

end

/-- The walk over one entry. -/
def Walk.add (maxEntries : ℕ) (w : Walk) (e : Entry) : Walk :=
  if w.total.isPartial then w
  else
    match e with
    | .folder => w.addFolder maxEntries
    | .file stat => w.addFile maxEntries stat

/-- Once it is partial, the walk does not go on. -/
theorem foldl_add_cut {maxEntries : ℕ} {w : Walk} (h : w.total.isPartial = true) (es : List Entry) :
    es.foldl (Walk.add maxEntries) w = w := by
  induction es with
  | nil => rfl
  | cons e es ih =>
    have hadd : w.add maxEntries e = w := if_pos h
    rw [List.foldl_cons, hadd, ih]

mutual

/-- **The walk over a tree is the walk over its entries.** -/
theorem walkSize_eq (maxEntries : ℕ) (w : Walk) (n : Node) :
    walkSize maxEntries w n = (entries n).foldl (Walk.add maxEntries) w := by
  cases n with
  | gone => rfl
  | symlink => rfl
  | file stat => rfl
  | dir readable ns =>
    rw [walkSize, entries, List.foldl_cons]
    by_cases hw : w.total.isPartial = true
    · have hadd : w.add maxEntries .folder = w := if_pos hw
      rw [if_pos hw, hadd, foldl_add_cut hw]
    · have hadd : w.add maxEntries .folder = w.addFolder maxEntries := if_neg hw
      rw [if_neg hw, hadd]
      split
      case isTrue hstop =>
        rcases Bool.or_eq_true_iff.1 hstop with hfull | hclosed
        · rw [foldl_add_cut hfull]
        · rw [if_neg (by simpa using hclosed), List.foldl_nil]
      case isFalse hstop =>
        have hreadable : readable = true := by
          by_contra hclosed
          exact hstop (by simp [hclosed])
        rw [if_pos hreadable]
        exact walkEach_eq maxEntries (w.addFolder maxEntries) ns

theorem walkEach_eq (maxEntries : ℕ) (w : Walk) (ns : List Node) :
    walkEach maxEntries w ns = (entriesEach ns).foldl (Walk.add maxEntries) w := by
  cases ns with
  | nil => rfl
  | cons n ns =>
    rw [walkEach, entriesEach, List.foldl_append, walkSize_eq maxEntries w n]
    split
    case isTrue hfull => rw [foldl_add_cut hfull]
    case isFalse => exact walkEach_eq maxEntries _ ns

end

/-! ## What has been counted -/

/-- The files among the entries. -/
def filesOf (es : List Entry) : List Stat :=
  es.filterMap fun e =>
    match e with
    | .folder => none
    | .file stat => some stat

/-- The exact totals: each inode once. -/
def exact (es : List Entry) : Size where
  files := (filesOf es).toFinset.card
  folders := es.count .folder
  bytes := ∑ st ∈ (filesOf es).toFinset, (max st.size 0).toNat
  onDisk := ∑ st ∈ (filesOf es).toFinset, st.blocks * 512

/-- The files as `statat` tells them: one inode is told in one way, and has as many links as there are
places for it at least. -/
structure Linked (es : List Entry) : Prop where
  one : ∀ st ∈ filesOf es, ∀ st' ∈ filesOf es, st.dev = st'.dev → st.ino = st'.ino → st = st'
  links : ∀ st ∈ filesOf es, (filesOf es).count st ≤ st.nlink

/-- The walk stands for the entries `es`, which it has counted all. -/
structure Counts (es : List Entry) (w : Walk) : Prop where
  files : w.total.files = (exact es).files
  folders : w.total.folders = (exact es).folders
  bytes : w.total.bytes = (exact es).bytes % u64
  onDisk : w.total.onDisk = (exact es).onDisk % u64
  seen : ∀ k, k ∈ w.seen ↔ ∃ st ∈ filesOf es, 1 < st.nlink ∧ (st.dev, st.ino) = k

theorem filesOf_append (es fs : List Entry) : filesOf (es ++ fs) = filesOf es ++ filesOf fs :=
  List.filterMap_append

theorem Linked.of_append {es fs : List Entry} (h : Linked (es ++ fs)) : Linked es where
  one st hst st' hst' := by
    refine h.one st ?_ st' ?_ <;> rw [filesOf_append]
    · exact List.mem_append_left _ hst
    · exact List.mem_append_left _ hst'
  links st hst := by
    have hcount := h.links st (by rw [filesOf_append]; exact List.mem_append_left _ hst)
    rw [filesOf_append, List.count_append] at hcount
    omega

theorem exact_folder (es : List Entry) :
    exact (es ++ [.folder]) = { exact es with folders := (exact es).folders + 1 } := by
  have hfiles : filesOf (es ++ [.folder]) = filesOf es := by simp [filesOf]
  simp [exact, hfiles]

/-- A file that has been counted adds nothing. -/
theorem exact_old {es : List Entry} {st : Stat} (h : st ∈ filesOf es) :
    exact (es ++ [.file st]) = exact es := by
  have hfiles : (filesOf (es ++ [.file st])).toFinset = (filesOf es).toFinset := by
    ext st'
    have hone : filesOf [.file st] = [st] := rfl
    rw [filesOf_append, hone, List.toFinset_append, Finset.mem_union, List.mem_toFinset, List.mem_toFinset,
      List.mem_singleton, or_iff_left_of_imp]
    rintro rfl
    exact h
  simp [exact, hfiles]

theorem exact_new {es : List Entry} {st : Stat} (h : st ∉ filesOf es) :
    exact (es ++ [.file st]) =
      { exact es with
        files := (exact es).files + 1
        bytes := (exact es).bytes + (max st.size 0).toNat
        onDisk := (exact es).onDisk + st.blocks * 512 } := by
  have hnot : st ∉ (filesOf es).toFinset := by simpa using h
  have hfiles : (filesOf (es ++ [.file st])).toFinset = insert st (filesOf es).toFinset := by
    ext st'
    simp [filesOf]
  simp only [exact, hfiles, Finset.card_insert_of_notMem hnot, Finset.sum_insert hnot,
    List.count_append, Size.mk.injEq]
  refine ⟨trivial, ?_, ?_, ?_, trivial⟩
  · simp
  · exact Nat.add_comm _ _
  · exact Nat.add_comm _ _

theorem Counts.stop {es : List Entry} {w : Walk} (h : Counts es w) (maxEntries : ℕ) :
    Counts es (w.stop maxEntries) := by
  unfold Walk.stop
  split
  · exact ⟨h.files, h.folders, h.bytes, h.onDisk, h.seen⟩
  · exact h

theorem Counts.entries {es : List Entry} {w : Walk} (h : Counts es w) :
    w.total.entries = (exact es).entries := by
  rw [Size.entries, Size.entries, h.files, h.folders]

theorem isPartial_stop {w : Walk} (h : w.total.isPartial = false) (maxEntries : ℕ) :
    (w.stop maxEntries).total.isPartial = decide (maxEntries ≤ w.total.entries) := by
  unfold Walk.stop
  split
  case isTrue hle => simp [hle]
  case isFalse hle => simp [hle, h]

theorem Counts.folder {es : List Entry} {w : Walk} (h : Counts es w) :
    Counts (es ++ [.folder]) { w with total := { w.total with folders := w.total.folders + 1 } } := by
  have hfiles : filesOf (es ++ [.folder]) = filesOf es := by simp [filesOf]
  refine ⟨?_, ?_, ?_, ?_, fun k => by rw [hfiles]; exact h.seen k⟩ <;> rw [exact_folder]
  · exact h.files
  · exact congrArg (· + 1) h.folders
  · exact h.bytes
  · exact h.onDisk

/-- A hard link that was seen is of a file that has been counted. -/
theorem Counts.old {es : List Entry} {w : Walk} (h : Counts es w) {st : Stat}
    (hst : Linked (es ++ [.file st])) (hseen : (st.dev, st.ino) ∈ w.seen) :
    Counts (es ++ [.file st]) w := by
  obtain ⟨st', hst', hlink, hkey⟩ := (h.seen _).1 hseen
  have hmem : st ∈ filesOf es := by
    have heq : st' = st := by
      refine hst.one st' ?_ st ?_ (congrArg Prod.fst hkey) (congrArg Prod.snd hkey)
      · rw [filesOf_append]
        exact List.mem_append_left _ hst'
      · rw [filesOf_append]
        exact List.mem_append_right _ (List.mem_singleton_self st)
    exact heq ▸ hst'
  have hfiles (st₁ : Stat) : st₁ ∈ filesOf (es ++ [.file st]) ↔ st₁ ∈ filesOf es := by
    rw [filesOf_append, List.mem_append]
    refine or_iff_left_of_imp fun h₁ => ?_
    obtain rfl := List.mem_singleton.1 h₁
    exact hmem
  refine ⟨?_, ?_, ?_, ?_, fun k => by simp only [hfiles]; exact h.seen k⟩ <;> rw [exact_old hmem]
  · exact h.files
  · exact h.folders
  · exact h.bytes
  · exact h.onDisk

/-- A file that was not seen has not been counted. -/
theorem Counts.notMem {es : List Entry} {w : Walk} (h : Counts es w) {st : Stat}
    (hst : Linked (es ++ [.file st])) (hnew : ¬(1 < st.nlink ∧ (st.dev, st.ino) ∈ w.seen)) :
    st ∉ filesOf es := by
  intro hmem
  by_cases hlink : 1 < st.nlink
  · exact hnew ⟨hlink, (h.seen _).2 ⟨st, hmem, hlink, rfl⟩⟩
  · have hcount := hst.links st (by rw [filesOf_append]; exact List.mem_append_left _ hmem)
    have hone : filesOf [.file st] = [st] := rfl
    rw [filesOf_append, List.count_append, hone, List.count_singleton_self] at hcount
    have hpos := List.count_pos_iff.2 hmem
    omega

theorem Counts.new {es : List Entry} {w : Walk} (h : Counts es w) {st : Stat} (hst : st ∉ filesOf es) :
    Counts (es ++ [.file st])
      { total :=
          { w.total with
            files := w.total.files + 1
            bytes := (w.total.bytes + (max st.size 0).toNat) % u64
            onDisk := (w.total.onDisk + st.blocks * 512) % u64 }
        seen := if 1 < st.nlink then (st.dev, st.ino) :: w.seen else w.seen } := by
  refine ⟨?_, ?_, ?_, ?_, fun k => ?_⟩
  · rw [exact_new hst]
    exact congrArg (· + 1) h.files
  · rw [exact_new hst]
    exact h.folders
  · rw [exact_new hst]
    simp only [h.bytes, Nat.mod_add_mod]
  · rw [exact_new hst]
    simp only [h.onDisk, Nat.mod_add_mod]
  · have hone : filesOf [.file st] = [st] := rfl
    simp only [filesOf_append, hone, List.mem_append, List.mem_singleton]
    split
    case isTrue hlink =>
      rw [List.mem_cons, h.seen]
      constructor
      · rintro (rfl | ⟨st', hst', hk⟩)
        · exact ⟨st, .inr rfl, hlink, rfl⟩
        · exact ⟨st', .inl hst', hk⟩
      · rintro ⟨st', hst' | rfl, hk⟩
        · exact .inr ⟨st', hst', hk⟩
        · exact .inl hk.2.symm
    case isFalse hlink =>
      rw [h.seen]
      constructor
      · rintro ⟨st', hst', hk⟩
        exact ⟨st', .inl hst', hk⟩
      · rintro ⟨st', hst' | rfl, hk⟩
        · exact ⟨st', hst', hk⟩
        · exact absurd hk.1 hlink

/-! ## The walk and its ceiling -/

/-- Where the walk over `es` stands: it has counted a first part of them, all of them unless it is partial,
and it is partial as soon as the part has as many entries as the ceiling. -/
structure Reached (maxEntries : ℕ) (es : List Entry) (w : Walk) : Prop where
  counts : ∃ p, p <+: es ∧ Counts p w ∧ (w.total.isPartial = false → p = es)
  ceiling : w.total.entries ≤ max maxEntries 1
  stopped : w.total.isPartial = true ↔ max maxEntries 1 ≤ w.total.entries

theorem Reached.start (maxEntries : ℕ) : Reached maxEntries [] {} where
  counts := ⟨[], List.prefix_rfl, ⟨rfl, rfl, rfl, rfl, by simp [filesOf]⟩, fun _ => rfl⟩
  ceiling := Nat.zero_le _
  stopped := by simp [Size.entries]

/-- One entry more is counted, and the ceiling is looked at. -/
theorem Reached.of_stop {maxEntries : ℕ} {es : List Entry} {w : Walk} (h : Counts es w)
    (hcut : w.total.isPartial = false) {n : ℕ} (hn : w.total.entries = n + 1)
    (hroom : n < max maxEntries 1) : Reached maxEntries es (w.stop maxEntries) := by
  have hentries : (w.stop maxEntries).total.entries = n + 1 := by
    rw [(h.stop maxEntries).entries, ← h.entries, hn]
  refine ⟨⟨es, List.prefix_rfl, h.stop maxEntries, fun _ => rfl⟩, by omega, ?_⟩
  rw [isPartial_stop hcut, decide_eq_true_eq, hentries, hn]
  omega

theorem Reached.add {maxEntries : ℕ} {es : List Entry} {w : Walk} (h : Reached maxEntries es w) (e : Entry)
    (hes : Linked (es ++ [e])) : Reached maxEntries (es ++ [e]) (w.add maxEntries e) := by
  obtain ⟨p, hp, hcounts, hall⟩ := h.counts
  by_cases hcut : w.total.isPartial = true
  · have hadd : w.add maxEntries e = w := if_pos hcut
    rw [hadd]
    refine ⟨⟨p, hp.trans (List.prefix_append _ _), hcounts, fun hf => ?_⟩, h.ceiling, h.stopped⟩
    exact absurd (hf.symm.trans hcut) (by decide)
  · have hgo : w.total.isPartial = false := Bool.not_eq_true _ ▸ hcut
    obtain rfl : p = es := hall hgo
    have hroom : w.total.entries < max maxEntries 1 := not_le.1 fun hle => hcut (h.stopped.2 hle)
    cases e with
    | folder =>
      have hadd : w.add maxEntries .folder = w.addFolder maxEntries := if_neg hcut
      rw [hadd]
      exact .of_stop hcounts.folder hgo (n := w.total.entries) (by simp [Size.entries]; omega) hroom
    | file st =>
      have hadd : w.add maxEntries (.file st) = w.addFile maxEntries st := if_neg hcut
      rw [hadd, Walk.addFile]
      split
      case isTrue hold =>
        exact ⟨⟨_, List.prefix_rfl, hcounts.old hes hold.2, fun _ => rfl⟩, h.ceiling, h.stopped⟩
      case isFalse hnew =>
        refine .of_stop (hcounts.new (hcounts.notMem hes hnew)) hgo (n := w.total.entries) ?_ hroom
        simp [Size.entries]
        omega

/-- **Where the walk over a tree ends.** -/
theorem reached_walk {es : List Entry} (h : Linked es) (maxEntries : ℕ) :
    Reached maxEntries es (es.foldl (Walk.add maxEntries) {}) := by
  induction es using List.reverseRecOn with
  | nil => exact .start maxEntries
  | append_singleton es e ih =>
    rw [List.foldl_append]
    exact (ih h.of_append).add e h

/-- A first part counts no more than all. -/
theorem exact_mono {p es : List Entry} (h : p <+: es) :
    (exact p).files ≤ (exact es).files ∧ (exact p).folders ≤ (exact es).folders ∧
      (exact p).bytes ≤ (exact es).bytes ∧ (exact p).onDisk ≤ (exact es).onDisk := by
  have hsub : (filesOf p).toFinset ⊆ (filesOf es).toFinset := by
    intro st hst
    rw [List.mem_toFinset] at hst ⊢
    exact (h.filterMap _).subset hst
  exact ⟨Finset.card_le_card hsub, h.sublist.count_le _, Finset.sum_le_sum_of_subset hsub,
    Finset.sum_le_sum_of_subset hsub⟩

/-- What the answer should say: the exact totals, or that it is partial, with totals that are no more than
these and no more entries than the ceiling. -/
structure Size.Honest (s : Size) (total : Size) (maxEntries : ℕ) : Prop where
  whole : s.isPartial = false → s.files = total.files ∧ s.folders = total.folders ∧
    s.bytes = total.bytes ∧ s.onDisk = total.onDisk
  floor : s.isPartial = true → s.files ≤ total.files ∧ s.folders ≤ total.folders ∧
    s.bytes ≤ total.bytes ∧ s.onDisk ≤ total.onDisk ∧ s.files + s.folders ≤ max maxEntries 1

/-- **The size of a folder is exact or says it is not, exactly when** the tree has as many entries as the
ceiling or its sums fit into a `u64`. -/
theorem sizeOf_iff {n : Node} (h : Linked (entries n)) (maxEntries : ℕ) :
    (sizeOf maxEntries n).Honest (exact (entries n)) maxEntries ↔
      max maxEntries 1 ≤ (exact (entries n)).entries ∨
        (exact (entries n)).bytes < u64 ∧ (exact (entries n)).onDisk < u64 := by
  have hr := reached_walk h maxEntries
  rw [sizeOf, walkSize_eq]
  generalize (entries n).foldl (Walk.add maxEntries) {} = w at hr ⊢
  obtain ⟨p, hp, hcounts, hall⟩ := hr.counts
  obtain ⟨hfiles, hfolders, hbytes, hdisk⟩ := exact_mono hp
  cases hcut : w.total.isPartial with
  | true =>
    have hle := hr.stopped.1 hcut
    have hfull : max maxEntries 1 ≤ (exact (entries n)).entries := by
      rw [hcounts.entries] at hle
      simp only [Size.entries] at hle ⊢
      omega
    refine iff_of_true ⟨fun hf => absurd (hcut.symm.trans hf) (by decide), fun _ => ?_⟩ (.inl hfull)
    refine ⟨hcounts.files.trans_le hfiles, hcounts.folders.trans_le hfolders, ?_, ?_, hr.ceiling⟩
    · exact (hcounts.bytes.trans_le (Nat.mod_le _ _)).trans hbytes
    · exact (hcounts.onDisk.trans_le (Nat.mod_le _ _)).trans hdisk
  | false =>
    obtain rfl : p = entries n := hall hcut
    have hroom : ¬max maxEntries 1 ≤ (exact (entries n)).entries := by
      rw [← hcounts.entries]
      exact fun hle => Bool.false_ne_true (hcut.symm.trans (hr.stopped.2 hle))
    have hwrap (x : ℕ) : x % u64 = x ↔ x < u64 := by
      have hpos : 0 < u64 := by decide
      exact ⟨fun hx => hx ▸ Nat.mod_lt x hpos, Nat.mod_eq_of_lt⟩
    rw [or_iff_right hroom, ← hwrap, ← hwrap, ← hcounts.bytes, ← hcounts.onDisk]
    refine ⟨fun hs => ?_, fun hs => ⟨fun _ => ?_, fun ht => ?_⟩⟩
    · exact (hs.whole hcut).2.2
    · exact ⟨hcounts.files, hcounts.folders, hs⟩
    · exact absurd (hcut.symm.trans ht) (by decide)

/-- A folder with a file that has two names in it. -/
def twice : Node := .dir true [.file ⟨1, 7, 2, 4096, 8⟩, .file ⟨1, 7, 2, 4096, 8⟩]

theorem twice_linked : Linked (entries twice) where
  one := by decide
  links := by decide

theorem sizeOf_iff_twice : (sizeOf 1000000 twice).Honest (exact (entries twice)) 1000000 :=
  (sizeOf_iff twice_linked 1000000).2 (.inr ⟨by decide, by decide⟩)

/-- A folder with three sparse files, each as long as a file can be. -/
def sparse : Node :=
  .dir true [.file ⟨1, 1, 1, 2 ^ 63 - 1, 0⟩, .file ⟨1, 2, 1, 2 ^ 63 - 1, 0⟩, .file ⟨1, 3, 1, 2 ^ 63 - 1, 0⟩]

/-- The sum of the three sizes comes round, and the answer does not say so. -/
theorem sparse_wraps : Linked (entries sparse) ∧ (sizeOf 2000000 sparse).isPartial = false ∧
    (sizeOf 2000000 sparse).bytes = 2 ^ 63 - 3 ∧ (exact (entries sparse)).bytes = 3 * (2 ^ 63 - 1) :=
  ⟨⟨by decide, by decide⟩, by decide, by decide, by decide⟩

end Aurade.Files.Props
