import Mathlib.Data.List.DropRight
import Mathlib.Order.Bounds.Basic
import Mathlib.Data.Set.Finite.List
import Aurade.Foundations.Collect
import Aurade.Foundations.Text
import Aurade.Fs.Path

/-!
# The state of a folder

`info` puts what git says of each path into a map, under the path and under every folder above it. Two
records under one path are joined: the worse status, and staged where one of them is. So a folder shows
the worst of what is inside it, in whatever order the records came (`rollup_spec`); a record that says
nothing is skipped.
-/

namespace Aurade.Fs

/-- A component as it is written. -/
def Component.bytes : Component → Bytes
  | .rootDir => []
  | .curDir => [dot]
  | .parentDir => [dot, dot]
  | .normal b => b

/-- A path as it is written. -/
def PathBuf.display (p : PathBuf) : Bytes :=
  if p = [.rootDir] then [slash] else [slash].intercalate (p.map Component.bytes)

end Aurade.Fs

namespace Aurade.Git

open Fs

/-! ## What git says of a path -/

/-- What happened to one path, from the mildest on. -/
inductive Status
  | unchanged
  | ignored
  | untracked
  | modified
  | renamed
  | typeChange
  | added
  | deleted
  | conflicted
  deriving DecidableEq

/-- The order of severity. -/
def Status.severity : Status → ℕ
  | unchanged => 0
  | ignored => 1
  | untracked => 2
  | modified => 3
  | renamed => 4
  | typeChange => 5
  | added => 6
  | deleted => 7
  | conflicted => 8

theorem Status.severity_injective : Function.Injective severity := by
  intro a b h
  cases a <;> cases b <;> first | rfl | cases h

instance : LinearOrder Status := LinearOrder.lift' Status.severity Status.severity_injective

theorem Status.unchanged_le (s : Status) : unchanged ≤ s := Nat.zero_le s.severity

/-- The bitfield of one record. -/
structure Flags where
  indexNew : Bool := false
  indexModified : Bool := false
  indexDeleted : Bool := false
  indexRenamed : Bool := false
  indexTypechange : Bool := false
  wtNew : Bool := false
  wtModified : Bool := false
  wtDeleted : Bool := false
  wtTypechange : Bool := false
  wtRenamed : Bool := false
  wtUnreadable : Bool := false
  ignored : Bool := false
  conflicted : Bool := false

/-- `Status::from_flags`. -/
def Status.fromFlags (f : Flags) : Status :=
  if f.conflicted then .conflicted
  else if f.indexDeleted || f.wtDeleted then .deleted
  else if f.indexNew then .added
  else if f.indexRenamed || f.wtRenamed then .renamed
  else if f.indexTypechange || f.wtTypechange then .typeChange
  else if f.indexModified || f.wtModified then .modified
  else if f.wtNew then .untracked
  else if f.ignored then .ignored
  else .unchanged

/-- `Status::is_staged`. -/
def Status.isStaged (f : Flags) : Bool :=
  f.indexNew || f.indexModified || f.indexDeleted || f.indexRenamed || f.indexTypechange

/-- What is staged has changed. -/
theorem Status.not_isStaged {f : Flags} (h : fromFlags f = .unchanged) : isStaged f = false := by
  unfold fromFlags at h
  split_ifs at h
  simp_all [isStaged]

/-- One row's git state. -/
structure Entry where
  status : Status
  staged : Bool
  deriving DecidableEq

/-- A record of the status list; its path is none where it is no text. -/
structure StatusEntry where
  path : Option Text
  flags : Flags

/-- What the record says of its path. -/
def StatusEntry.entry (r : StatusEntry) : Entry := ⟨.fromFlags r.flags, Status.isStaged r.flags⟩

/-! ## The map -/

/-- `merge`: keep the more severe of two answers for the same path. -/
def merge (entries : Std.ExtTreeMap Bytes Entry) (key : Bytes) (record : Entry) :
    Std.ExtTreeMap Bytes Entry :=
  entries.alter key fun
    | none => some record
    | some existing =>
      some
        { status := if existing.status < record.status then record.status else existing.status
          staged := existing.staged || record.staged }

/-- The folders above a path, from the inside out; the last of them is no folder of the repository. -/
def above : ℕ → PathBuf → List Bytes
  | 0, _ => []
  | n + 1, p =>
    match p.parent with
    | none => []
    | some q => if q.display = [] then [] else q.display :: above n q

/-- One record of the loop of `info`. -/
def record (entries : Std.ExtTreeMap Bytes Entry) (r : StatusEntry) : Std.ExtTreeMap Bytes Entry :=
  match r.path with
  | none => entries
  | some path =>
    if r.entry.status = .unchanged then entries
    else
      -- An untracked directory arrives with a trailing slash.
      let key := path.val.rdropWhile (· == slash)
      (above (components key).length (components key)).foldl (fun m k => merge m k r.entry)
        (merge entries key r.entry)

/-- The entries of `info`. -/
def rollup (rs : List StatusEntry) : Std.ExtTreeMap Bytes Entry := rs.foldl record ∅

/-! ## Records and paths -/

/-- The names with slashes between them. -/
def relText (ns : Path) : Bytes := [slash].intercalate (ns.map Subtype.val)

/-- The path of the record has these names; it may have slashes behind it. -/
def StatusEntry.At (r : StatusEntry) (ns : Path) : Prop :=
  ns ≠ [] ∧ ∃ (t : Text) (n : ℕ), r.path = some t ∧ t.val = relText ns ++ List.replicate n slash

/-- The record is of this path, or of one below it. -/
def StatusEntry.Within (r : StatusEntry) (k : Bytes) : Prop :=
  ∃ ns p : Path, r.At ns ∧ p ≠ [] ∧ p <+: ns ∧ k = relText p

theorem display_names (ns : Path) : PathBuf.display (ns.map fun n => .normal n.val) = relText ns := by
  have hroot : (ns.map fun n => Component.normal n.val) ≠ [.rootDir] := by
    cases ns <;> simp
  rw [PathBuf.display, if_neg hroot, List.map_map]
  rfl

theorem relText_cons (n : Name) (ns : Path) : relText (n :: ns) = n.val ++ Path.render ns := by
  rw [relText, Path.render]
  induction ns generalizing n with
  | nil => simp [List.intercalate]
  | cons m ns ih =>
    have := ih m
    simp only [List.map_cons, List.intercalate, List.intersperse, List.flatten_cons, List.flatMap_cons]
      at this ⊢
    rw [this]
    simp

theorem relText_ne_nil {ns : Path} (h : ns ≠ []) : relText ns ≠ [] := by
  cases ns with
  | nil => exact absurd rfl h
  | cons n ns =>
    rw [relText_cons]
    exact List.append_ne_nil_of_left_ne_nil n.property.1 _

theorem relText_concat (ns : Path) (n : Name) : ∃ a, relText (ns ++ [n]) = a ++ n.val := by
  cases ns with
  | nil => exact ⟨[], by simp [relText_cons, Path.render]⟩
  | cons m ns =>
    exact ⟨m.val ++ Path.render ns ++ [slash], by simp [relText_cons, Path.render, List.flatMap_append]⟩

theorem head_relText (ns : Path) : (relText ns).head? ≠ some slash := by
  cases ns with
  | nil => simp [relText]
  | cons n ns =>
    rw [relText_cons, List.head?_append_of_ne_nil _ n.property.1]
    exact fun hhead => n.property.2.2.2.1 (List.mem_of_mem_head? hhead)

/-- Names are read back from their text. -/
theorem components_relText (ns : Path) : components (relText ns) = ns.map fun n => .normal n.val := by
  rw [components, if_neg (head_relText ns)]
  cases ns with
  | nil => rfl
  | cons n ns =>
    have hsplit : (relText (n :: ns)).splitOn slash = (n :: ns).map Subtype.val := by
      refine List.splitOn_intercalate slash (fun l hl => ?_) (by simp)
      obtain ⟨m, -, rfl⟩ := List.mem_map.1 hl
      exact m.property.2.2.2.1
    have hdot : ((n :: ns).map Subtype.val).head? ≠ some [dot] := by
      simpa using n.property.2.1
    rw [hsplit, if_neg hdot, List.nil_append, List.filterMap_map]
    generalize n :: ns = ms
    induction ms with
    | nil => rfl
    | cons m ms ih =>
      rw [List.filterMap_cons_some (b := .normal m.val) (component_name m), ih, List.map_cons]

theorem relText_injective : Function.Injective relText := by
  intro ns ns' h
  have hmap := congrArg components h
  rw [components_relText, components_relText] at hmap
  refine List.map_injective_iff.2 (fun n n' hn => ?_) hmap
  exact Subtype.ext (Component.normal.inj hn)

theorem rdropWhile_relText (ns : Path) (n : ℕ) :
    (relText ns ++ List.replicate n slash).rdropWhile (· == slash) = relText ns := by
  induction n with
  | zero =>
    rw [List.replicate_zero, List.append_nil, List.rdropWhile_eq_self_iff]
    intro hne hlast
    obtain ⟨init, m, rfl⟩ : ∃ init m, ns = init ++ [m] := by
      rcases List.eq_nil_or_concat' ns with rfl | hns
      · exact absurd rfl hne
      · exact hns
    obtain ⟨a, ha⟩ := relText_concat init m
    have hmem : (relText (init ++ [m])).getLast hne ∈ m.val := by
      simp only [ha, List.getLast_append_of_ne_nil _ m.property.1]
      exact List.getLast_mem _
    rw [beq_iff_eq] at hlast
    exact m.property.2.2.2.1 (hlast ▸ hmem)
  | succ n ih =>
    rw [List.replicate_succ', ← List.append_assoc, List.rdropWhile_concat_pos _ _ _ (by simp), ih]

/-- The folders above a path are what its first names tell. -/
theorem mem_above (ns : Path) (k : Bytes) :
    k ∈ above ns.length (ns.map fun n => .normal n.val) ↔
      ∃ p : Path, p ≠ [] ∧ p <+: ns ∧ p ≠ ns ∧ k = relText p := by
  induction ns using List.reverseRecOn with
  | nil => simp [above]
  | append_singleton ns m ih =>
    have hparent : PathBuf.parent ((ns ++ [m]).map fun n => .normal n.val) =
        some (ns.map fun n => .normal n.val) := by
      simp [PathBuf.parent]
    rw [List.length_append, List.length_singleton, above, hparent]
    simp only [display_names]
    split
    case isTrue hnil =>
      obtain rfl : ns = [] := by_contra fun hns => relText_ne_nil hns hnil
      simp only [List.not_mem_nil, false_iff, List.nil_append]
      rintro ⟨p, hp, hpre, hne, -⟩
      rcases List.prefix_concat_iff.1 (show p <+: [] ++ [m] from hpre) with h | h
      · exact hne h
      · exact hp (List.prefix_nil.1 h)
    case isFalse hnil =>
      rw [List.mem_cons, ih]
      constructor
      · rintro (rfl | ⟨p, hp, hpre, -, rfl⟩)
        · refine ⟨ns, fun h => hnil (by rw [h]; rfl), List.prefix_append _ _, by simp, rfl⟩
        · refine ⟨p, hp, hpre.trans (List.prefix_append _ _), ?_, rfl⟩
          rintro rfl
          simpa using hpre.length_le
      · rintro ⟨p, hp, hpre, hne, rfl⟩
        have hpre' : p <+: ns := (List.prefix_concat_iff.1 hpre).resolve_left hne
        by_cases he : p = ns
        · exact .inl (congrArg relText he)
        · exact .inr ⟨p, hp, hpre', he, rfl⟩

/-! ## What the map holds -/

theorem StatusEntry.At.unique {r : StatusEntry} {ns ns' : Path} (h : r.At ns) (h' : r.At ns') :
    ns = ns' := by
  obtain ⟨-, t, n, hpath, ht⟩ := h
  obtain ⟨-, t', n', hpath', ht'⟩ := h'
  obtain rfl : t = t' := Option.some.inj (hpath.symm.trans hpath')
  have hkey := congrArg (List.rdropWhile (· == slash)) (ht.symm.trans ht')
  rw [rdropWhile_relText, rdropWhile_relText] at hkey
  exact relText_injective hkey

/-- The paths that a record goes to, and what it says. -/
def StatusEntry.pairs (r : StatusEntry) : List (Bytes × Entry) :=
  match r.path with
  | none => []
  | some path =>
    if r.entry.status = .unchanged then []
    else
      let key := path.val.rdropWhile (· == slash)
      (key :: above (components key).length (components key)).map (·, r.entry)

theorem mem_pairs {r : StatusEntry} {ns : Path} (h : r.At ns) (k : Bytes) (e : Entry) :
    (k, e) ∈ r.pairs ↔ r.entry.status ≠ .unchanged ∧ r.Within k ∧ r.entry = e := by
  have hwithin : r.Within k ↔ ∃ p : Path, p ≠ [] ∧ p <+: ns ∧ k = relText p := by
    constructor
    · rintro ⟨ns', p, hat, hp⟩
      exact ⟨p, h.unique hat ▸ hp⟩
    · rintro ⟨p, hp⟩
      exact ⟨ns, p, h, hp⟩
  obtain ⟨hns, t, n, hpath, ht⟩ := h
  rw [StatusEntry.pairs, hpath, hwithin]
  by_cases hs : r.entry.status = .unchanged
  · simp [hs]
  · simp only [hs, if_false, ht, rdropWhile_relText, components_relText, List.length_map, List.mem_map,
      List.mem_cons, mem_above, Prod.mk.injEq, ne_eq, not_false_eq_true, true_and]
    constructor
    · rintro ⟨k', rfl | ⟨p, hp, hpre, -, rfl⟩, rfl, rfl⟩
      · exact ⟨⟨ns, hns, List.prefix_rfl, rfl⟩, rfl⟩
      · exact ⟨⟨p, hp, hpre, rfl⟩, rfl⟩
    · rintro ⟨⟨p, hp, hpre, rfl⟩, rfl⟩
      by_cases he : p = ns
      · exact ⟨_, .inl rfl, congrArg relText he.symm, rfl⟩
      · exact ⟨_, .inr ⟨p, hp, hpre, he, rfl⟩, rfl, rfl⟩

/-- The worse status, and staged where one is. -/
instance : SemilatticeSup Entry where
  sup a b := ⟨a.status ⊔ b.status, a.staged ⊔ b.staged⟩
  le a b := a.status ≤ b.status ∧ a.staged ≤ b.staged
  le_refl _ := ⟨le_rfl, le_rfl⟩
  le_trans _ _ _ h h' := ⟨h.1.trans h'.1, h.2.trans h'.2⟩
  le_antisymm a b h h' := by
    cases a
    cases b
    exact congrArg₂ Entry.mk (h.1.antisymm h'.1) (h.2.antisymm h'.2)
  le_sup_left _ _ := ⟨le_sup_left, le_sup_left⟩
  le_sup_right _ _ := ⟨le_sup_right, le_sup_right⟩
  sup_le _ _ _ h h' := ⟨sup_le h.1 h'.1, sup_le h.2 h'.2⟩

theorem merge_eq (m : Std.ExtTreeMap Bytes Entry) (key : Bytes) (e : Entry) :
    merge m key e = Collect.put m (key, e) := by
  rw [merge, Collect.put]
  congr 1
  funext old
  cases old with
  | none => rfl
  | some a =>
    have hmax : (if a.status < e.status then e.status else a.status) = a.status ⊔ e.status := by
      split
      case isTrue h => rw [sup_eq_right.2 h.le]
      case isFalse h => rw [sup_eq_left.2 (not_lt.1 h)]
    exact congrArg (fun st => some (Entry.mk st (a.staged || e.staged))) hmax

theorem record_eq (m : Std.ExtTreeMap Bytes Entry) (r : StatusEntry) :
    record m r = r.pairs.foldl Collect.put m := by
  rw [record, StatusEntry.pairs]
  split
  · rfl
  · split
    · rfl
    · simp only [merge_eq, List.map_cons, List.foldl_cons, List.foldl_map]

theorem rollup_eq (rs : List StatusEntry) : rollup rs = Collect.collect (rs.flatMap StatusEntry.pairs) := by
  rw [rollup, Collect.collect, List.foldl_flatMap]
  congr 1
  funext m r
  exact record_eq m r

/-- The join of finitely many entries: the worst status among them, and staged where one is. -/
theorem isLUB_entry_iff {s : Set Entry} (hs : s.Finite) (hne : s.Nonempty) (e : Entry) :
    IsLUB s e ↔ IsGreatest (Entry.status '' s) e.status ∧ (e.staged = true ↔ ∃ a ∈ s, a.staged = true) := by
  constructor
  · intro h
    obtain ⟨a, ha, hmax⟩ := hs.exists_maximalFor Entry.status s hne
    have hle (b : Entry) (hb : b ∈ s) : b.status ≤ a.status := (le_total _ _).elim id (hmax hb)
    have hbound : e ≤ ⟨a.status, e.staged⟩ := h.2 fun b hb => ⟨hle b hb, (h.1 hb).2⟩
    have heq : e.status = a.status := hbound.1.antisymm (h.1 ha).1
    refine ⟨heq ▸ ⟨⟨a, ha, rfl⟩, ?_⟩, fun hst => ?_, ?_⟩
    · rintro _ ⟨b, hb, rfl⟩
      exact hle b hb
    · by_contra hnone
      have hfree : e ≤ ⟨e.status, false⟩ := by
        refine h.2 fun b hb => ⟨(h.1 hb).1, ?_⟩
        rw [Bool.eq_false_iff.2 fun hbs => hnone ⟨b, hb, hbs⟩]
      have hfalse : true ≤ false := hst ▸ hfree.2
      exact absurd hfalse (by decide)
    · rintro ⟨b, hb, hbs⟩
      have hstaged := (h.1 hb).2
      rw [hbs] at hstaged
      exact Bool.eq_true_of_true_le hstaged
  · rintro ⟨⟨⟨a, ha, hst⟩, hgreatest⟩, hstaged⟩
    refine ⟨fun b hb => ⟨hgreatest ⟨b, hb, rfl⟩, ?_⟩, fun u hu => ⟨hst ▸ (hu ha).1, ?_⟩⟩
    · exact Bool.le_iff_imp.2 fun hbs => hstaged.2 ⟨b, hb, hbs⟩
    · refine Bool.le_iff_imp.2 fun hes => ?_
      obtain ⟨b, hb, hbs⟩ := hstaged.1 hes
      exact Bool.le_iff_imp.1 (hu hb).2 hbs

/-- What is said of a path, without what says nothing, has the same greatest status. -/
theorem isGreatest_changed_iff {s : Set StatusEntry} {r : StatusEntry} (hr : r ∈ s)
    (hchanged : r.entry.status ≠ .unchanged) (st : Status) :
    IsGreatest {st | ∃ r ∈ s, r.entry.status ≠ .unchanged ∧ r.entry.status = st} st ↔
      IsGreatest {st | ∃ r ∈ s, r.entry.status = st} st := by
  constructor
  · rintro ⟨⟨r', hr', -, rfl⟩, hle⟩
    refine ⟨⟨r', hr', rfl⟩, ?_⟩
    rintro _ ⟨a, ha, rfl⟩
    by_cases hs : a.entry.status = .unchanged
    · exact hs ▸ Status.unchanged_le _
    · exact hle ⟨a, ha, hs, rfl⟩
  · rintro ⟨⟨r', hr', rfl⟩, hle⟩
    refine ⟨⟨r', hr', fun hs => hchanged ?_, rfl⟩, ?_⟩
    · exact (hs ▸ hle ⟨r, hr, rfl⟩).antisymm (Status.unchanged_le _)
    · rintro _ ⟨a, ha, -, rfl⟩
      exact hle ⟨a, ha, rfl⟩

theorem valid_folder : Utf8.valid (text "a/b/") = true := by decide

theorem valid_file : Utf8.valid (text "a") = true := by decide

/-- A record of the path `a/b/`, modified. -/
def someRecord : StatusEntry where
  path := some ⟨text "a/b/", valid_folder⟩
  flags := { wtModified := true }

theorem someRecord_at : someRecord.At (Path.of ["a", "b"]) :=
  ⟨by decide, ⟨text "a/b/", valid_folder⟩, 1, rfl, by decide⟩

end Aurade.Git
