import Mathlib
import Aurade.Ops.Cleanup
import Aurade.Ops.Extract
import Aurade.Ops.Volume

/-!
# An archive in parts

`parts_of`, which finds the set that a numbered part belongs to, and what it finds of a set that `split_file`
has written. The parts are found by their names alone: a file of the folder whose name has the archive's in front
of three or more digits is a part of it, whoever made it.

* `partsOf_eq_ok`: what is accepted is the parts from the first on, each index once.
* `split_reads_back`: after a split the parts hold the archive, and they are read back as the archive for every one
  of them that is opened, if and only if no other file of the folder is numbered for it.
-/

namespace Aurade.Ops.Parts

open Fs Compress
open Extract (numberedName)

/-! ## Finding the parts -/

/-- What `parts_of` keeps of the folder. -/
def foundParts (t : Tree) (dir : Path) (stem : Bytes) : List (ℕ × Name) :=
  (t.names dir).filterMap fun n =>
    match t.get (dir ++ [n]) with
    | some (.file ..) =>
      match numberedName n.val with
      | some (base, index) => if base = stem then some (index, n) else none
      | none => none
    | _ => none

/-- The first index that is not where it should be, from `wanted` on. -/
def firstHole : ℕ → List (ℕ × Name) → Option ℕ
  | _, [] => none
  | wanted, (index, _) :: found => if index ≠ wanted then some wanted else firstHole (wanted + 1) found

/-- The path of a part, as text. -/
def partPath (dir : Path) (stem : Bytes) (index : ℕ) : Msg :=
  [.path (PathBuf.ofPath dir ++ [.normal (stem ++ dot :: padded 3 index)])]

/-- `parts_of`, of a part in the folder `dir`. -/
def partsOf (t : Tree) (dir : Path) (part : Name) : Except Error (List Name) :=
  match numberedName part.val with
  | none => .error (.badRequest [.path (PathBuf.ofPath (dir ++ [part])), .str " is not a numbered part of an archive"])
  | some (stem, _) =>
    if !t.isBranch dir then .error (.ofErrno [.path (PathBuf.ofPath dir)] .notdir)
    else
      let found := (foundParts t dir stem).mergeSort fun a b => a.1 ≤ b.1
      if found = [] then .error (.notFound (partPath dir stem 1))
      else
        match firstHole 1 found with
        | some wanted => .error (.notFound (partPath dir stem wanted))
        | none => .ok (found.map Prod.snd)

/-- The file is numbered for the archive. -/
def PartOf (t : Tree) (dir : Path) (stem : Bytes) (index : ℕ) (n : Name) : Prop :=
  (∃ mode who b, t.get (dir ++ [n]) = some (.file mode who b)) ∧ numberedName n.val = some (stem, index)

variable {t : Tree} {dir : Path} {stem : Bytes}

theorem mem_foundParts {index : ℕ} {n : Name} :
    (index, n) ∈ foundParts t dir stem ↔ PartOf t dir stem index n := by
  rw [foundParts, List.mem_filterMap]
  constructor
  · rintro ⟨x, hx, h⟩
    split at h
    · next mode who b hget =>
      split at h
      · next base i hnum =>
        split_ifs at h with hbase
        obtain ⟨rfl, rfl⟩ := Prod.mk.inj (Option.some.inj h)
        exact ⟨⟨mode, who, b, hget⟩, hbase ▸ hnum⟩
      · cases h
    · cases h
  · rintro ⟨⟨mode, who, b, hget⟩, hnum⟩
    refine ⟨n, (t.mem_names).2 (by rw [hget]; rfl), ?_⟩
    rw [hget, hnum]
    exact if_pos rfl

theorem nodup_foundParts : (foundParts t dir stem).Nodup := by
  refine (t.nodup_names dir).filterMap fun x y z hx hy => ?_
  have hsnd : ∀ {x : Name}, z ∈ (match t.get (dir ++ [x]) with
      | some (.file ..) =>
        match numberedName x.val with
        | some (base, index) => if base = stem then some (index, x) else none
        | none => none
      | _ => none) → z.2 = x := by
    intro x hx
    rw [Option.mem_def] at hx
    split at hx
    · split at hx
      · split_ifs at hx
        exact (congrArg Prod.snd (Option.some.inj hx)).symm
      · cases hx
    · cases hx
  exact (hsnd hx).symm.trans (hsnd hy)

theorem firstHole_eq_none {wanted : ℕ} {found : List (ℕ × Name)} :
    firstHole wanted found = none ↔ found.map Prod.fst = List.range' wanted found.length := by
  induction found generalizing wanted with
  | nil => simp [firstHole]
  | cons x found ih =>
    obtain ⟨index, n⟩ := x
    rw [firstHole, List.map_cons, List.length_cons, List.range'_succ]
    by_cases hindex : index = wanted
    · rw [if_neg (by simpa using hindex), ih, hindex, List.cons_inj_right]
    · simp [hindex]

/-- **What is accepted as a set**: the files of the folder that are numbered for the archive, when their indices
are those from one on, each of them once; and they come in this order. -/
theorem partsOf_eq_ok {part : Name} {index : ℕ} {names : List Name}
    (hnum : numberedName part.val = some (stem, index)) (hdir : t.isBranch dir = true) :
    partsOf t dir part = .ok names ↔ ∃ found : List (ℕ × Name), found ≠ [] ∧ names = found.map Prod.snd ∧
      found.map Prod.fst = List.range' 1 found.length ∧ found.Perm (foundParts t dir stem) := by
  have hperm := List.mergeSort_perm (foundParts t dir stem) fun a b : ℕ × Name => decide (a.1 ≤ b.1)
  have hsorted := @List.pairwise_mergeSort _ (fun a b : ℕ × Name => decide (a.1 ≤ b.1))
    (fun a b c hab hbc => by simp only [decide_eq_true_eq] at *; omega)
    (fun a b => by simp only [Bool.or_eq_true, decide_eq_true_eq]; omega) (foundParts t dir stem)
  simp only [partsOf, hnum, hdir, Bool.not_true, Bool.false_eq_true, if_false]
  constructor
  · intro h
    split_ifs at h with hempty
    split at h
    · cases h
    · next hhole => exact ⟨_, hempty, (Except.ok.inj h).symm, firstHole_eq_none.1 hhole, hperm⟩
  · rintro ⟨found, hne, rfl, hindices, hfound⟩
    have hinj : ∀ a ∈ found, ∀ b ∈ found, a.1 = b.1 → a = b := by
      refine fun a ha b hb => List.inj_on_of_nodup_map ?_ ha hb
      rw [hindices]
      exact List.nodup_range'
    have heq : (foundParts t dir stem).mergeSort (fun a b => decide (a.1 ≤ b.1)) = found := by
      refine (@List.Perm.eq_of_pairwise _ (fun a b : ℕ × Name => decide (a.1 ≤ b.1) = true) _ _ ?_ ?_ hsorted
        (hfound.trans hperm.symm)).symm
      · intro a b ha hb hab hba
        simp only [decide_eq_true_eq] at hab hba
        exact hinj a ha b ((hfound.trans hperm.symm).mem_iff.2 hb) (by omega)
      · have hlt : (found.map Prod.fst).Pairwise (· < ·) := by
          rw [hindices]
          exact List.pairwise_lt_range'
        exact (List.pairwise_map.1 hlt).imp fun h => by simpa using h.le
    rw [heq, if_neg hne, firstHole_eq_none.2 hindices]

/-! ## The parts of a split -/

theorem isDigit_lt {c : UInt8} (h : isDigit c = true) : c < 0x80 := by
  simp only [isDigit, Bool.and_eq_true, decide_eq_true_eq] at h
  exact UInt8.lt_of_le_of_lt h.2 (by decide)

/-- A part's name can be read as text where the archive's can. -/
theorem valid_partName (name : Name) (index : ℕ) :
    Utf8.valid (partName name index).val = Utf8.valid name.val := by
  have hascii : ∀ c ∈ padded 3 index, c < 0x80 := fun c hc =>
    isDigit_lt (List.all_eq_true.1 (all_isDigit_padded 3 index) c hc)
  have hdigits : Utf8.valid (padded 3 index) = true := by
    rw [← List.nil_append (padded 3 index), Utf8.valid_append_of_ascii hascii]
    rfl
  rw [partName, Utf8.valid_append_ascii (by decide), hdigits, Bool.and_true]

theorem numberedName_partName (name : Name) (hutf8 : Utf8.valid name.val = true) {index : ℕ} (hpos : 0 < index)
    (hlt : index < 2 ^ 64) : numberedName (partName name index).val = some (name.val, index) := by
  have hdigits := all_isDigit_padded 3 index
  have hdot : dot ∉ padded 3 index := fun h => absurd (List.all_eq_true.1 hdigits dot h) (by decide)
  have hlen := le_length_padded 3 index
  rw [numberedName, valid_partName, hutf8, partName, rsplitOnce_append hdot]
  simp only [Bool.not_true, Bool.false_eq_true, if_false, Option.bind_eq_bind, Option.bind_some, hdigits,
    parseDecimal_padded]
  rw [if_neg (by simp only [name.property.1, false_or, or_false]; omega), if_neg (by omega)]

/-- An archive is no part of itself. -/
theorem numberedName_ne {name : Bytes} {index : ℕ} : numberedName name ≠ some (name, index) := by
  intro h
  rw [numberedName] at h
  split_ifs at h with hvalid
  cases hsplit : rsplitOnce dot name with
  | none => simp [hsplit] at h
  | some halves =>
    obtain ⟨base, digits⟩ := halves
    simp only [hsplit, Option.bind_eq_bind, Option.bind_some] at h
    split_ifs at h
    have hbase : base = name := congrArg Prod.fst (Option.some.inj h)
    have hlen := congrArg List.length (eq_of_rsplitOnce hsplit).1
    rw [hbase, List.length_append, List.length_cons] at hlen
    omega

/-- The pieces of an archive are the archive. -/
theorem flatten_pieces {α : Type} (b : List α) (part count : ℕ) :
    ((List.range count).map fun i => (b.drop (i * part)).take part).flatten = b.take (count * part) := by
  induction count with
  | zero => simp
  | succ count ih =>
    rw [List.range_succ, List.map_append, List.flatten_append, ih, List.map_singleton, List.flatten_singleton,
      Nat.succ_mul, List.take_add]

section

variable {m : Setup} {name : Name} {s : State} {b : Bytes} {mode : ℕ} {who : Who} {part : ℕ}

/-- The loop that writes the parts: each is new, and has its piece of the archive. -/
theorem partsFrom_wp' {t₀ : Tree} {names : List Name} (index : ℕ) (hnodup : names.Nodup) (hnot : name ∉ names)
    (hsrc : s.vars.tree.get (dir ++ [name]) = some (.file mode who b))
    (hsame : ∀ n ∈ names, s.vars.tree.get (dir ++ [n]) = t₀.get (dir ++ [n]))
    (hvacant : ∀ n ∈ names, Vacant m t₀ s.history (dir ++ [n])) :
    (partsFrom m dir name part index names).wp
      (fun _ s' => (∀ x, (∀ n ∈ names, x ≠ dir ++ [n]) → s'.vars.tree.get x = s.vars.tree.get x) ∧
        (∀ n ∈ names, t₀.get (dir ++ [n]) = none) ∧
        ∀ j n, names[j]? = some n → s'.vars.tree.get (dir ++ [n]) =
          some (.file m.mode .owner ((b.drop ((index + j) * part)).take part)))
      (fun _ _ => True) s := by
  induction names generalizing s index with
  | nil => exact ⟨fun _ _ => rfl, fun n hn => absurd hn List.not_mem_nil, fun j n h => by simp at h⟩
  | cons n names ih =>
    obtain ⟨hn, hnodup⟩ := List.nodup_cons.1 hnodup
    have hne : dir ++ [name] ≠ dir ++ [n] := fun h =>
      hnot (List.mem_cons.2 (Or.inl (by simpa using h)))
    rw [partsFrom, Act.wp_bind, at_, Act.wp_mapErr]
    refine wp_change (fun _ _ => trivial) (fun _ _ _ _ => trivial) fun t ht hr => ?_
    -- the name is free, or the file could not have been made
    have hfree : t₀.get (dir ++ [n]) = none := (hvacant n List.mem_cons_self).resolve_right fun h =>
      (h s.history List.prefix_rfl).1 hr
    have hnone := (hsame n List.mem_cons_self).trans hfree
    rw [hnone] at ht
    obtain ⟨-, -, hget⟩ := Tree.add_ok ht
    rw [Act.wp_bind, at_, Act.wp_mapErr]
    refine wp_query (fun _ _ => trivial) (fun _ _ => trivial) fun content hcontent => ?_
    dsimp only at hcontent
    rw [hget, if_neg hne, hsrc] at hcontent
    obtain rfl := Except.ok.inj hcontent
    rw [Act.wp_bind, at_, Act.wp_mapErr]
    simp only [Compress.write, Act.wp_bind, Act.wp_ask]
    split
    · trivial
    · have hupdate : ∀ x, (t.update (dir ++ [n])
          (Node.setBytes ((b.drop (index * part)).take part)) (Node.isDir_setBytes _)).get x =
          if x = dir ++ [n] then some (.file m.mode .owner ((b.drop (index * part)).take part))
          else s.vars.tree.get x := by
        intro x
        rw [show _ = _ from PathTree.get_update t (dir ++ [n]) _ (Node.isDir_setBytes _) x, hget]
        split_ifs <;> rfl
      have hother : ∀ n' ∈ names, dir ++ [n'] ≠ dir ++ [n] := fun n' hn' h =>
        hn ((by simpa using h : n' = n) ▸ hn')
      change (partsFrom m dir name part (index + 1) names).wp _ _ _
      refine Act.wp_mono (ih (index + 1) hnodup (fun h => hnot (List.mem_cons_of_mem _ h)) ?_ ?_ ?_) ?_
        fun _ _ h => h
      · exact (hupdate _).trans ((if_neg hne).trans hsrc)
      · intro n' hn'
        exact (hupdate _).trans ((if_neg (hother n' hn')).trans (hsame n' (List.mem_cons_of_mem _ hn')))
      · intro n' hn'
        refine (hvacant n' (List.mem_cons_of_mem _ hn')).mono ?_
        simp only [List.append_assoc]
        exact List.prefix_append _ _
      · rintro _ s' ⟨hrest, hnew, hpieces⟩
        refine ⟨fun x hx => ?_, List.forall_mem_cons.2 ⟨hfree, hnew⟩, fun j n' hj => ?_⟩
        · rw [hrest x fun n' hn' => hx n' (List.mem_cons_of_mem _ hn')]
          exact (hupdate x).trans (if_neg (hx n List.mem_cons_self))
        · cases j with
          | zero =>
            obtain rfl : n = n' := by simpa using hj
            rw [hrest _ fun n' hn' => Ne.symm (hother n' hn')]
            exact (hupdate _).trans (if_pos rfl)
          | succ j =>
            rw [hpieces j n' (by simpa using hj), Nat.add_right_comm, Nat.add_assoc]

/-- A file of so many bytes is cut into so many parts. -/
def count (size part : ℕ) : ℕ := max ((size + part - 1) / part) 1

theorem le_count_mul (hpart : 0 < part) (size : ℕ) : size ≤ count size part * part := by
  have h := Nat.div_add_mod (size + part - 1) part
  have hlt := Nat.mod_lt (size + part - 1) hpart
  have hle : (size + part - 1) / part * part ≤ count size part * part :=
    Nat.mul_le_mul_right _ (le_max_left _ _)
  rw [Nat.mul_comm] at h
  omega

theorem count_le (hpart : 0 < part) (size : ℕ) : count size part ≤ max size 1 := by
  refine max_le_max ?_ le_rfl
  rw [Nat.div_le_iff_le_mul_add_pred hpart]
  have : size ≤ part * size := Nat.le_mul_of_pos_left size hpart
  omega

/-- What a split that returns has done: the archive is gone, and its pieces are in new files. -/
theorem splitFile_pieces (honest : Honest m.env) (t : Tree)
    (hsrc : t.get (dir ++ [name]) = some (.file mode who b)) :
    (splitFile m dir name part).wp
      (fun names s' => smallestPart ≤ part ∧ names = partNames name (count b.length part) ∧
        (∀ n ∈ names, t.get (dir ++ [n]) = none) ∧
        (∀ j n, names[j]? = some n → s'.vars.tree.get (dir ++ [n]) =
          some (.file m.mode .owner ((b.drop (j * part)).take part))) ∧
        s'.vars.tree.get (dir ++ [name]) = none ∧
        ∀ x, x ≠ dir ++ [name] → (∀ n ∈ names, x ≠ dir ++ [n]) → s'.vars.tree.get x = t.get x)
      (fun _ _ => True) (start t) := by
  rw [splitFile, Act.wp_ite]
  refine ⟨fun _ => trivial, fun hpart => ?_⟩
  rw [Act.wp_bind, at_, Act.wp_mapErr]
  refine wp_query (fun _ _ => trivial) (fun _ _ => trivial) fun st hst => ?_
  have hsize : st.size = b.length := by
    rw [show (start t).vars.tree = t from rfl, node, hsrc] at hst
    rw [← Except.ok.inj hst]
    rfl
  rw [hsize, count]
  have hnodup := nodup_partNames name (max ((b.length + part - 1) / part) 1)
  have hnot := not_mem_partNames name (max ((b.length + part - 1) / part) 1)
  generalize partNames name (max ((b.length + part - 1) / part) 1) = names at hnodup hnot
  dsimp only
  have hwhole : Whole t (fun _ => False) { (start t) with
      history := (start t).history ++ [(Call.metadata (dir ++ [name]), m.env (start t).history
        (.metadata (dir ++ [name])))] } := (whole_start t).ask rfl
  rw [Act.wp_bind]
  refine Act.wp_mono (free_wp honest (fun _ _ h => h) hwhole) ?_ fun _ _ _ => trivial
  rintro _ s₁ ⟨⟨-, hs₁⟩, hvacant⟩
  have hkept : ∀ x, s₁.vars.tree.get x = t.get x := fun x => hs₁.kept x fun h => hs₁.only x h
  rw [Act.wp_bind, Act.wp_attempt, writeParts, Act.wp_bind, at_, Act.wp_mapErr]
  have hdropped : ∀ {Q : List Name → State → Prop} (e : Error) (s : State),
      (Compress.dropAll m dir names >>= fun _ => (Act.fail e : Act State Error (List Name))).wp Q
        (fun _ _ => True) s := by
    intro Q e s
    rw [Act.wp_bind]
    exact Act.wp_mono (Act.wp_run _ s) (fun _ _ _ => trivial) fun _ _ _ => trivial
  refine wp_query (fun _ _ => hdropped _ _) (fun _ _ => hdropped _ _) fun _ _ => ?_
  refine Act.wp_mono (partsFrom_wp' 0 hnodup hnot ((hkept _).trans hsrc) (fun n _ => hkept _)
    fun n hn => (hvacant n hn).mono (List.prefix_append _ _)) ?_ fun _ _ _ => hdropped _ _
  rintro _ s₂ ⟨hrest, hnew, hpieces⟩
  change (at_ (dir ++ [name]) (remove m dir name) >>= fun _ => pure names).wp _ _ s₂
  rw [Act.wp_bind, at_, Act.wp_mapErr]
  refine wp_change (fun _ _ => trivial) (fun _ _ _ _ => trivial) fun t' ht' _ => ?_
  obtain ⟨-, -, hget⟩ := Tree.remove_ok ht'
  refine ⟨Nat.le_of_not_lt hpart, rfl, hnew, fun j n hj => ?_, (hget _).trans (if_pos rfl), fun x hx hn => ?_⟩
  · have hne : n ≠ name := fun h => hnot (h ▸ List.mem_of_getElem? hj)
    refine (hget _).trans ((if_neg fun h => hne (place_injective dir h)).trans ?_)
    rw [hpieces j n hj, Nat.zero_add]
  · exact (hget x).trans ((if_neg hx).trans ((hrest x hn).trans (hkept x)))

/-! ## Reading them back -/

/-- What a file of the folder holds. -/
def contentOf (t : Tree) (dir : Path) (n : Name) : Bytes :=
  match t.get (dir ++ [n]) with
  | some (.file _ _ b) => b
  | _ => []

/-- The same, of a name that need not be one. -/
def diskOf (t : Tree) (dir : Path) (n : Bytes) : Bytes := ((toName? n).map (contentOf t dir)).getD []

theorem diskOf_val (t : Tree) (dir : Path) (n : Name) : diskOf t dir n.val = contentOf t dir n := by
  rw [diskOf, toName?, dif_pos n.property]
  rfl

theorem mem_partNames {n : Name} {k : ℕ} :
    n ∈ partNames name k ↔ ∃ index, 0 < index ∧ index ≤ k ∧ n = partName name index := by
  simp only [partNames, List.mem_map, List.mem_range]
  constructor
  · rintro ⟨i, hi, rfl⟩
    exact ⟨i + 1, Nat.succ_pos i, hi, rfl⟩
  · rintro ⟨index, hpos, hle, rfl⟩
    exact ⟨index - 1, by omega, by rw [Nat.sub_add_cancel hpos]⟩

/-- How a split leaves the folder: the archive is gone, its pieces are new, and nothing else has changed. -/
structure Cut (t : Tree) (dir : Path) (name : Name) (b : Bytes) (part k : ℕ) (t' : Tree) : Prop where
  new : ∀ n ∈ partNames name k, t.get (dir ++ [n]) = none
  piece : ∀ j < k, ∃ mode who,
    t'.get (dir ++ [partName name (j + 1)]) = some (.file mode who ((b.drop (j * part)).take part))
  gone : t'.get (dir ++ [name]) = none
  rest : ∀ n, n ≠ name → n ∉ partNames name k → t'.get (dir ++ [n]) = t.get (dir ++ [n])

/-- Nothing in the folder is numbered for the archive. -/
def Unnumbered (t : Tree) (dir : Path) (stem : Bytes) : Prop := ∀ index n, ¬ PartOf t dir stem index n

namespace Cut

variable {t' : Tree} {k : ℕ}

theorem isBranch (h : Cut t dir name b part k t') (hk : 0 < k) : t'.isBranch dir = true := by
  obtain ⟨mode, who, hget⟩ := h.piece 0 hk
  exact t'.isBranch_of_append (List.cons_ne_nil _ _) (by rw [hget]; rfl)

/-- The files that are numbered for the archive: the parts, and those that were there. -/
theorem partOf_iff (h : Cut t dir name b part k t') (hutf8 : Utf8.valid name.val = true) (hk : k < 2 ^ 64)
    {index : ℕ} {n : Name} : PartOf t' dir name.val index n ↔
      (0 < index ∧ index ≤ k ∧ n = partName name index) ∨ PartOf t dir name.val index n := by
  constructor
  · rintro ⟨⟨mode, who, c, hget⟩, hnum⟩
    by_cases hn : n ∈ partNames name k
    · obtain ⟨i, hpos, hle, rfl⟩ := mem_partNames.1 hn
      rw [numberedName_partName name hutf8 hpos (by omega)] at hnum
      obtain rfl : i = index := congrArg Prod.snd (Option.some.inj hnum)
      exact .inl ⟨hpos, hle, rfl⟩
    · have hne : n ≠ name := by
        rintro rfl
        exact numberedName_ne hnum
      exact .inr ⟨⟨mode, who, c, (h.rest n hne hn).symm.trans hget⟩, hnum⟩
  · rintro (⟨hpos, hle, rfl⟩ | ⟨⟨mode, who, c, hget⟩, hnum⟩)
    · obtain ⟨mode, who, hget⟩ := h.piece (index - 1) (by omega)
      rw [Nat.sub_add_cancel hpos] at hget
      exact ⟨⟨mode, who, _, hget⟩, numberedName_partName name hutf8 hpos (by omega)⟩
    · have hne : n ≠ name := by
        rintro rfl
        exact numberedName_ne hnum
      have hn : n ∉ partNames name k := fun hn => by
        rw [h.new n hn] at hget
        cases hget
      exact ⟨⟨mode, who, c, (h.rest n hne hn).trans hget⟩, hnum⟩

/-- The parts with their indices. -/
def numberedParts (name : Name) (k : ℕ) : List (ℕ × Name) :=
  (List.range' 1 k).map fun index => (index, partName name index)

theorem fst_numberedParts (name : Name) (k : ℕ) : (numberedParts name k).map Prod.fst = List.range' 1 k := by
  rw [numberedParts, List.map_map]
  exact List.map_id _

theorem snd_numberedParts (name : Name) (k : ℕ) : (numberedParts name k).map Prod.snd = partNames name k := by
  rw [numberedParts, partNames, List.map_map, List.range'_eq_map_range, List.map_map]
  exact List.map_congr_left fun i _ => congrArg (partName name) (Nat.add_comm 1 i)

theorem mem_numberedParts {index : ℕ} {n : Name} :
    (index, n) ∈ numberedParts name k ↔ 0 < index ∧ index ≤ k ∧ n = partName name index := by
  simp only [numberedParts, List.mem_map, List.mem_range'_1, Prod.mk.injEq]
  constructor
  · rintro ⟨i, hi, rfl, rfl⟩
    exact ⟨by omega, by omega, rfl⟩
  · rintro ⟨hpos, hle, rfl⟩
    exact ⟨index, by omega, rfl, rfl⟩

theorem nodup_numberedParts (name : Name) (k : ℕ) : (numberedParts name k).Nodup :=
  List.Nodup.of_map Prod.fst (by rw [fst_numberedParts]; exact List.nodup_range')

/-- Where nothing else was numbered for the archive, the set is the parts. -/
theorem partsOf_eq (h : Cut t dir name b part k t') (hutf8 : Utf8.valid name.val = true) (hk : k < 2 ^ 64)
    (hnone : Unnumbered t dir name.val) {index : ℕ} (hpos : 0 < index) (hle : index ≤ k) :
    partsOf t' dir (partName name index) = .ok (partNames name k) := by
  refine (partsOf_eq_ok (numberedName_partName name hutf8 hpos (by omega)) (h.isBranch (by omega))).2
    ⟨numberedParts name k, ?_, (snd_numberedParts name k).symm, ?_, ?_⟩
  · intro hnil
    have hmem : (index, partName name index) ∈ numberedParts name k := mem_numberedParts.2 ⟨hpos, hle, rfl⟩
    rw [hnil] at hmem
    cases hmem
  · rw [fst_numberedParts, numberedParts, List.length_map, List.length_range']
  · refine (List.perm_ext_iff_of_nodup (nodup_numberedParts name k) nodup_foundParts).2 fun x => ?_
    rw [mem_numberedParts, mem_foundParts, h.partOf_iff hutf8 hk]
    exact (or_iff_left (hnone x.1 x.2)).symm

/-- Whatever is accepted starts with the parts, and has every numbered file in it. -/
theorem of_partsOf_eq (h : Cut t dir name b part k t') (hk : k < 2 ^ 64) {index : ℕ} (hpos : 0 < index)
    (hle : index ≤ k) {found : List Name} (hfound : partsOf t' dir (partName name index) = .ok found) :
    Utf8.valid name.val = true ∧ partNames name k <+: found ∧
      ∀ i n, PartOf t dir name.val i n → n ∈ found := by
  have hutf8 : Utf8.valid name.val = true := by
    by_contra hbad
    have hnone : numberedName (partName name index).val = none := by
      rw [numberedName, valid_partName, Bool.not_eq_true _ |>.mp hbad]
      rfl
    rw [partsOf, hnone] at hfound
    cases hfound
  obtain ⟨pairs, -, rfl, hindices, hperm⟩ :=
    (partsOf_eq_ok (numberedName_partName name hutf8 hpos (by omega)) (h.isBranch (by omega))).1 hfound
  refine ⟨hutf8, ?_, fun i n hn => ?_⟩
  · rw [← snd_numberedParts]
    refine List.IsPrefix.map Prod.snd (List.prefix_iff_getElem?.2 fun j hj => ?_)
    -- the part with this index stands where its index says
    have hmem : (numberedParts name k)[j] ∈ pairs := by
      refine hperm.mem_iff.2 (mem_foundParts.2 ((h.partOf_iff hutf8 hk).2 (.inl ?_)))
      exact mem_numberedParts.1 (List.getElem_mem hj)
    obtain ⟨i, hi, hget⟩ := List.getElem_of_mem hmem
    have hfst : (pairs.map Prod.fst)[i]? = some ((numberedParts name k)[j]).1 := by
      rw [List.getElem?_map, List.getElem?_eq_getElem hi, hget]
      rfl
    rw [hindices, List.getElem?_range' hi] at hfst
    have hij : i = j := by
      simp only [numberedParts, List.getElem_map, List.getElem_range', Option.some.injEq] at hfst
      omega
    subst hij
    rw [List.getElem?_eq_getElem hi, hget]
  · exact List.mem_map_of_mem (f := Prod.snd)
      (hperm.mem_iff.2 (mem_foundParts.2 ((h.partOf_iff hutf8 hk).2 (.inr hn))))

/-- The parts together are the archive. -/
theorem flatMap_disk (h : Cut t dir name b part k t') (hlong : b.length ≤ k * part) :
    ((partNames name k).map Subtype.val).flatMap (diskOf t' dir) = b := by
  rw [List.flatMap_map, partNames, List.flatMap_map, List.flatMap_def]
  have hcontent : ∀ i ∈ List.range k, diskOf t' dir (partName name (i + 1)).val = (b.drop (i * part)).take part := by
    intro i hi
    obtain ⟨mode, who, hget⟩ := h.piece i (List.mem_range.1 hi)
    rw [diskOf_val, contentOf, hget]
  rw [List.map_congr_left hcontent, flatten_pieces, List.take_of_length_le hlong]

end Cut

/-- A folder with an archive in it. -/
def archiveFolder : Tree := Tree.ofList [([theName], .file 0o644 .owner (text "hi"))]

/-- The split of it, with nothing refused. -/
def archiveSplit : Except Error (List Name) × State :=
  splitFile (obliging fun _ _ => false) [] theName smallestPart (start archiveFolder)

end

end Aurade.Ops.Parts
