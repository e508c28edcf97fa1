import Aurade.Ops.NoOverwrite

/-!
# New folder with selection, when it fails

`folder_with_selection` makes a folder, moves the selection into it, and removes the folder again
where the move fails. The removal takes an empty folder only, so it puts everything back
(`PutBack`) where the move failed before it had changed anything (`FailsFirst`) and the two calls of
the removal are let through (`Clears`), and nowhere else.
-/

namespace Aurade.Ops

open Fs

variable {k : Kernel} {rep : Reporter} {w w' : World}

/-- Every node is where it was, and no other is there. -/
def PutBack (w w' : World) : Prop := ∀ x, w'.fs.get x = w.fs.get x

variable (k rep) in
/-- The move fails before it has changed anything: in what comes before its loop, or in the turn of
the first source. -/
def FailsFirst (sources : List PathBuf) (folder : PathBuf) (w w' : World) : Prop :=
  (∃ e, prepare k sources [] folder w = (.error e, w')) ∨
    ∃ dest first items w₁ e, prepare k sources [] folder w = (.ok (dest, first :: items), w₁) ∧
      runItem k rep dest folder .keepBoth true first w₁ = (.error e, w') ∧ PutBack w₁ w'

variable (k) in
/-- The kernel lets the directory of the folder be opened and the folder be removed. -/
def Clears (folder : PathBuf) (w : World) : Prop :=
  ∃ d n, k.place w.fs folder = some (d ++ [n]) ∧ k.refuse w.clock (.open d) w.fs = none ∧
    k.refuse (w.clock + 1) (.rmdir (d ++ [n])) w.fs = none

theorem PutBack.of_fs (h : w'.fs = w.fs) : PutBack w w' := fun x => by rw [h]

/-! ## One source -/

/-- Whatever a rename takes, it puts down below its destination. -/
theorem outside_renameTo (root dest : Root) (n m : Name) :
    Act.Stays (Outside dest.dir) (root.renameTo k n.rel dest m.rel) := by
  refine Act.Stays.of_wp fun w => Act.wp_mono (Root.renameTo_spec root dest n m w) ?_ ?_
  · rintro _ w' ⟨t, rfl, -, -, hren⟩
    obtain ⟨-, -, ⟨-, rfl⟩ | ⟨-, -, hx⟩⟩ := Tree.rename_ok hren
    · exact Outside.of_fs rfl
    · intro x hout
      rw [World.turn_fs, hx x, if_neg fun hq => hout ((List.prefix_append _ _).trans hq)]
      split
      · exact Or.inl rfl
      · exact Or.inr rfl
  · rintro _ w' ⟨rfl, -⟩
    exact Outside.of_fs rfl

theorem outside_move (srcRoot : Root) (name : Name) (dest : Root) (target : Name) :
    Act.Stays (Outside dest.dir) (transfer k rep srcRoot name dest target true) := by
  refine outside_bind (Act.Stays.attempt (outside_renameTo srcRoot dest name target)) fun r => ?_
  cases r with
  | ok =>
    refine outside_bind (outside_looks (looks_measure _)) ?_
    rintro ⟨items, bytes⟩
    exact outside_bind (outside_setOut _) fun _ => outside_bind (fun _ => Outside.of_fs rfl)
      fun _ _ => Outside.of_fs rfl
  | error e =>
    split
    · next heq => cases heq
    · exact outside_copyOver _ _ _ _ _
    · exact fun _ => Outside.of_fs rfl

/-- A turn of the move puts nodes into the folder only. -/
theorem outside_turn (dest : Root) (destDir : PathBuf) (item : PathBuf × Option Name) :
    Act.Stays (Outside dest.dir) (runItem k rep dest destDir .keepBoth true item) := by
  refine outside_bind (outside_looks (looks_split _)) fun r => ?_
  refine outside_bind (outside_looks (looks_metadata _ _)) fun st => ?_
  refine outside_bind (outside_looks (looks_holdsDest _ _ _)) fun inside => ?_
  refine Act.Stays.ite (fun _ _ => Outside.of_fs rfl) fun _ => Act.Stays.of_wp fun w => ?_
  simp only [Act.wp_bind]
  refine Act.wp_mono (resolveConflict_spec dest _ item.1 (by simp) w) ?_
    (fun _ _ hl => Outside.of_fs hl.1)
  rintro (_ | target) w₁ ⟨hfs, -⟩
  · exact Outside.of_fs hfs
  · simp only [Act.wp_bind, wp_noteRenamed]
    have ho : Outside dest.dir w w₁ := Outside.of_fs hfs
    exact Act.wp_mono ((outside_move r.1 r.2 dest target).wp _) (fun _ _ h => ho.trans h)
      (fun _ _ h => ho.trans h)

/-- The folder as the turns of the move find it: where its path leads, a directory, and empty when
the first of them comes. -/
structure Empty (k : Kernel) (dest : Root) (destDir : PathBuf) (w : World) : Prop where
  leads : k.resolve w.fs destDir = .ok dest.dir
  isDir : w.fs.isBranch dest.dir = true
  empty : w.fs.names dest.dir = []

/-- A source that gets past the question whether the folder is inside it is apart from the
folder. -/
theorem apart_of_holdsDest {dest : Root} {destDir src : PathBuf} (h : Empty k dest destDir w)
    {p : Path} {n : Name} {nd : Node} (hplace : k.place w.fs src = some (p ++ [n]))
    (hnd : w.fs.get (p ++ [n]) = some nd) :
    (holdsDest k nd.stat destDir src).wp
      (fun inside w' => Looks w w' ∧ (inside = false → ¬p ++ [n] <+: dest.dir ∧ ¬dest.dir <+: p ++ [n]))
      (fun _ _ => False) w := by
  have hbelow : dest.dir <+: p ++ [n] → p ++ [n] <+: dest.dir := by
    rintro ⟨r, hr⟩
    cases r with
    | nil => exact ⟨[], by simpa using hr.symm⟩
    | cons c r =>
      have hnone := w.fs.names_eq_nil_iff.1 h.empty (c :: r) (List.cons_ne_nil c r)
      rw [hr, hnd] at hnone
      cases hnone
  suffices hsuff : (holdsDest k nd.stat destDir src).wp
      (fun inside w' => Looks w w' ∧ (inside = false → ¬p ++ [n] <+: dest.dir))
      (fun _ _ => False) w by
    refine Act.wp_mono hsuff (fun inside w' hw' => ⟨hw'.1, fun hin => ?_⟩) (fun _ _ h => h)
    exact ⟨hw'.2 hin, fun hpre => hw'.2 hin (hbelow hpre)⟩
  have hdir : p ++ [n] <+: dest.dir → nd.isDir = true := by
    rintro ⟨r, hr⟩
    have hbranch : w.fs.isBranch (p ++ [n]) = true := by
      cases r with
      | nil =>
        rw [List.append_nil] at hr
        exact hr ▸ h.isDir
      | cons c r =>
        refine w.fs.isBranch_of_append (List.cons_ne_nil c r) ?_
        rw [hr]
        exact w.fs.isSome_of_isBranch h.isDir
    simpa [PathTree.isBranch, hnd] using hbranch
  simp only [holdsDest, Act.wp_ite, Act.wp_pure]
  refine ⟨fun htype => ?_, fun htype => ⟨Looks.refl w, fun _ hpre => ?_⟩⟩
  · simp only [isInside, Act.wp_bind, Act.wp_get, h.leads]
    cases hres : k.resolve w.fs src with
    | error e =>
      refine ⟨Looks.refl w, fun _ hpre => ?_⟩
      obtain ⟨parent, rfl, hparent⟩ := Kernel.place_eq_some hplace
      have hsearch := Kernel.resolve_search h.leads p n hpre
      have hsym : nd.isSymlink = false := by
        cases nd <;> simp_all [Node.isDir, Node.isSymlink]
      have hsome : (w.fs.get (p ++ [n])).isSome := by
        rw [hnd]
        rfl
      have hok := Kernel.resolve_concat hparent (w.fs.isBranch_of_get hsome) hsearch hnd hsym
      rw [hok] at hres
      cases hres
    | ok e =>
      obtain ⟨parent, rfl, hparent⟩ := Kernel.place_eq_some hplace
      obtain ⟨d', hd', hjoin⟩ := Kernel.resolve_join (Kernel.resolve_ne_nil hparent) hres
      obtain rfl : p = d' := Except.ok.inj (hparent.symm.trans hd')
      refine ⟨Looks.refl w, fun hin hpre => ?_⟩
      have he : e = p ++ [n] := hjoin fun target htarget => by
        obtain rfl := Option.some.inj (hnd.symm.trans htarget)
        exact Bool.noConfusion (hdir hpre)
      rw [he] at hin
      simp [hpre] at hin
  · have := hdir hpre
    cases nd <;> simp_all [Node.isDir, Node.stat]

/-- A source that is apart from the folder is gone from its place when its turn is over, and a turn
that fails leaves the folder itself alone. -/
theorem transfer_takes (srcRoot : Root) (name : Name) (dest : Root) (target : Name)
    (hbelow : ¬srcRoot.dir ++ [name] <+: dest.dir) (habove : ¬dest.dir <+: srcRoot.dir ++ [name]) :
    (transfer k rep srcRoot name dest target true).wp
      (fun flow w' => flow = .continue → w'.fs.get (srcRoot.dir ++ [name]) = none)
      (fun _ w' => w'.fs.get dest.dir = w.fs.get dest.dir) w := by
  set p := srcRoot.dir ++ [name] with hp
  have htarget : ¬dest.dir ++ [target] <+: p := fun h => habove ((List.prefix_append _ _).trans h)
  have hself : ¬dest.dir ++ [target] <+: dest.dir := fun h => by simpa using h.length_le
  have hcopy : ∀ w₁ : World, w₁.fs = w.fs → (copyOver k rep srcRoot name dest target true).wp
      (fun flow w' => flow = .continue → w'.fs.get p = none)
      (fun _ w' => w'.fs.get dest.dir = w.fs.get dest.dir) w₁ := by
    intro w₁ hw₁
    simp only [copyOver, Act.wp_bind, Act.wp_ite, Act.wp_pure, wp_setOut, if_true]
    have hadds := (@copyNode_adds k rep k.levels srcRoot name dest target).wp w₁
    have hkept : ∀ w₂ : World, Adds (dest.dir ++ [target]) w₁ w₂ →
        w₂.fs.get dest.dir = w.fs.get dest.dir := fun w₂ h₂ => by
      rw [h₂.outside _ hself, hw₁]
    refine Act.wp_mono hadds (fun flow w₂ h₂ => ?_) (fun _ w₂ h₂ => hkept w₂ h₂)
    refine ⟨fun _ hgo => (by cases hgo), fun _ => ?_⟩
    · refine Act.wp_mono (removeTree_spec k.levels srcRoot name _) ?_ ?_
      · rintro _ w₃ ⟨hcut, -⟩ -
        rw [hcut, if_pos List.prefix_rfl]
      · rintro _ w₃ ⟨hshrinks, -⟩
        rw [hshrinks.outside _ hbelow]
        exact hkept w₂ h₂
  simp only [transfer, Act.wp_bind, Act.wp_attempt, if_true]
  refine Act.wp_mono (Root.renameTo_spec srcRoot dest name target w) ?_ ?_
  · rintro ⟨⟩ w₁ ⟨t, rfl, -, -, hren⟩
    obtain ⟨-, -, ⟨heq, -⟩ | ⟨-, -, hx⟩⟩ := Tree.rename_ok hren
    · exact absurd (hp.trans heq ▸ List.prefix_append dest.dir [target]) habove
    have hgone : t.get p = none := by rw [hx, if_neg htarget, if_pos List.prefix_rfl]
    have hfolder : t.get dest.dir = w.fs.get dest.dir := by rw [hx, if_neg hself, if_neg hbelow]
    simp only [countMoved, Act.wp_bind, wp_setOut, wp_setProgress, wp_report]
    refine Act.wp_mono ((looks_measure _).wp _) (fun _ w₂ h₂ _ => ?_) (fun _ w₂ h₂ => ?_)
    · exact (congrArg (PathTree.get · p) h₂.1).trans hgone
    · exact (congrArg (PathTree.get · dest.dir) h₂.1).trans hfolder
  · rintro e w₁ ⟨rfl, -⟩
    split
    · next heq => cases heq
    · exact hcopy w.tick rfl
    · exact rfl

/-- **The turn of a source** in an empty folder: where it ends well, the source is gone from its
place, which is outside the folder. -/
theorem turn_takes (dest : Root) (destDir : PathBuf) (item : PathBuf × Option Name)
    (h : Empty k dest destDir w) :
    (runItem k rep dest destDir .keepBoth true item).wp
      (fun flow w' => flow = .continue →
        ∃ p, (w.fs.get p).isSome ∧ ¬dest.dir <+: p ∧ w'.fs.get p = none)
      (fun _ w' => w'.fs.get dest.dir = w.fs.get dest.dir) w := by
  have hlooks : ∀ {w' : World}, Looks w w' → w'.fs.get dest.dir = w.fs.get dest.dir := fun hl => by
    rw [hl.1]
  simp only [runItem, Act.wp_bind, Act.wp_ite, Act.wp_fail]
  refine Act.wp_mono (split_spec item.1 w) ?_ (fun _ _ hl => hlooks hl)
  rintro ⟨srcRoot, name⟩ w₁ ⟨h₁, hplace, -⟩
  refine Act.wp_mono (Act.wp_and (Root.metadata_spec srcRoot name w₁)
    ((looks_metadata srcRoot name).wp w₁)) ?_ (fun _ _ hl => hlooks (h₁.trans hl.2))
  rintro st w₂ ⟨⟨-, nd, hnd, rfl⟩, h₂⟩
  have h₀ := h₁.trans h₂
  rw [h₁.1] at hnd
  have hempty : Empty k dest destDir w₂ := by
    have hfs := h₀.1
    exact ⟨hfs ▸ h.leads, hfs ▸ h.isDir, hfs ▸ h.empty⟩
  refine Act.wp_mono (apart_of_holdsDest hempty (show k.place w₂.fs item.1 = _ by rw [h₀.1]; exact hplace)
    (by rw [h₀.1]; exact hnd)) ?_ (fun _ _ hl => hl.elim)
  rintro inside w₃ ⟨h₃, hapart⟩
  have h₃ := h₀.trans h₃
  refine ⟨fun _ => hlooks h₃, fun hin => ?_⟩
  obtain ⟨hbelow, habove⟩ := hapart (by simpa using hin)
  refine Act.wp_mono (resolveConflict_spec dest _ item.1 (by simp) w₃) ?_
    (fun _ _ hl => hlooks (h₃.trans hl))
  rintro (_ | target) w₄ ⟨hfs, -, -, htarget⟩
  · exact absurd htarget.1 (by simp)
  simp only [Act.wp_bind, wp_noteRenamed]
  have hfs : w₄.fs = w.fs := hfs.trans h₃.1
  refine Act.wp_mono (transfer_takes srcRoot name dest target hbelow habove) ?_ ?_
  · intro flow w₅ hgone hgo
    refine ⟨srcRoot.dir ++ [name], ?_, habove, hgone hgo⟩
    rw [hnd]
    rfl
  · intro e w₅ hkept
    rw [hkept]
    exact congrArg (PathTree.get · dest.dir) hfs

/-! ## The whole move -/

/-- **How the move into an empty folder fails**: before it has changed anything, or with a source
gone from its place; and in the first case the folder is still there. -/
theorem moveItems_fails {sources : List PathBuf} {folder : PathBuf} {d : Path}
    (hleads : ∀ d', k.resolve w.fs folder = .ok d' → d' = d) (hdir : w.fs.isBranch d = true)
    (hempty : w.fs.names d = []) :
    (moveItems k rep sources folder .keepBoth).wp (fun _ _ => True)
      (fun _ w' => w'.fs.get d = w.fs.get d ∧
          (PutBack w w' → FailsFirst k rep sources folder w w') ∨
        ∃ p, (w.fs.get p).isSome ∧ ¬d <+: p ∧ w'.fs.get p = none) w := by
  simp only [moveItems, run, Act.wp_ite, Act.wp_bind, Act.wp_pure]
  refine ⟨fun _ => trivial, fun hsources => ?_⟩
  have hspec := prepare_spec (k := k) sources [] folder w
  rcases hp : prepare k sources [] folder w with ⟨e | ⟨dest, items⟩, w₁⟩
  · refine Act.wp_of_error hp (Or.inl ⟨?_, fun _ => Or.inl ⟨e, hp⟩⟩)
    rw [(Act.wp_error hspec hp).1]
  · obtain ⟨hfs, -, -, hres, rfl, -, typed, htyped, hitems⟩ := Act.wp_ok hspec hp
    obtain rfl : [] = typed := Except.ok.inj htyped
    obtain rfl : dest.dir = d := hleads _ hres
    refine Act.wp_of_ok hp ?_
    obtain ⟨src, rest, rfl⟩ := List.exists_cons_of_ne_nil hsources
    have hitems : items = (src, none) :: pairNames rest [] := hitems
    subst hitems
    simp only [wp_endJob, Act.each, Act.wp_bind, Act.wp_ite, Act.wp_pure]
    have hturn := @turn_takes k rep w₁ dest dest.path (src, none)
      ⟨hfs ▸ hres, hfs ▸ hdir, hfs ▸ hempty⟩
    rcases ht : runItem k rep dest dest.path .keepBoth true (src, none) w₁ with ⟨e | flow, w₂⟩
    · refine Act.wp_of_error ht (Or.inl ⟨?_, fun hback => Or.inr ?_⟩)
      · rw [Act.wp_error hturn ht, hfs]
      · exact ⟨dest, (src, none), pairNames rest [], w₁, e, hp, ht, fun x => by rw [hback x, hfs]⟩
    · refine Act.wp_of_ok ht ⟨fun hgo => ?_, fun _ => trivial⟩
      obtain ⟨p, hsome, hout, hgone⟩ := Act.wp_ok hturn ht hgo
      rw [hfs] at hsome
      have hloop : Act.Stays (Outside dest.dir) (Act.each .continue
          (runItem k rep dest dest.path .keepBoth true) (pairNames rest [])) :=
        Act.Stays.each (R := Outside dest.dir) (fun _ => Outside.of_fs rfl)
          (fun _ _ _ => Outside.trans) (outside_turn dest dest.path) _
      refine Act.wp_mono (hloop.wp w₂) (fun _ _ _ => trivial) (fun _ w₃ h₃ => Or.inr ⟨p, hsome, hout, ?_⟩)
      rcases h₃ p hout with hnone | heq
      · exact hnone
      · rw [heq, hgone]

/-! ## The folder -/

/-- The new folder: it stands alone at a place that was free. -/
theorem newFolder_spec (dir : PathBuf) (name : Bytes) :
    (create k dir name .folder).wp
      (fun folder w' => ∃ d target mode, k.resolve w.fs dir = .ok d ∧ folder = dir.join target ∧
        w.fs.get (d ++ [target]) = none ∧ ∀ x, w'.fs.get x =
          if x = d ++ [target] then some (.dir mode .owner) else w.fs.get x)
      (fun _ w' => w'.fs = w.fs) w := by
  cases hn : validateName name with
  | error e =>
    simp only [create, hn, Act.lift_error, Act.wp_bind, Act.wp_fail]
  | ok new =>
    simp only [create, hn, Act.lift_ok, pure_bind, Act.wp_bind, Act.wp_pure, createItem]
    refine Act.wp_mono (Act.wp_and (Root.open_spec dir w) ((looks_open dir).wp w)) ?_
      (fun _ _ hl => hl.2.1)
    rintro root w₁ ⟨⟨-, hpath, hres, -⟩, h₁⟩
    refine Act.wp_mono (uniqueName_spec root new w₁) ?_ (fun _ _ hl => (h₁.trans hl).1)
    rintro target w₂ ⟨h₂, -, -⟩
    have hfs : w₂.fs = w.fs := (h₁.trans h₂).1
    refine Act.wp_mono (Root.mkdir_spec root target _ false w₂) ?_ ?_
    · rintro _ w₃ (⟨t, rfl, -, hfree, hx⟩ | ⟨h, -⟩)
      · rw [hfs] at hfree hx
        exact ⟨root.dir, target, _, hres, by rw [Root.displayPath, hpath]; rfl, hfree, hx⟩
      · cases h
    · rintro _ w₃ rfl
      exact hfs

variable (k) in
/-- The folder is looked up again and removed, and the error of the move is handed on. -/
def takeBack (folder : PathBuf) (e : Error) : Act World Error PathBuf := do
  let (root, leaf) ← split k folder
  let _ ← (root.remove k leaf.rel true).attempt
  Act.fail e

/-- What the removal of a folder does, by what the kernel says to it. -/
theorem remove_cases (root : Root) (n : Name) :
    (root.remove k n.rel true).wp
      (fun _ w' => k.refuse w.clock (.rmdir (root.dir ++ [n])) w.fs = none ∧
        ∀ x, w'.fs.get x = if x = root.dir ++ [n] then none else w.fs.get x)
      (fun _ w' => w'.fs = w.fs ∧ ((k.refuse w.clock (.rmdir (root.dir ++ [n])) w.fs).isSome ∨
        ∀ t, w.fs.remove root.dir n true ≠ .ok t)) w := by
  rw [Root.remove, Root.at_rel, Act.wp_mapErr, Kernel.unlink, if_pos rfl]
  cases hr : k.refuse w.clock (.rmdir (root.dir ++ [n])) w.fs with
  | some e => exact Act.wp_of_error (Kernel.change_refused hr) ⟨rfl, Or.inl rfl⟩
  | none =>
    cases hf : w.fs.remove root.dir n true with
    | ok t => exact Act.wp_of_ok (Kernel.change_run hr hf) ⟨rfl, (Tree.remove_ok hf).2.2⟩
    | error e => exact Act.wp_of_error (Kernel.change_error hr hf) ⟨rfl, Or.inr fun t ht => by cases ht⟩

/-- What the opening of a directory does. -/
theorem open_cases {path : PathBuf} {d : Path} (hres : k.resolve w.fs path = .ok d) :
    (Root.open k path).wp
      (fun root w' => root.dir = d ∧ w' = w.tick ∧ k.refuse w.clock (.open d) w.fs = none)
      (fun _ w' => w' = w.tick ∧ ((k.refuse w.clock (.open d) w.fs).isSome ∨
        w.fs.isBranch d = false)) w := by
  simp only [Root.open, Act.wp_bind, Act.wp_get, hres, Act.wp_mapErr, Act.wp_ite, Act.wp_pure,
    Act.wp_fail]
  cases hr : k.refuse w.clock (.open d) w.fs with
  | some e => exact Act.wp_of_error (Kernel.query_refused hr) ⟨rfl, Or.inl rfl⟩
  | none =>
    refine Act.wp_of_ok (Kernel.query_run hr) ⟨fun _ => ⟨trivial, rfl, rfl⟩, fun hno => ?_⟩
    exact ⟨rfl, Or.inr (by simpa using hno)⟩

/-- The folder stays, or it alone is gone; and it goes where the kernel lets it and nothing is in
it. -/
theorem takeBack_spec {parent : PathBuf} {d : Path} {n : Name} {e : Error}
    (hres : k.resolve w.fs parent = .ok d) :
    (takeBack k (parent.join n) e).wp (fun _ _ => False)
      (fun _ w' => (w'.fs = w.fs ∧ (Clears k (parent.join n) w → w.fs.isBranch d = true →
          ∀ t, w.fs.remove d n true ≠ .ok t)) ∨
        (Clears k (parent.join n) w ∧
          ∀ x, w'.fs.get x = if x = d ++ [n] then none else w.fs.get x)) w := by
  have hplace := Kernel.place_of_resolve (n := n) hres
  have hclears : Clears k (parent.join n) w ↔ k.refuse w.clock (.open d) w.fs = none ∧
      k.refuse (w.clock + 1) (.rmdir (d ++ [n])) w.fs = none := by
    constructor
    · rintro ⟨d', n', hplace', hopen, hrmdir⟩
      obtain ⟨rfl, hn⟩ := List.append_inj' (Option.some.inj (hplace.symm.trans hplace')) rfl
      obtain rfl := List.singleton_inj.1 hn
      exact ⟨hopen, hrmdir⟩
    · rintro ⟨hopen, hrmdir⟩
      exact ⟨d, n, hplace, hopen, hrmdir⟩
  rw [hclears]
  simp only [takeBack, split, parent_join, fileName_join, Act.wp_bind, Act.wp_mapErr,
    Act.wp_pure, Act.wp_attempt, Act.wp_fail, nameOf, toName?_val]
  refine Act.wp_mono (open_cases hres) ?_ ?_
  · rintro root w₁ ⟨rfl, rfl, hopen⟩
    refine Act.wp_mono (remove_cases root n) ?_ ?_
    · rintro _ w₂ ⟨hrmdir, hx⟩
      exact Or.inr ⟨⟨hopen, hrmdir⟩, hx⟩
    · rintro _ w₂ ⟨hfs, hno⟩
      refine Or.inl ⟨hfs, fun hgranted _ t => ?_⟩
      rcases hno with hrefused | hno
      · have hnone : k.refuse w.tick.clock (.rmdir (root.dir ++ [n])) w.tick.fs = none := hgranted.2
        rw [hnone] at hrefused
        cases hrefused
      · exact hno t
  · rintro _ w₁ ⟨rfl, hno⟩
    refine Or.inl ⟨rfl, fun hgranted hbranch => ?_⟩
    rcases hno with hrefused | hno
    · rw [hgranted.1] at hrefused
      cases hrefused
    · rw [hbranch] at hno
      cases hno

theorem takeBack_cases {parent : PathBuf} {n : Name} {e : Error} :
    (takeBack k (parent.join n) e).wp (fun _ _ => False)
      (fun _ w' => w'.fs = w.fs ∨ Clears k (parent.join n) w ∧
        ∃ d, ∀ x, w'.fs.get x = if x = d then none else w.fs.get x) w := by
  cases hres : k.resolve w.fs parent with
  | ok d =>
    refine Act.wp_mono (takeBack_spec hres) (fun _ _ h => h) ?_
    rintro _ w' (⟨hfs, -⟩ | ⟨hclears, hx⟩)
    · exact Or.inl hfs
    · exact Or.inr ⟨hclears, _, hx⟩
  | error errno =>
    simp only [takeBack, Act.wp_bind]
    refine Act.wp_mono (split_spec _ w) ?_ (fun _ _ hl => Or.inl hl.1)
    rintro r w' ⟨-, hplace, -⟩
    obtain ⟨d, hd, -⟩ := Kernel.place_join hplace
    rw [hres] at hd
    cases hd

/-! ## The command -/

/-- A move that fails first is a move that fails, with everything where it was. -/
theorem FailsFirst.run {sources : List PathBuf} {folder : PathBuf} (hsources : sources ≠ [])
    (h : FailsFirst k rep sources folder w w') :
    (∃ e, moveItems k rep sources folder .keepBoth w = (.error e, w')) ∧ PutBack w w' := by
  have hspec := prepare_spec (k := k) sources [] folder w
  rw [moveItems, Ops.run, if_neg hsources]
  rcases h with ⟨e, hp⟩ | ⟨dest, first, items, w₁, e, hp, hturn, hback⟩
  · exact ⟨⟨e, Act.bind_of_error hp _⟩, .of_fs (Act.wp_error hspec hp).1⟩
  · rw [Act.bind_of_ok hp]
    refine ⟨⟨e, ?_⟩, fun x => ?_⟩
    · dsimp only
      rw [Act.each, bind_assoc, Act.bind_of_error hturn]
    · rw [hback x, (Act.wp_ok hspec hp).1]

/-- A state with the new folder in it, from which the move failed. -/
theorem putBack_iff {sources : List PathBuf} {parent : PathBuf} {d : Path} {n : Name} {mode : ℕ}
    {w₁ w₂ w' : World} {e e' : Error} (hres : k.resolve w.fs parent = .ok d)
    (hfree : w.fs.get (d ++ [n]) = none)
    (hmade : ∀ x, w₁.fs.get x = if x = d ++ [n] then some (.dir mode .owner) else w.fs.get x)
    (hmove : moveItems k rep sources (parent.join n) .keepBoth w₁ = (.error e, w₂))
    (hback : takeBack k (parent.join n) e w₂ = (.error e', w')) :
    PutBack w w' ↔
      ∃ w₂, FailsFirst k rep sources (parent.join n) w₁ w₂ ∧ Clears k (parent.join n) w₂ := by
  have hsources : sources ≠ [] := by
    rintro rfl
    cases hmove
  have hkeeps : ∀ x nd, w.fs.get x = some nd → w₁.fs.get x = some nd := by
    intro x nd hx
    rw [hmade x, if_neg, hx]
    rintro rfl
    rw [hfree] at hx
    cases hx
  have hfolder : w₁.fs.get (d ++ [n]) = some (.dir mode .owner) := by rw [hmade, if_pos rfl]
  have hempty : w₁.fs.names (d ++ [n]) = [] := by
    refine w₁.fs.names_eq_nil_iff.2 fun r hr => ?_
    rw [hmade, if_neg (by simpa using hr), w.fs.get_append_of_none hfree]
  have hleads : ∀ d', k.resolve w₁.fs (parent.join n) = .ok d' → d' = d ++ [n] := by
    intro d' hd'
    obtain ⟨c, hc, hjoin⟩ := Kernel.resolve_join (Kernel.resolve_ne_nil hres) hd'
    obtain rfl := Except.ok.inj (hc.symm.trans (Kernel.resolve_mono hkeeps hres))
    exact hjoin (by simp [hfolder])
  constructor
  · intro hputs
    have hcases := Act.wp_error takeBack_cases hback
    have hgone : w'.fs.get (d ++ [n]) = none := (hputs _).trans hfree
    rcases Act.wp_error (moveItems_fails hleads (by rw [PathTree.isBranch, hfolder]; rfl) hempty) hmove
      with ⟨hthere, hfirst⟩ | ⟨p, hsome, hout, hlost⟩
    · rw [hfolder] at hthere
      rcases hcases with hfs | ⟨hclears, c, hx⟩
      · rw [hfs, hthere] at hgone
        cases hgone
      · have hc : d ++ [n] = c := by
          by_contra hne
          rw [hx, if_neg hne, hthere] at hgone
          cases hgone
        subst hc
        refine ⟨w₂, hfirst fun x => ?_, hclears⟩
        by_cases hxd : x = d ++ [n]
        · rw [hxd, hthere, hfolder]
        · have hsame := hputs x
          rw [hx, if_neg hxd] at hsame
          rw [hsame, hmade, if_neg hxd]
    · -- a source is gone from its place, and the removal brings nothing back
      exfalso
      have hnone : w'.fs.get p = none := by
        rcases hcases with hfs | ⟨-, c, hx⟩
        · rw [hfs, hlost]
        · rw [hx, hlost, ite_self]
      have hne : p ≠ d ++ [n] := fun heq => hout (heq ▸ List.prefix_rfl)
      rw [hmade, if_neg hne, ← hputs p, hnone] at hsome
      cases hsome
  · rintro ⟨w₃, hfirst, hclears⟩
    obtain ⟨⟨e₃, hrun⟩, hsame⟩ := hfirst.run hsources
    obtain ⟨-, rfl⟩ := Prod.mk.inj (hmove.symm.trans hrun)
    have hres₂ : k.resolve w₂.fs parent = .ok d :=
      Kernel.resolve_mono (fun x nd hx => (hsame x).trans (hkeeps x nd hx)) hres
    have hfolder₂ : w₂.fs.get (d ++ [n]) = some (.dir mode .owner) := (hsame _).trans hfolder
    rcases Act.wp_error (takeBack_spec hres₂) hback with ⟨-, hno⟩ | ⟨-, hx⟩
    · exfalso
      have hempty₂ : w₂.fs.names (d ++ [n]) = [] := by
        refine w₂.fs.names_eq_nil_iff.2 fun r hr => ?_
        rw [hsame, w₁.fs.names_eq_nil_iff.1 hempty r hr]
      obtain ⟨t, ht⟩ := Tree.remove_eq_ok hfolder₂ hempty₂
      exact hno hclears (w₂.fs.isBranch_of_get (by rw [hfolder₂]; rfl)) t ht
    · intro x
      rw [hx, hsame, hmade]
      split
      · next hxd => rw [hxd, hfree]
      · rfl

/-- A folder with one file in it. -/
def boxed : World := .ofList
  [(Path.of ["box"], .dir 0o755 .owner), (Path.of ["box", "a"], .file 0o644 .owner [7])]

/-- The path of the folder. -/
def boxPath : PathBuf := .ofPath (Path.of ["box"])

/-- A grouping of these sources into the new folder `New`. -/
def grouped (sources : List PathBuf) : Except Error PathBuf × World :=
  folderWithSelection (Kernel.calm 4) silent sources boxPath (text "New") boxed

end Aurade.Ops
