import Aurade.Ops.Copied

/-!
# What a move conserves

A move has two implementations. The rename takes the whole subtree over as it is; where the kernel
answers EXDEV the source is copied and then deleted. `Conserved` compares the two ends: the same
relative paths, with the same kinds and contents.

**`move_conserves_iff`**: a move of one source to a free name, which ended well and was not stopped,
conserves the source and reports only paths that exist, exactly when it was a rename, or when the
source has no socket, fifo or device in it (the copy leaves these out and the deletion does not) and
the destination's path does not lead through the source. `move_loses_fifo` is the smallest case of a
loss.
-/

namespace Aurade.Ops

open Fs

variable {k : Kernel} {rep : Reporter} {w : World}

/-- At every relative path, the kind and the contents under `T` in `t'` are those under `S` in
`t`. -/
def Conserved (S T : Path) (t t' : Tree) : Prop :=
  ∀ r, (t'.get (T ++ r)).map Node.content = (t.get (S ++ r)).map Node.content

/-- There is a node at the path. -/
def PathExists (k : Kernel) (t : Tree) (path : PathBuf) : Prop :=
  ∃ p, k.place t path = some p ∧ (t.get p).isSome

theorem Mirrors.content_iff {a b : Option Node} (h : Mirrors k a b) :
    b.map Node.content = a.map Node.content ↔ ∀ kind, a ≠ some (.special kind) := by
  cases h <;> simp [Node.content]

/-- **A finished copy conserves exactly the sources without special nodes.** -/
theorem Mirrored.conserved_iff {S T : Path} {t t' : Tree} (h : Mirrored k S T t t') :
    Conserved S T t t' ↔ NoSpecial S t :=
  forall_congr' fun r => (h r).content_iff

theorem measure_exists (path : PathBuf) :
    (measure k [path]).wp (fun _ _ => PathExists k w.fs path) (fun _ _ => True) w := by
  simp only [measure, sumOver, Act.wp_bind, Act.wp_pure]
  refine Act.wp_mono (split_spec path w) ?_ (fun _ _ _ => trivial)
  rintro ⟨root, n⟩ w₁ ⟨h₁, hplace, -⟩
  cases hl : k.levels with
  | zero => trivial
  | succ depth =>
    simp only [measureOne, Act.wp_bind]
    refine Act.wp_mono (Root.metadata_spec root n w₁) ?_ (fun _ _ _ => trivial)
    rintro st w₂ ⟨-, nd, hnd, -⟩
    rw [h₁.1] at hnd
    have hex : PathExists k w.fs path := ⟨_, hplace, by simp [hnd]⟩
    exact Act.wp_mono (Act.wp_run _ _) (fun _ _ _ => hex) (fun _ _ _ => trivial)

/-- What a move is asked to keep: its source is conserved, and what it reports exists. -/
def Kept (k : Kernel) (S T : Path) (t : Tree) (w' : World) : Prop :=
  Conserved S T t w'.fs ∧ ∀ p ∈ w'.job.out.written, PathExists k w'.fs p

/-- The rename keeps everything. -/
theorem Kept.of_moved {S T : Path} {t : Tree} {w' : World} {p : PathBuf} (h : t.Moved S T w'.fs)
    (hw : w'.job.out.written = [p]) (hex : PathExists k w'.fs p) : Kept k S T t w' := by
  refine ⟨fun r => ?_, fun q hq => ?_⟩
  · rw [h.get, if_pos (List.prefix_append T r), List.drop_left]
  · rw [hw, List.mem_singleton] at hq
    exact hq ▸ hex

/-- **The copy and the deletion after it** keep the source that has no special node, when the
destination's path leads where it led without the source. -/
theorem copyOver_kept_iff (srcRoot : Root) (name : Name) (dest : Root) (target : Name)
    (hS : (w.fs.get (srcRoot.dir ++ [name])).isSome)
    (hfree : w.fs.get (dest.dir ++ [target]) = none) (hbranch : w.fs.isBranch dest.dir = true)
    (hdest : k.resolve w.fs dest.path = .ok dest.dir) (hw : w.job.out.written = []) :
    (copyOver k rep srcRoot name dest target true).wp
      (fun flow w' => flow = .continue →
        (Kept k (srcRoot.dir ++ [name]) (dest.dir ++ [target]) w.fs w' ↔
          NoSpecial (srcRoot.dir ++ [name]) w.fs ∧
          k.resolve (w.fs.prune (srcRoot.dir ++ [name]) (by simp)) dest.path = .ok dest.dir))
      (fun _ _ => True) w := by
  set S := srcRoot.dir ++ [name] with hSdef
  set T := dest.dir ++ [target] with hTdef
  simp only [copyOver, Act.wp_bind, Act.wp_ite, Act.wp_pure, wp_setOut, if_true]
  by_cases hin : S <+: dest.dir
  · -- into itself: such a copy does not come to its end
    refine Act.wp_mono (copyNode_inside _ _ _ _ _ hin hbranch) (fun flow w' hflow => ?_)
      (fun _ _ _ => trivial)
    exact ⟨fun _ h => by simp at h, fun hne => absurd hflow hne⟩
  have hapart : Apart S T := .of_free hS hfree hin
  refine Act.wp_mono (Act.wp_and (Act.wp_and ((copyNode_adds _ _ _ _ _).wp w)
    ((copyNode_counts _ _ _ _ _).wp w)) (copyNode_spec _ srcRoot name dest target hapart hfree)) ?_
    (fun _ _ _ => trivial)
  rintro flow w₁ ⟨⟨hadds, hcounts⟩, hmirror, -⟩
  refine ⟨fun _ h => by simp at h, fun hne => ?_⟩
  replace hmirror := hmirror (eq_continue hne)
  refine Act.wp_mono (removeTree_spec _ srcRoot name _) ?_ (fun _ _ _ => trivial)
  rintro _ w₂ ⟨hcut, hjob⟩ -
  have hcut : ∀ x, w₂.fs.get x = if S <+: x then none else w₁.fs.get x := hcut
  have hwritten : w₂.job.out.written = [dest.path.join target] := by
    rw [hjob]
    show w₁.job.out.written ++ [dest.path.join target] = _
    rw [hcounts.written, hw]
    rfl
  have hsame : ∀ r, w₂.fs.get (T ++ r) = w₁.fs.get (T ++ r) := fun r => by
    rw [hcut, if_neg]
    exact Apart.not_below ⟨hapart.2, hapart.1⟩ r
  have hconserved : Conserved S T w.fs w₂.fs ↔ NoSpecial S w.fs := by
    rw [← hmirror.conserved_iff]
    exact forall_congr' fun r => by rw [hsame]
  -- a path that can be followed at the end leads where it led, and so it does without the source
  have hkeep : ∀ x nd, w.fs.get x = some nd → ¬ S <+: x → w₂.fs.get x = some nd := by
    intro x nd hx hout
    rw [hcut, if_neg hout]
    exact hadds.keeps x nd hx
  have hagree : w.fs.Agree w₂.fs := by
    intro x nd nd' hx hx'
    have hout : ¬ S <+: x := fun hpre => by simp [hcut, hpre] at hx'
    exact Option.some.inj (hx'.symm.trans (hkeep x nd hx hout))
  have hprune : ∀ x nd, w.fs.get x = some nd → w₂.fs.get x = some nd →
      (w.fs.prune S (by simp [hSdef])).get x = some nd := by
    intro x nd hx hx'
    have hout : ¬ S <+: x := fun hpre => by simp [hcut, hpre] at hx'
    rw [PathTree.get_prune, if_neg hout, hx]
  constructor
  · rintro ⟨hc, hex⟩
    obtain ⟨p, hp, -⟩ := hex _ (by rw [hwritten]; exact List.mem_singleton_self _)
    obtain ⟨d', hd', -⟩ := Kernel.place_join hp
    exact ⟨hconserved.1 hc, (Kernel.resolve_agree hagree hprune hdest hd').2⟩
  · rintro ⟨hno, hres⟩
    have hc := hconserved.2 hno
    refine ⟨hc, fun p hp => ?_⟩
    rw [hwritten, List.mem_singleton] at hp
    subst hp
    have hres₂ : k.resolve w₂.fs dest.path = .ok dest.dir := by
      refine Kernel.resolve_mono (fun x nd hx => ?_) hres
      rw [PathTree.get_prune] at hx
      split at hx
      · simp at hx
      · next hout => exact hkeep x nd hx hout
    refine ⟨T, Kernel.place_of_resolve hres₂, ?_⟩
    -- the source's own node is among what is conserved
    have htop := hc []
    rw [List.append_nil, List.append_nil] at htop
    rw [← Option.isSome_map (f := Node.content), htop, Option.isSome_map]
    exact hS

variable (rep) in
/-- **One source of a move**, whichever way it goes. -/
theorem transfer_kept_iff (srcRoot : Root) (name : Name) (dest : Root) (target : Name)
    (hS : (w.fs.get (srcRoot.dir ++ [name])).isSome)
    (hfree : w.fs.get (dest.dir ++ [target]) = none) (hbranch : w.fs.isBranch dest.dir = true)
    (hdest : k.resolve w.fs dest.path = .ok dest.dir) (hw : w.job.out.written = []) :
    (transfer k rep srcRoot name dest target true).wp
      (fun flow w' => flow = .continue →
        (Kept k (srcRoot.dir ++ [name]) (dest.dir ++ [target]) w.fs w' ↔
          k.crosses (srcRoot.dir ++ [name]) (dest.dir ++ [target]) = false ∨
          NoSpecial (srcRoot.dir ++ [name]) w.fs ∧
          k.resolve (w.fs.prune (srcRoot.dir ++ [name]) (by simp)) dest.path = .ok dest.dir))
      (fun _ _ => True) w := by
  simp only [transfer, Act.wp_bind, Act.wp_attempt, if_true]
  refine Act.wp_mono (Root.renameTo_spec srcRoot dest name target w) ?_ ?_
  · rintro ⟨⟩ w₁ ⟨t, rfl, hcross, -, hren⟩
    have hmoved := Tree.moved_of_rename hren hfree
    simp only [countMoved, Act.wp_bind, wp_setOut, wp_setProgress, wp_report]
    refine Act.wp_mono (Act.wp_and (measure_exists _) ((looks_measure _).wp _)) ?_
      (fun _ _ _ => trivial)
    rintro total w₂ ⟨hex, hlooks⟩ -
    refine ⟨fun _ => Or.inl hcross, fun _ => ?_⟩
    refine .of_moved (p := dest.path.join target) ?_ ?_ ?_
    · exact hlooks.1 ▸ hmoved
    · show w₂.job.out.written ++ [dest.path.join target] = _
      rw [hlooks.2, World.turn_job, hw]
      rfl
    · show PathExists k w₂.fs _
      rw [hlooks.1]
      exact hex
  · rintro e w₁ ⟨rfl, hcross⟩
    split
    · next heq => cases heq
    · next c heq =>
      obtain rfl := Except.error.inj heq
      have hc := hcross c rfl
      refine Act.wp_mono (copyOver_kept_iff (w := w.tick) srcRoot name dest target hS hfree hbranch
        hdest hw) (fun flow w₂ h hflow => ?_) (fun _ _ _ => trivial)
      rw [World.tick_fs] at h
      rw [h hflow]
      simp [hc]
    · trivial

variable (rep) in
/-- The turn of a source whose name is free at the destination. -/
theorem runItem_kept_iff (src : PathBuf) (dest : Root) (conflict : Conflict) {S : Path} {n : Name}
    (hS : k.place w.fs src = some (S ++ [n]))
    (hfree : w.fs.get (dest.dir ++ [n.toStringLossy]) = none)
    (hbranch : w.fs.isBranch dest.dir = true) (hdest : k.resolve w.fs dest.path = .ok dest.dir)
    (hw : w.job.out.written = []) :
    (runItem k rep dest dest.path conflict true (src, none)).wp
      (fun flow w' => flow = .continue →
        (Kept k (S ++ [n]) (dest.dir ++ [n.toStringLossy]) w.fs w' ↔
          k.crosses (S ++ [n]) (dest.dir ++ [n.toStringLossy]) = false ∨
          NoSpecial (S ++ [n]) w.fs ∧
          k.resolve (w.fs.prune (S ++ [n]) (by simp)) dest.path = .ok dest.dir))
      (fun _ _ => True) w := by
  simp only [runItem, Act.wp_bind, Act.wp_ite, Act.wp_fail, Option.getD_none]
  refine Act.wp_mono (split_spec src w) ?_ (fun _ _ _ => trivial)
  rintro ⟨srcRoot, name⟩ w₁ ⟨h₁, hplace, -⟩
  obtain ⟨rfl, hname⟩ := List.append_inj' (Option.some.inj (hS.symm.trans hplace)) rfl
  obtain rfl : n = name := List.singleton_inj.1 hname
  refine Act.wp_mono (Act.wp_and (Root.metadata_spec srcRoot n w₁)
    ((looks_metadata srcRoot n).wp w₁)) ?_ (fun _ _ _ => trivial)
  rintro st w₂ ⟨⟨-, nd, hnd, -⟩, h₂⟩
  have hsome : (w.fs.get (srcRoot.dir ++ [n])).isSome := by
    rw [← h₁.1, hnd]
    rfl
  refine Act.wp_mono ((looks_holdsDest st dest.path src).wp w₂) (fun inside w₃ h₃ => ?_)
    (fun _ _ _ => trivial)
  refine ⟨fun _ => trivial, fun _ => ?_⟩
  have h := (h₁.trans h₂).trans h₃
  refine Act.wp_mono (resolveConflict_free dest n.toStringLossy conflict src (by rw [h.1, hfree])) ?_
    (fun _ _ h => h.elim)
  rintro _ w₄ ⟨rfl, h₄⟩
  have hall := h.trans h₄
  simp only [Act.wp_bind, wp_noteRenamed, ne_eq, not_true_eq_false, if_false]
  have hfs : w₄.fs = w.fs := hall.1
  have hspec := transfer_kept_iff rep (k := k) (w := w₄) srcRoot n dest n.toStringLossy
    (by rwa [hfs]) (by rwa [hfs]) (by rwa [hfs]) (by rwa [hfs]) (by rw [hall.2, hw])
  simp only [hfs] at hspec
  exact hspec

variable (rep) in
/-- The whole move of one source to a free name. -/
theorem moveItems_kept_iff (src destDir : PathBuf) (conflict : Conflict) {S d : Path} {n : Name}
    (hS : k.place w.fs src = some (S ++ [n])) (hd : k.resolve w.fs destDir = .ok d)
    (hfree : w.fs.get (d ++ [n.toStringLossy]) = none) :
    (moveItems k rep [src] destDir conflict).wp
      (fun out w' => out = w'.job.out ∧ (out.cancelled = false →
        (Kept k (S ++ [n]) (d ++ [n.toStringLossy]) w.fs w' ↔
          k.crosses (S ++ [n]) (d ++ [n.toStringLossy]) = false ∨
          NoSpecial (S ++ [n]) w.fs ∧
          k.resolve (w.fs.prune (S ++ [n]) (by simp)) destDir = .ok d)))
      (fun _ _ => True) w := by
  simp only [moveItems, run, Act.wp_ite, Act.wp_bind, Act.wp_pure]
  refine ⟨fun h => by simp at h, fun _ => ?_⟩
  refine Act.wp_mono (prepare_spec [src] [] destDir w) ?_ (fun _ _ _ => trivial)
  rintro ⟨dest, items⟩ w₁ ⟨hfs, -, hout, hres, rfl, hbranch, typed, htyped, rfl⟩
  obtain rfl : [] = typed := Except.ok.inj htyped
  obtain rfl : d = dest.dir := Except.ok.inj (hd.symm.trans hres)
  simp only [pairNames, Act.each_singleton, wp_endJob]
  have hitem := runItem_kept_iff rep (k := k) (w := w₁) src dest conflict
    (by rwa [hfs]) (by rwa [hfs]) (by rwa [hfs]) (by rwa [hfs]) (by rw [hout])
  refine Act.wp_mono hitem (fun flow w₂ h₂ => ⟨trivial, fun hgo => ?_⟩) (fun _ _ _ => trivial)
  simp only [hfs] at h₂
  by_cases hc : flow = .cancel
  · simp [hc] at hgo
  · simp only [if_neg hc]
    exact h₂ (eq_continue hc)

/-- **A move conserves its source and reports what exists**, for one source, a free name, and a call
that ended well and was not stopped: exactly when it was a rename, or nothing in the source is a
socket, a fifo or a device and the destination's path does not lead through the source. -/
theorem move_conserves_iff (k : Kernel) (rep : Reporter) (src destDir : PathBuf)
    (conflict : Conflict) (w w' : World) (out : Outcome) (S d : Path) (n : Name)
    (hrun : moveItems k rep [src] destDir conflict w = (.ok out, w'))
    (hgo : out.cancelled = false) (hS : k.place w.fs src = some (S ++ [n]))
    (hd : k.resolve w.fs destDir = .ok d)
    (hfree : w.fs.get (d ++ [n.toStringLossy]) = none) :
    (Conserved (S ++ [n]) (d ++ [n.toStringLossy]) w.fs w'.fs ∧
        ∀ p ∈ out.written, PathExists k w'.fs p) ↔
      (k.crosses (S ++ [n]) (d ++ [n.toStringLossy]) = false ∨
        NoSpecial (S ++ [n]) w.fs ∧
        k.resolve (w.fs.prune (S ++ [n]) (by simp)) destDir = .ok d) := by
  obtain ⟨hout, hspec⟩ := Act.wp_ok (moveItems_kept_iff rep src destDir conflict hS hd hfree) hrun
  rw [← hspec hgo, hout]
  rfl

/-- A folder with a file and a fifo in it, and an empty folder. -/
def fifoFolder : World := .ofList
  [(Path.of ["home"], .dir 0o755 .owner), (Path.of ["home", "run"], .dir 0o755 .owner),
    (Path.of ["home", "run", "log"], .file 0o644 .owner [7]),
    (Path.of ["home", "run", "pipe"], .special .fifo), (Path.of ["usb"], .dir 0o755 .owner)]

/-- The move of that folder. -/
def moveFifo (k : Kernel) : Except Error Outcome × World :=
  moveItems k silent [PathBuf.ofPath (Path.of ["home", "run"])]
    (PathBuf.ofPath (Path.of ["usb"])) .fail fifoFolder

/-- Within one file system the move keeps the fifo. -/
theorem move_keeps_fifo :
    Conserved (Path.of ["home", "run"]) (Path.of ["usb", "run"]) fifoFolder.fs
        (moveFifo (Kernel.calm 4)).2.fs ∧
      ∀ p ∈ [PathBuf.ofPath (Path.of ["usb", "run"])],
        PathExists (Kernel.calm 4) (moveFifo (Kernel.calm 4)).2.fs p :=
  (move_conserves_iff (Kernel.calm 4) silent (PathBuf.ofPath (Path.of ["home", "run"]))
    (PathBuf.ofPath (Path.of ["usb"])) .fail fifoFolder (moveFifo (Kernel.calm 4)).2
    { written := [PathBuf.ofPath (Path.of ["usb", "run"])], items := 3 }
    (Path.of ["home"]) (Path.of ["usb"]) ⟨text "run", by decide⟩
    (Prod.ext (by decide) rfl) rfl (by decide) (by decide)
    (by decide)).2 (Or.inl rfl)

/-- **To another file system the fifo is gone** after a move that ended well: it is neither at its
old place nor at its new one. -/
theorem move_loses_fifo :
    (moveFifo (Kernel.mounts 4)).1.toOption.map Outcome.cancelled = some false ∧
    fifoFolder.fs.get (Path.of ["usb", "run"]) = none ∧
    ¬ Conserved (Path.of ["home", "run"]) (Path.of ["usb", "run"]) fifoFolder.fs
      (moveFifo (Kernel.mounts 4)).2.fs := by
  refine ⟨by decide +kernel, by decide +kernel, fun h => ?_⟩
  exact absurd (h (Path.of ["pipe"])) (by decide +kernel)

end Aurade.Ops
