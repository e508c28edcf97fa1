import Aurade.Ops.Modes

/-!
# When a copy is faithful

A whole call under the modes, asked for as in `Asked`: a source that can be read, a free name in a
directory that can be written and is outside the source.

* **`copy_modes`**: the call comes to its end exactly when the modes allow it (`ModesAllow`), and then
  the source has arrived.
* `Arrived.faithful_iff`: what has arrived is faithful exactly when the modes of its directories
  survive `mkdir` (`ModesSurvive`).
* `copy_wholeFiles`: whatever the reporter answers, no half written file is left.

**`copy_faithful_iff`** puts the three together. `copy_readOnly_fails` is the smallest case of a
source that can be read and not copied.
-/

namespace Aurade.Ops

open Fs Fs.Kernel

variable {umask levels : ℕ} {crosses clones : Path → Path → Bool} {rep : Reporter} {w : World}

/-! ## A whole call -/

/-- A source is counted without a failure. -/
theorem measureOne_modes (depth : ℕ) (root : Root) (n : Name) (w : World)
    (hread : Readable (root.dir ++ [n]) w.fs) (hsearch : w.fs.may root.dir 1 = true)
    (hS : (w.fs.get (root.dir ++ [n])).isSome)
    (hdepth : ∀ r, (w.fs.get (root.dir ++ [n] ++ r)).isSome → r.length < depth) :
    (measureOne (byModes umask levels crosses clones) depth root n).wp (fun _ w' => Looks w w')
      (fun _ _ => False) w := by
  induction depth generalizing root n w with
  | zero =>
    have := hdepth [] (by rwa [List.append_nil])
    omega
  | succ depth ih =>
    obtain ⟨nd, hnd⟩ := Option.isSome_iff_exists.1 hS
    simp only [measureOne, Act.wp_bind]
    refine Act.wp_mono (metadata_modes root n hnd hsearch) ?_ (fun _ _ h => h)
    rintro st w₁ ⟨rfl, rfl⟩
    cases nd with
    | dir m u =>
      have hmay : w.fs.may (root.dir ++ [n]) 5 = true := by
        rw [Tree.may, hnd]
        exact hread.may [] (.dir m u) (by rw [List.append_nil, hnd])
      have hbranch : w.fs.isBranch (root.dir ++ [n]) = true :=
        w.fs.isBranch_iff.2 ⟨_, hnd, rfl⟩
      simp only [Node.stat, Act.wp_bind]
      refine Act.wp_mono (sub_modes root n hbranch hsearch) ?_
        (fun _ _ h => h (tree_may_mono (by decide) hmay))
      rintro sub w₂ ⟨rfl, rfl, -⟩
      refine Act.wp_mono (readDir_modes _ hbranch hmay) ?_ (fun _ _ h => h)
      rintro children w₃ ⟨rfl, rfl⟩
      have hsum : ∀ (cs : List Name) (w' : World), Looks w w' →
          (∀ c ∈ cs, (w.fs.get (root.dir ++ [n] ++ [c])).isSome) →
          (sumOver (measureOne (byModes umask levels crosses clones) depth
            ⟨root.dir ++ [n], root.path ++ n.rel⟩) cs).wp (fun _ w'' => Looks w w'')
            (fun _ _ => False) w' := by
        intro cs
        induction cs with
        | nil => exact fun w' h _ => h
        | cons c cs ihcs =>
          intro w' h hcs
          simp only [sumOver, Act.wp_bind, Act.wp_pure]
          have hcons : ∀ r, root.dir ++ [n] ++ [c] ++ r = root.dir ++ [n] ++ (c :: r) := by simp
          refine Act.wp_mono (ih _ c w' ?_ ?_ ?_ ?_) (fun _ w'' h' => ?_) (fun _ _ h => h)
          · rw [h.1]
            exact hread.child c
          · rw [h.1]
            exact tree_may_mono (by decide) hmay
          · rw [h.1]
            exact hcs c List.mem_cons_self
          · intro r hr
            rw [h.1, hcons] at hr
            have := hdepth (c :: r) hr
            simpa using this
          · exact Act.wp_mono (ihcs w'' (h.trans h') fun c' hc' =>
              hcs c' (List.mem_cons_of_mem _ hc')) (fun _ _ h => h) (fun _ _ h => h)
      refine Act.wp_mono (hsum _ _ ⟨rfl, rfl⟩ fun c hc => w.fs.mem_names.1 hc) (fun _ _ h => h)
        (fun _ _ h => h)
    | _ => exact Looks.tick w

/-- A directory is opened by its path exactly when it may be read. -/
theorem open_modes (path : PathBuf) {d : Path}
    (hres : (byModes umask levels crosses clones).resolve w.fs path = .ok d)
    (hbranch : w.fs.isBranch d = true) :
    (Root.open (byModes umask levels crosses clones) path).wp
      (fun root w' => root = ⟨d, path⟩ ∧ w' = w.tick ∧ w.fs.may d 4 = true)
      (fun _ _ => ¬ w.fs.may d 4 = true) w := by
  simp only [Root.open, Act.wp_bind, Act.wp_get, hres, Act.wp_mapErr, Act.wp_ite, Act.wp_pure,
    Act.wp_fail]
  refine Act.wp_mono (query_byModes _ _ w) ?_ (fun e w' h hmay => h ⟨?_, _, rfl⟩)
  · rintro isDir w' ⟨hallow, hd, rfl⟩
    obtain rfl := Except.ok.inj hd
    simp only [allows, Bool.and_eq_true] at hallow
    exact ⟨fun _ => ⟨trivial, rfl, hallow.2⟩, fun h => absurd hbranch h⟩
  · rw [allows, may_of_searchable (resolve_search hres), hmay]
    rfl

theorem split_modes (path : PathBuf) {d : Path} {n : Name}
    (hplace : (byModes umask levels crosses clones).place w.fs path = some (d ++ [n]))
    (hS : (w.fs.get (d ++ [n])).isSome) :
    (split (byModes umask levels crosses clones) path).wp
      (fun r w' => r.1.dir = d ∧ r.2 = n ∧ w' = w.tick ∧ w.fs.may d 4 = true)
      (fun _ _ => ¬ w.fs.may d 4 = true) w := by
  obtain ⟨parent, rfl, hres⟩ := place_eq_some hplace
  simp only [split, parent_join, fileName_join, Act.wp_bind, Act.wp_mapErr, Act.wp_pure]
  refine Act.wp_mono (open_modes parent hres (w.fs.isBranch_of_get hS)) ?_ (fun _ _ h => h)
  rintro root w' ⟨rfl, rfl, hmay⟩
  rw [nameOf, toName?_val]
  exact ⟨rfl, rfl, rfl, hmay⟩

/-- A destination outside the source is not held by it. -/
theorem holdsDest_outside {k : Kernel} {src destDir : PathBuf} {S d : Path} {n : Name} {nd : Node}
    (hplace : k.place w.fs src = some (S ++ [n])) (hnd : w.fs.get (S ++ [n]) = some nd)
    (hdest : k.resolve w.fs destDir = .ok d) (hout : ¬ S ++ [n] <+: d) :
    (holdsDest k nd.stat destDir src).wp (fun b w' => b = false ∧ w' = w) (fun _ _ => False) w := by
  simp only [holdsDest, Act.wp_ite, Act.wp_pure]
  refine ⟨fun hdir => ?_, fun _ => ⟨trivial, trivial⟩⟩
  simp only [isInside, Act.wp_bind, Act.wp_get, hdest]
  cases hres : k.resolve w.fs src with
  | error e => exact ⟨rfl, rfl⟩
  | ok e =>
    obtain ⟨parent, rfl, hparent⟩ := place_eq_some hplace
    obtain ⟨d', hd', hjoin⟩ := resolve_join (resolve_ne_nil hparent) hres
    obtain rfl : S = d' := Except.ok.inj (hparent.symm.trans hd')
    have he : e = S ++ [n] := by
      refine hjoin fun target htarget => ?_
      obtain rfl := Option.some.inj (hnd.symm.trans htarget)
      simp [Node.stat] at hdir
    rw [he]
    exact ⟨decide_eq_false hout, rfl⟩

/-- A copy as the user asks for it: of a source that can be read, to a free name in a directory that
can be written and is outside the source. -/
structure Asked (k : Kernel) (t : Tree) (src destDir : PathBuf) (S : Path) (n : Name) (d : Path) :
    Prop where
  source : k.place t src = some (S ++ [n])
  there : (t.get (S ++ [n])).isSome
  search : t.may S 1 = true
  readable : Readable (S ++ [n]) t
  levels : ∀ r, (t.get (S ++ [n] ++ r)).isSome → r.length < k.levels
  dest : k.resolve t destDir = .ok d
  branch : t.isBranch d = true
  write : t.may d 3 = true
  free : t.get (d ++ [n.toStringLossy]) = none
  outside : ¬ S ++ [n] <+: d

theorem Asked.apart {k : Kernel} {t : Tree} {src destDir : PathBuf} {S d : Path} {n : Name}
    (h : Asked k t src destDir S n d) : Apart (S ++ [n]) (d ++ [n.toStringLossy]) :=
  .of_free h.there h.free h.outside

/-- The source was copied to its end: its place is a mirror of it, and the rest is as it was. -/
structure Arrived (k : Kernel) (S T : Path) (t t' : Tree) : Prop where
  mirrored : Mirrored k S T t t'
  grows : t.Grows T t'

theorem runItem_modes (hrep : ∀ h, rep h = .continue) (conflict : Conflict) {src destDir : PathBuf}
    {S d : Path} {n : Name}
    (h : Asked (byModes umask levels crosses clones) w.fs src destDir S n d) :
    (runItem (byModes umask levels crosses clones) rep ⟨d, destDir⟩ destDir conflict false
      (src, none)).wp
      (fun flow w' => flow = .continue ∧ (w.fs.may S 4 = true ∧
          CopyWorks (byModes umask levels crosses clones) (S ++ [n]) w.fs) ∧
        Arrived (byModes umask levels crosses clones) (S ++ [n]) (d ++ [n.toStringLossy]) w.fs w'.fs)
      (fun _ _ => ¬ (w.fs.may S 4 = true ∧
        CopyWorks (byModes umask levels crosses clones) (S ++ [n]) w.fs)) w := by
  obtain ⟨nd, hnd⟩ := Option.isSome_iff_exists.1 h.there
  simp only [runItem, Act.wp_bind, Act.wp_ite, Act.wp_fail, Option.getD_none]
  refine Act.wp_mono (split_modes src h.source h.there) ?_ (fun _ _ hno hw => hno hw.1)
  rintro ⟨srcRoot, name⟩ w₁ ⟨rfl, rfl, rfl, hmayS⟩
  refine Act.wp_mono (metadata_modes srcRoot name hnd h.search) ?_ (fun _ _ h => h.elim)
  rintro st w₂ ⟨rfl, rfl⟩
  refine Act.wp_mono (holdsDest_outside (w := w.tick.tick) h.source hnd h.dest h.outside) ?_
    (fun _ _ h => h.elim)
  rintro inside w₃ ⟨rfl, rfl⟩
  refine ⟨fun hin => by simp at hin, fun _ => ?_⟩
  refine Act.wp_mono (resolveConflict_free ⟨d, destDir⟩ name.toStringLossy conflict src h.free) ?_
    (fun _ _ h => h.elim)
  rintro _ w₄ ⟨rfl, hfs, -⟩
  replace hfs : w₄.fs = w.fs := hfs
  simp only [Act.wp_bind, wp_noteRenamed, ne_eq, not_true_eq_false, if_false, transfer, copyOver,
    Bool.false_eq_true, Act.wp_ite, Act.wp_pure, wp_setOut]
  have hcopy := copyNode_modes umask levels crosses clones hrep levels srcRoot name ⟨d, destDir⟩ name.toStringLossy w₄
    h.apart (hfs ▸ h.free) (hfs ▸ h.branch) (hfs ▸ h.search) (hfs ▸ h.readable) (hfs ▸ h.there)
    (hfs ▸ h.levels)
  refine Act.wp_mono (Act.wp_and (Act.wp_and ((copyNode_adds _ _ _ _ _).wp w₄)
    (copyNode_spec _ srcRoot name ⟨d, destDir⟩ name.toStringLossy h.apart (hfs ▸ h.free))) hcopy) ?_ ?_
  · rintro flow w₅ ⟨⟨hadds, hmirror, -⟩, rfl, -, hworks⟩
    rw [hfs] at hmirror hworks
    refine ⟨fun hc => by simp at hc, fun _ => ⟨trivial, ⟨hmayS, hworks⟩, hmirror rfl, ?_⟩⟩
    rw [← hfs]
    exact hadds
  · rintro e w₅ ⟨-, hno⟩ hw
    rw [hfs] at hno
    exact hno ⟨h.write, hw.2⟩

/-- What the modes have to grant beside what the user was asked to check. -/
def ModesAllow (k : Kernel) (t : Tree) (S d : Path) (n : Name) : Prop :=
  t.may d 4 = true ∧ t.may S 4 = true ∧ CopyWorks k (S ++ [n]) t

theorem checkSpace_modes (sources : List PathBuf) (dest : Root) (destDir : PathBuf) (n : ℕ) :
    checkSpace (byModes umask levels crosses clones) sources dest destDir n = pure () := rfl

/-- **A copy under the modes** comes to its end exactly when they allow it, and then it has
arrived. -/
theorem copy_modes (hrep : ∀ h, rep h = .continue) (conflict : Conflict) {src destDir : PathBuf}
    {S d : Path} {n : Name}
    (h : Asked (byModes umask levels crosses clones) w.fs src destDir S n d) :
    (copy (byModes umask levels crosses clones) rep [src] destDir conflict).wp
      (fun _ w' => ModesAllow (byModes umask levels crosses clones) w.fs S d n ∧
        Arrived (byModes umask levels crosses clones) (S ++ [n]) (d ++ [n.toStringLossy]) w.fs w'.fs)
      (fun _ _ => ¬ ModesAllow (byModes umask levels crosses clones) w.fs S d n) w := by
  simp only [copy, run, prepare, checkNames, Act.lift_ok, pure_bind, bind_assoc, pairNames,
    Act.each_singleton, Act.wp_ite, Act.wp_bind, Act.wp_pure, wp_endJob]
  refine ⟨fun hnil => by simp at hnil, fun _ => ?_⟩
  refine Act.wp_mono (open_modes destDir h.dest h.branch) ?_ (fun _ _ hno hw => hno hw.1)
  rintro dest w₁ ⟨rfl, rfl, hmayd⟩
  simp only [measure, sumOver, Act.wp_bind, Act.wp_pure]
  refine Act.wp_mono (split_modes (w := w.tick) src h.source h.there) ?_
    (fun _ _ hno hw => hno hw.2.1)
  rintro ⟨srcRoot, name⟩ w₂ ⟨rfl, rfl, rfl, -⟩
  refine Act.wp_mono (measureOne_modes levels srcRoot name w.tick.tick h.readable h.search h.there
    h.levels) ?_ (fun _ _ h => h.elim)
  rintro total w₃ hlooks
  have hfs : w₃.fs = w.fs := hlooks.1
  simp only [checkSpace_modes, Act.wp_pure, startJob, wp_setJob]
  refine Act.wp_mono (runItem_modes hrep conflict (hfs ▸ h)) ?_ ?_
  swap
  · intro e w' hno hw
    exact hno (hfs ▸ hw.2)
  rintro flow w₄ ⟨rfl, hworks, harrived⟩
  simp only [hfs] at hworks harrived
  exact ⟨⟨hmayd, hworks⟩, harrived⟩

/-! ## Faithful copies -/

/-- The subtree at `T` is that at `S`, and nothing else has changed. -/
structure Faithful (S T : Path) (t t' : Tree) : Prop where
  same : ∀ r, (t'.get (T ++ r)).map Node.likeness = (t.get (S ++ r)).map Node.likeness
  source : ∀ r, t'.get (S ++ r) = t.get (S ++ r)
  others : ∀ x, ¬ T <+: x → t'.get x = t.get x

theorem dirMode_and (k : Kernel) (m : ℕ) : k.dirMode m &&& 0o7777 = k.dirMode m := by
  have hbits : (0o1777 : ℕ) &&& 0o7777 = 0o1777 := by decide
  rw [Kernel.dirMode, Nat.and_assoc, Nat.and_comm _ 0o7777, ← Nat.and_assoc, Nat.and_assoc m, hbits]

/-- Of a mirrored node only the mode of a directory may be another. -/
theorem Mirrors.likeness_iff {k : Kernel} {a b : Option Node} (h : Mirrors k a b) (howns : k.Owns)
    (hno : ∀ kind, a ≠ some (.special kind)) :
    b.map Node.likeness = a.map Node.likeness ↔
      ∀ m u, a = some (.dir m u) → k.dirMode (m &&& 0o7777) = m &&& 0o7777 := by
  cases h with
  | nothing => simp
  | special kind => exact absurd rfl (hno kind)
  | symlink target => simp
  | dir m u =>
    simp only [Option.map_some, Option.some.injEq, Node.likeness, Prod.mk.injEq, Node.content,
      Node.perm, dirMode_and, true_and, Node.dir.injEq]
    exact ⟨fun h m' u' hm => hm.1 ▸ h, fun h => h m u ⟨rfl, rfl⟩⟩
  | file m m' u b hm =>
    obtain rfl := hm howns
    simp only [Option.map_some, Node.likeness, Node.content, Node.perm, Nat.and_assoc, Nat.and_self,
      reduceCtorEq, false_implies, implies_true, Option.some.injEq]

/-- The directories arrive with the mode they have. -/
def ModesSurvive (k : Kernel) (S : Path) (t : Tree) : Prop :=
  ∀ r m u, t.get (S ++ r) = some (.dir m u) → k.dirMode (m &&& 0o7777) = m &&& 0o7777

/-- **What has arrived is faithful exactly when the modes of its directories survive `mkdir`.** -/
theorem Arrived.faithful_iff {k : Kernel} {S T : Path} {t t' : Tree} (h : Arrived k S T t t')
    (howns : k.Owns) (hno : NoSpecial S t) (hapart : Apart S T) :
    Faithful S T t t' ↔ ModesSurvive k S t := by
  have hsame : (∀ r, (t'.get (T ++ r)).map Node.likeness = (t.get (S ++ r)).map Node.likeness) ↔
      ModesSurvive k S t :=
    forall_congr' fun r => (h.mirrored r).likeness_iff howns (hno r)
  refine ⟨fun hf => hsame.1 hf.same, fun hm => ⟨hsame.2 hm, fun r => ?_, h.grows.outside⟩⟩
  exact h.grows.outside _ (hapart.not_below r)

/-! ## Stopped copies -/

/-- Every regular file at or below `T` has all the bytes of the file at its place below `S`. -/
def WholeFiles (S T : Path) (t t' : Tree) : Prop :=
  ∀ r m u b, t'.get (T ++ r) = some (.file m u b) → ∃ m' u', t.get (S ++ r) = some (.file m' u' b)

theorem PartlyMirrored.wholeFiles {k : Kernel} {S T : Path} {t t' : Tree}
    (h : PartlyMirrored k S T t t') : WholeFiles S T t t' := by
  intro r m u b hr
  rcases h r with hnone | hm
  · simp [hnone] at hr
  · rw [hr] at hm
    generalize t.get (S ++ r) = a at hm
    cases hm with
    | file m' _ u' _ _ => exact ⟨m', u', rfl⟩

theorem WholeFiles.of_fs {S T : Path} {t t' : Tree} (hfs : t' = t) (hfree : t.get T = none) :
    WholeFiles S T t t' := by
  intro r m u b hr
  rw [hfs, t.get_append_of_none hfree] at hr
  simp at hr

/-- **However a copy ends, it leaves no half written file**, whatever the reporter answers, when
reads and writes do not fail and what was created can be unlinked. -/
theorem copy_wholeFiles {k : Kernel} (hundo : k.Undoes) (hsteady : k.Steady) (rep : Reporter)
    (conflict : Conflict) {src destDir : PathBuf} {S d : Path} {n : Name}
    (h : Asked k w.fs src destDir S n d) :
    WholeFiles (S ++ [n]) (d ++ [n.toStringLossy]) w.fs
      (copy k rep [src] destDir conflict w).2.fs := by
  set P : World → Prop := fun w' => WholeFiles (S ++ [n]) (d ++ [n.toStringLossy]) w.fs w'.fs with hP
  have hlooks : ∀ {w' : World}, w'.fs = w.fs → P w' := fun hfs => .of_fs hfs h.free
  refine Act.wp_state (P := P) ?_
  simp only [copy, run, Act.wp_ite, Act.wp_bind, Act.wp_pure]
  refine ⟨fun hnil => by simp at hnil, fun _ => ?_⟩
  refine Act.wp_mono (prepare_spec [src] [] destDir w) ?_ (fun _ _ hl => hlooks hl.1)
  rintro ⟨dest, items⟩ w₁ ⟨h₁, -, -, hres, rfl, -, typed, htyped, rfl⟩
  obtain rfl : [] = typed := Except.ok.inj htyped
  obtain rfl : d = dest.dir := Except.ok.inj (h.dest.symm.trans hres)
  simp only [pairNames, Act.each_singleton, Act.wp_bind, Act.wp_ite, runItem, Act.wp_fail,
    Option.getD_none, wp_endJob]
  refine Act.wp_mono (split_spec src w₁) ?_ (fun _ _ hl => hlooks (hl.1.trans h₁))
  rintro ⟨srcRoot, name⟩ w₂ ⟨h₂, hplace, -⟩
  rw [h₁, h.source] at hplace
  obtain ⟨rfl, hname⟩ := List.append_inj' (Option.some.inj hplace) rfl
  obtain rfl : n = name := List.singleton_inj.1 hname
  have hfs₂ : w₂.fs = w.fs := h₂.1.trans h₁
  refine Act.wp_mono ((looks_metadata srcRoot n).wp w₂) (fun st w₃ h₃ => ?_)
    (fun _ _ hl => hlooks (hl.1.trans hfs₂))
  refine Act.wp_mono ((looks_holdsDest st dest.path src).wp w₃) (fun inside w₄ h₄ => ?_)
    (fun _ _ hl => hlooks ((h₃.trans hl).1.trans hfs₂))
  have hfs₄ : w₄.fs = w.fs := (h₃.trans h₄).1.trans hfs₂
  refine ⟨fun _ => hlooks hfs₄, fun _ => ?_⟩
  refine Act.wp_mono (resolveConflict_free dest n.toStringLossy conflict src (by rw [hfs₄, h.free]))
    ?_ (fun _ _ h => h.elim)
  rintro _ w₅ ⟨rfl, h₅⟩
  have hfs₅ : w₅.fs = w.fs := h₅.1.trans hfs₄
  simp only [Act.wp_bind, wp_noteRenamed, ne_eq, not_true_eq_false, if_false, transfer, copyOver,
    Bool.false_eq_true, Act.wp_ite, Act.wp_pure, wp_setOut]
  refine Act.wp_mono (copyNode_spec (w := w₅) _ srcRoot n dest n.toStringLossy h.apart
    (hfs₅ ▸ h.free)) (fun flow w₆ h₆ => ?_) (fun _ w₆ h₆ => ?_)
  · have hwhole : P w₆ := by
      have := (h₆.2 hundo).wholeFiles
      rwa [hfs₅] at this
    exact ⟨fun _ => hwhole, fun _ => hwhole⟩
  · have := (h₆ hundo hsteady).wholeFiles
    rwa [hfs₅] at this

theorem steady_byModes : (byModes umask levels crosses clones).Steady := fun c t p => by
  simp [allows]

/-- What `Asked` says of all nodes of the source, checked on the entries of the tree. -/
theorem Asked.of_entries {k : Kernel} {t : Tree} {src destDir : PathBuf} {S d : Path} {n : Name}
    (source : k.place t src = some (S ++ [n])) (dest : k.resolve t destDir = .ok d)
    (here : (t.get (S ++ [n])).isSome ∧ t.may S 1 = true ∧ t.isBranch d = true ∧
      t.may d 3 = true ∧ t.get (d ++ [n.toStringLossy]) = none ∧ ¬ S ++ [n] <+: d)
    (below : ∀ e ∈ t.entries, S ++ [n] <+: e.1 →
      e.2.may (if e.2.isDir then 5 else 4) = true ∧ e.2.isSpecial = false ∧
      (e.1.drop (S ++ [n]).length).length < k.levels) :
    Asked k t src destDir S n d := by
  have hall := t.forall_below (P := fun r nd => nd.may (if nd.isDir then 5 else 4) = true ∧
    nd.isSpecial = false ∧ r.length < k.levels) below
  obtain ⟨there, search, branch, write, free, outside⟩ := here
  refine ⟨source, there, search, ⟨fun r nd hr => (hall r nd hr).1, fun r kind hr => ?_⟩,
    fun r hr => ?_, dest, branch, write, free, outside⟩
  · have := (hall r _ hr).2.1
    simp [Node.isSpecial] at this
  · obtain ⟨nd, hnd⟩ := Option.isSome_iff_exists.1 hr
    exact (hall r nd hnd).2.2

/-- The modes, with the mask that is usual. -/
def userModes : Kernel := byModes 0o022 4 (fun _ _ => false) (fun _ _ => false)

/-- A folder with a file and a link in it, and another folder. -/
def plainFolder : World := .ofList
  [(Path.of ["home"], .dir 0o755 .owner), (Path.of ["home", "src"], .dir 0o755 .owner),
    (Path.of ["home", "src", "main"], .file 0o600 .owner [7]),
    (Path.of ["home", "src", "link"], .symlink (text "main")), (Path.of ["usb"], .dir 0o755 .owner)]

/-- A folder that its owner may read and not write, with a file in it, and another folder. -/
def readOnlyFolder : World := .ofList
  [(Path.of ["home"], .dir 0o755 .owner), (Path.of ["home", "keys"], .dir 0o555 .owner),
    (Path.of ["home", "keys", "id"], .file 0o400 .owner [7]), (Path.of ["usb"], .dir 0o755 .owner)]

end Aurade.Ops
