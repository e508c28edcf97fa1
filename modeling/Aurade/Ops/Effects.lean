import Aurade.Fs.Resolve
import Aurade.Ops.Fs

/-!
# What each helper does to the tree

Every operation is made of a few helpers, and each of these changes the tree in one of four ways:

* `Looks`: it only looks, and leaves the job as it was too;
* `Grows p`: it adds nodes at or below `p` and changes none that was there (`copyNode_grows`);
* `Shrinks p`: it takes nodes away at or below `p` (`removeTree_spec`);
* a rename, of which `Aurade.Fs.Tree.rename_ok` says everything.

`Kernel.Honest` is the one assumption about the kernel that later modules make: it lets no rename
land on a name that it refused to look at. A name that `exists` found free is then free for the
rename that follows (`Free`), whatever else is refused.
-/

namespace Aurade

namespace Fs

namespace Tree

/-- Nodes were added at or below `p`, and none that was there is gone or changed. -/
structure Grows (p : Path) (t t' : Tree) : Prop where
  keeps : ∀ x nd, t.get x = some nd → t'.get x = some nd
  outside : ∀ x, ¬ p <+: x → t'.get x = t.get x

/-- Nodes at or below `p` may be gone, and nothing else is different. -/
structure Shrinks (p : Path) (t t' : Tree) : Prop where
  subset : ∀ x nd, t'.get x = some nd → t.get x = some nd
  outside : ∀ x, ¬ p <+: x → t'.get x = t.get x

/-- The subtree at `p` is gone, and nothing else is different. -/
def Cut (p : Path) (t t' : Tree) : Prop := ∀ x, t'.get x = if p <+: x then none else t.get x

/-- Only the node at `p` may be different. -/
def Touches (p : Path) (t t' : Tree) : Prop := ∀ x, x ≠ p → t'.get x = t.get x

namespace Grows

variable {p q : Path} {t t' t'' : Tree}

theorem refl (p : Path) (t : Tree) : Grows p t t := ⟨fun _ _ h => h, fun _ _ => rfl⟩

theorem trans (h : Grows p t t') (h' : Grows p t' t'') : Grows p t t'' :=
  ⟨fun x nd hx => h'.keeps x nd (h.keeps x nd hx),
    fun x hx => (h'.outside x hx).trans (h.outside x hx)⟩

theorem mono (h : Grows q t t') (hpq : p <+: q) : Grows p t t' :=
  ⟨h.keeps, fun x hx => h.outside x fun hq => hx (hpq.trans hq)⟩

/-- Whatever happens at a place that was free adds nodes there. -/
theorem of_touches (h : Touches q t t') (hfree : t.get q = none) : Grows q t t' := by
  refine ⟨fun x nd hx => ?_, fun x hx => h x fun he => hx (he ▸ List.prefix_rfl)⟩
  rw [h x, hx]
  rintro rfl
  simp [hfree] at hx

end Grows

namespace Shrinks

variable {p q : Path} {t t' t'' : Tree}

theorem refl (p : Path) (t : Tree) : Shrinks p t t := ⟨fun _ _ h => h, fun _ _ => rfl⟩

theorem trans (h : Shrinks p t t') (h' : Shrinks p t' t'') : Shrinks p t t'' :=
  ⟨fun x nd hx => h.subset x nd (h'.subset x nd hx),
    fun x hx => (h'.outside x hx).trans (h.outside x hx)⟩

theorem mono (h : Shrinks q t t') (hpq : p <+: q) : Shrinks p t t' :=
  ⟨h.subset, fun x hx => h.outside x fun hq => hx (hpq.trans hq)⟩

end Shrinks

namespace Cut

variable {p : Path} {t t' : Tree}

theorem shrinks (h : Cut p t t') : Shrinks p t t' := by
  refine ⟨fun x nd hx => ?_, fun x hx => by rw [h x, if_neg hx]⟩
  rw [h x] at hx
  split at hx
  · simp at hx
  · exact hx

/-- A node with nothing below it was taken away. -/
theorem of_erase {u : Tree} (hs : Shrinks p t t') (hleaf : t'.names p = [])
    (hx : ∀ x, u.get x = if x = p then none else t'.get x) : Cut p t u := by
  intro x
  rw [hx x]
  split
  · next h => rw [if_pos (h ▸ List.prefix_rfl)]
  · next h =>
    split
    · next hp =>
      obtain ⟨r, rfl⟩ := hp
      exact t'.names_eq_nil_iff.1 hleaf r (by rintro rfl; simp at h)
    · next hp => exact hs.outside x hp

end Cut

/-- The subtree at `p` went to the place `q`, which was free. -/
structure Moved (p q : Path) (t t' : Tree) : Prop where
  source : (t.get p).isSome
  free : t.get q = none
  apart : ¬ p <+: q
  get : ∀ x, t'.get x = if q <+: x then t.get (p ++ x.drop q.length)
    else if p <+: x then none else t.get x

theorem moved_of_rename {p q : Path} {n m : Name} {t t' : Tree} (h : t.rename p n q m = .ok t')
    (hfree : t.get (q ++ [m]) = none) : Moved (p ++ [n]) (q ++ [m]) t t' := by
  obtain ⟨⟨nd, hnd, -⟩, -, ⟨heq, -⟩ | ⟨hpq, -, hx⟩⟩ := rename_ok h
  · rw [heq, hfree] at hnd
    simp at hnd
  · exact ⟨by simp [hnd], hfree, hpq, hx⟩

namespace Moved

variable {p q : Path} {t t' : Tree}

/-- Whatever is not in the subtree stays. -/
theorem get_of_outside (h : Moved p q t t') {x : Path} {nd : Node} (hx : t.get x = some nd)
    (hp : ¬ p <+: x) : t'.get x = some nd := by
  rw [h.get x, if_neg, if_neg hp, hx]
  intro hq
  simp [t.get_of_prefix_of_none h.free hq] at hx

end Moved

theorem touches_of_ite {p : Path} {t t' : Tree} {f : Path → Option Node}
    (h : ∀ x, t'.get x = if x = p then f x else t.get x) : Touches p t t' := fun x hx => by
  rw [h x, if_neg hx]

end Tree

/-- Nothing was done but to look. -/
def Looks (w w' : World) : Prop := w'.fs = w.fs ∧ w'.job = w.job

theorem Looks.refl (w : World) : Looks w w := ⟨rfl, rfl⟩

theorem Looks.trans {w w' w'' : World} (h : Looks w w') (h' : Looks w' w'') : Looks w w'' :=
  ⟨h'.1.trans h.1, h'.2.trans h.2⟩

theorem Looks.tick (w : World) : Looks w w.tick := ⟨rfl, rfl⟩

/-- As far as the kernel lets it be seen, there is nothing at the place. -/
def Kernel.Free (k : Kernel) (t : Tree) (p : Path) : Prop :=
  t.get p = none ∨ ∃ c, (k.refuse c (.stat p) t).isSome

/-- No rename lands on a place that may not be looked at: both need the same search permission on
the directories above it. -/
def Kernel.Honest (k : Kernel) : Prop :=
  ∀ t p, (∃ c, (k.refuse c (.stat p) t).isSome) → ∀ c q, (k.refuse c (.rename q p) t).isSome

theorem Kernel.honest_calm (levels : ℕ) : (Kernel.calm levels).Honest := by
  rintro t p ⟨c, hc⟩
  simp [Kernel.calm] at hc

end Fs

namespace Ops

open Fs

variable {k : Kernel} {rep : Reporter}

theorem eq_cancel {flow : Flow} (h : flow ≠ .continue) : flow = .cancel := by
  cases flow with
  | «continue» => exact absurd rfl h
  | cancel => rfl

theorem eq_continue {flow : Flow} (h : flow ≠ .cancel) : flow = .continue := by
  cases flow with
  | «continue» => rfl
  | cancel => exact absurd rfl h

section Job

variable {Q : Unit → World → Prop} {E : Error → World → Prop} {w : World}

@[simp] theorem wp_setJob (f : Job → Job) :
    (setJob f).wp Q E w ↔ Q () { w with job := f w.job } := Iff.rfl

@[simp] theorem wp_setProgress (f : Progress → Progress) : (setProgress f).wp Q E w ↔
    Q () { w with job := { w.job with progress := f w.job.progress } } := Iff.rfl

@[simp] theorem wp_setOut (f : Outcome → Outcome) : (setOut f).wp Q E w ↔
    Q () { w with job := { w.job with out := f w.job.out } } := Iff.rfl

@[simp] theorem wp_noteRenamed (leaf target : Name) (src dest : PathBuf) :
    (noteRenamed leaf target src dest).wp Q E w ↔ Q () { w with job := { w.job with out :=
      if target ≠ leaf then { w.job.out with renamed := w.job.out.renamed ++ [(src, dest)] }
      else w.job.out } } := by
  unfold noteRenamed
  split <;> rfl

@[simp] theorem wp_endJob (flow : Flow) (Q : Outcome → World → Prop) : (endJob flow).wp Q E w ↔
    Q (if flow = .cancel then { w.job.out with cancelled := true } else w.job.out)
      { w with job := { w.job with out :=
        if flow = .cancel then { w.job.out with cancelled := true } else w.job.out } } := by
  cases flow <;> rfl

@[simp] theorem wp_report (Q : Flow → World → Prop) : (report rep).wp Q E w ↔
    Q (rep (w.job.progress :: w.job.seen))
      { w with job := { w.job with seen := w.job.progress :: w.job.seen } } := Iff.rfl

end Job

/-! ## Looking -/

theorem looks_bind {α β : Type} {m : Act World Error α} {f : α → Act World Error β}
    (hm : Act.Stays Looks m) (hf : ∀ a, Act.Stays Looks (f a)) : Act.Stays Looks (m >>= f) :=
  Act.Stays.bind (R := Looks) (fun _ _ _ => Looks.trans) hm hf

theorem looks_metadata (root : Root) (n : Name) : Act.Stays Looks (root.metadata k n.rel) := by
  refine Act.Stays.of_wp fun w => ?_
  refine Act.wp_mono (Root.metadata_spec root n w) ?_ ?_
  · rintro st w' ⟨rfl, -⟩
    exact Looks.tick w
  · rintro e w' ⟨rfl, -⟩
    exact Looks.tick w

theorem looks_sub (root : Root) (n : Name) : Act.Stays Looks (root.sub k n.rel) := by
  refine Act.Stays.of_wp fun w => ?_
  refine Act.wp_mono (Root.sub_spec root n w) ?_ ?_
  · rintro st w' ⟨rfl, -⟩
    exact Looks.tick w
  · rintro e w' rfl
    exact Looks.tick w

theorem looks_readDir (root : Root) : Act.Stays Looks (root.readDir k) := by
  refine Act.Stays.of_wp fun w => ?_
  refine Act.wp_mono (Root.readDir_spec root w) ?_ ?_
  · rintro st w' ⟨rfl, -⟩
    exact Looks.tick w
  · rintro e w' rfl
    exact Looks.tick w

theorem looks_exists (root : Root) (n : Name) : Act.Stays Looks (root.exists k n.rel) := by
  refine Act.Stays.of_wp fun w => ?_
  refine Act.wp_mono (Root.exists_spec root n w) ?_ (fun _ _ h => h.elim)
  rintro b w' ⟨rfl, -⟩
  exact Looks.tick w

/-- `split` hands back the directory that the parent names, and the last name. -/
theorem split_spec (path : PathBuf) (w : World) :
    (split k path).wp
      (fun r w' => Looks w w' ∧ k.place w.fs path = some (r.1.dir ++ [r.2]) ∧
        path.fileName = some r.2.val)
      (fun _ w' => Looks w w') w := by
  unfold split
  split
  · exact Looks.refl w
  · exact Looks.refl w
  · next parent name hparent hname =>
    simp only [Act.wp_bind, Act.wp_mapErr, Act.wp_pure]
    refine Act.wp_mono (Root.open_spec parent w) ?_ ?_
    · rintro root w' ⟨rfl, -, hr, -⟩
      cases hn : toName? name with
      | none =>
        simp only [nameOf, hn, Act.wp_fail]
        exact Looks.tick w
      | some n =>
        simp only [nameOf, hn, Act.wp_pure]
        refine ⟨Looks.tick w, ?_, ?_⟩
        · simp only [Kernel.place, hparent, hname, hr, hn]
        · rw [hname, toName?_eq_some hn]
    · rintro e w' (rfl | rfl)
      · exact Looks.refl _
      · exact Looks.tick w

theorem looks_open (path : PathBuf) : Act.Stays Looks (Root.open k path) := by
  refine Act.Stays.of_wp fun w => Act.wp_mono (Root.open_spec path w) ?_ ?_
  · rintro _ w' ⟨rfl, -⟩
    exact Looks.tick w
  · rintro _ w' (rfl | rfl)
    · exact Looks.refl _
    · exact Looks.tick w

theorem looks_split (path : PathBuf) : Act.Stays Looks (split k path) :=
  Act.Stays.of_wp fun w => Act.wp_mono (split_spec path w) (fun _ _ h => h.1) (fun _ _ h => h)

theorem looks_sumOver {ι : Type} {f : ι → Act World Error (ℕ × ℕ)} (h : ∀ x, Act.Stays Looks (f x))
    (xs : List ι) : Act.Stays Looks (sumOver f xs) := by
  induction xs with
  | nil => exact Act.Stays.pure Looks.refl _
  | cons x xs ih =>
    exact looks_bind (h x) fun _ => looks_bind ih fun _ => Act.Stays.pure Looks.refl _

theorem looks_measureOne (depth : ℕ) (root : Root) (n : Name) :
    Act.Stays Looks (measureOne k depth root n) := by
  induction depth generalizing root n with
  | zero => exact Act.Stays.fail Looks.refl _
  | succ depth ih =>
    refine looks_bind (looks_metadata root n) fun st => ?_
    split
    · exact looks_bind (looks_sub root n) fun sub => looks_bind (looks_readDir sub) fun children =>
        looks_bind (looks_sumOver (fun child => ih sub child) children)
          fun _ => Act.Stays.pure Looks.refl _
    · exact Act.Stays.pure Looks.refl _
    · exact Act.Stays.pure Looks.refl _

theorem looks_measure (paths : List PathBuf) : Act.Stays Looks (measure k paths) :=
  looks_sumOver (fun path => looks_bind (looks_split path) fun _ => looks_measureOne _ _ _) paths

theorem looks_isInside (inner outer : PathBuf) : Act.Stays Looks (isInside k inner outer) := by
  refine looks_bind (fun w => Looks.refl w) fun w => ?_
  split <;> exact Act.Stays.pure Looks.refl _

theorem looks_holdsDest (st : Stat) (destDir src : PathBuf) :
    Act.Stays Looks (holdsDest k st destDir src) :=
  Act.Stays.ite (fun _ => looks_isInside destDir src) fun _ => Act.Stays.pure Looks.refl _

theorem uniqueFrom_spec (dir : Root) (name : Name) (tries n : ℕ) (w : World) :
    (uniqueFrom k dir name tries n).wp
      (fun m w' => Looks w w' ∧ k.Free w.fs (dir.dir ++ [m]) ∧ ∃ i, m = numbered name i)
      (fun _ w' => Looks w w') w := by
  induction tries generalizing n w with
  | zero => exact Looks.refl w
  | succ tries ih =>
    simp only [uniqueFrom, Act.wp_bind, Act.wp_ite, Act.wp_pure]
    refine Act.wp_mono (Root.exists_spec dir _ w) ?_ (fun _ _ h => h.elim)
    rintro b w' ⟨rfl, -, hfree⟩
    refine ⟨fun _ => ?_, fun hb => ⟨Looks.tick w, ?_, n, rfl⟩⟩
    · exact Act.wp_mono (ih (n + 1) w.tick) (fun _ _ h => ⟨(Looks.tick w).trans h.1, h.2⟩)
        (fun _ _ h => (Looks.tick w).trans h)
    · exact (hfree (by simpa using hb)).imp_right fun h => ⟨_, h⟩

/-- **The name that `unique_name` gives is free**, and it is the name asked for or a numbered
one. -/
theorem uniqueName_spec (dir : Root) (name : Name) (w : World) :
    (uniqueName k dir name).wp
      (fun m w' => Looks w w' ∧ k.Free w.fs (dir.dir ++ [m]) ∧
        (m = name ∨ ∃ i, m = numbered name i))
      (fun _ w' => Looks w w') w := by
  simp only [uniqueName, Act.wp_bind, Act.wp_ite, Act.wp_pure]
  refine Act.wp_mono (Root.exists_spec dir _ w) ?_ (fun _ _ h => h.elim)
  rintro b w' ⟨rfl, -, hfree⟩
  refine ⟨fun _ => ?_, fun hb => ⟨Looks.tick w, ?_, Or.inl trivial⟩⟩
  · exact Act.wp_mono (uniqueFrom_spec dir name _ _ w.tick)
      (fun _ _ h => ⟨(Looks.tick w).trans h.1, h.2.1, Or.inr h.2.2⟩)
      (fun _ _ h => (Looks.tick w).trans h)
  · exact (hfree (by simpa using hb)).imp_right fun h => ⟨_, h⟩

theorem looks_uniqueName (dir : Root) (name : Name) : Act.Stays Looks (uniqueName k dir name) :=
  Act.Stays.of_wp fun w => Act.wp_mono (uniqueName_spec dir name w) (fun _ _ h => h.1)
    (fun _ _ h => h)

/-! ## Deleting -/

/-- Nodes at or below `p` may be gone, and the job is as it was. -/
def Deletes (p : Path) (w w' : World) : Prop := w.fs.Shrinks p w'.fs ∧ w'.job = w.job

theorem Deletes.trans {p : Path} {w w' w'' : World} (h : Deletes p w w') (h' : Deletes p w' w'') :
    Deletes p w w'' :=
  ⟨h.1.trans h'.1, h'.2.trans h.2⟩

theorem Looks.deletes {w w' : World} (h : Looks w w') (p : Path) : Deletes p w w' :=
  ⟨h.1 ▸ Tree.Shrinks.refl p w.fs, h.2⟩

/-- The last step of `remove_tree`, after the children are gone. -/
theorem remove_cut (root : Root) (n : Name) (dir : Bool) {w w' : World}
    (h : Deletes (root.dir ++ [n]) w w') :
    (root.remove k n.rel dir).wp
      (fun _ w'' => w.fs.Cut (root.dir ++ [n]) w''.fs ∧ w''.job = w.job)
      (fun _ w'' => Deletes (root.dir ++ [n]) w w'') w' := by
  refine Act.wp_mono (Root.remove_spec root n dir w') ?_ ?_
  · rintro _ w'' ⟨t, rfl, -, hleaf, hx⟩
    exact ⟨Tree.Cut.of_erase h.1 hleaf hx, h.2⟩
  · rintro _ w'' rfl
    exact h.trans (Looks.deletes (Looks.tick w') _)

/-- **`remove_tree` takes the whole subtree away when it returns**, and wherever it stops it has
taken away nothing else. -/
theorem removeTree_spec (depth : ℕ) (root : Root) (n : Name) (w : World) :
    (removeTree k depth root n).wp
      (fun _ w' => w.fs.Cut (root.dir ++ [n]) w'.fs ∧ w'.job = w.job)
      (fun _ w' => Deletes (root.dir ++ [n]) w w') w := by
  induction depth generalizing root n w with
  | zero => exact Looks.deletes (Looks.refl w) _
  | succ depth ih =>
    simp only [removeTree, Act.wp_bind, Act.wp_ite]
    refine Act.wp_mono ((looks_metadata root n).wp w) (fun st w' h => ?_)
      (fun _ _ h => Looks.deletes h _)
    refine ⟨fun _ => ?_, fun _ => remove_cut root n false (Looks.deletes h _)⟩
    refine Act.wp_mono (Root.sub_spec root n w') ?_ ?_
    · rintro sub w'' ⟨rfl, rfl, -⟩
      have h' := h.trans (Looks.tick w')
      refine Act.wp_mono ((looks_readDir _).wp _) (fun children w'' h'' => ?_)
        (fun _ _ h'' => Looks.deletes (h'.trans h'') _)
      have hloop : Act.Stays (Deletes (root.dir ++ [n]))
          (Act.each () (removeTree k depth ⟨root.dir ++ [n], root.path ++ n.rel⟩) children) := by
        refine Act.Stays.each (R := Deletes (root.dir ++ [n]))
          (fun w => Looks.deletes (Looks.refl w) _) (fun _ _ _ => Deletes.trans) (fun c => ?_) _
        refine Act.Stays.of_wp fun w => ?_
        refine Act.wp_mono (ih ⟨root.dir ++ [n], root.path ++ n.rel⟩ c w) ?_ ?_
        · rintro _ w' ⟨hc, hj⟩
          exact ⟨hc.shrinks.mono (List.prefix_append _ _), hj⟩
        · rintro _ w' ⟨hs, hj⟩
          exact ⟨hs.mono (List.prefix_append _ _), hj⟩
      have hd := Looks.deletes (h'.trans h'') (root.dir ++ [n])
      refine Act.wp_mono (hloop.wp w'') (fun _ w₃ h₃ => ?_) (fun _ _ h₃ => hd.trans h₃)
      exact remove_cut root n true (hd.trans h₃)
    · rintro _ w'' rfl
      exact Looks.deletes (h.trans (Looks.tick w')) _

theorem removeTree_deletes (depth : ℕ) (root : Root) (n : Name) :
    Act.Stays (Deletes (root.dir ++ [n])) (removeTree k depth root n) :=
  Act.Stays.of_wp fun w => Act.wp_mono (removeTree_spec depth root n w)
    (fun _ _ h => ⟨h.1.shrinks, h.2⟩) (fun _ _ h => h)

/-! ## Conflicts -/

/-- What `resolve_conflict` hands back: a name that is free, and is the one asked for or a numbered
one; or nothing, when the name is taken and was to be skipped. -/
theorem resolveConflict_spec (dest : Root) (leaf : Name) {conflict : Conflict} (src : PathBuf)
    (hc : conflict ≠ .replace) (w : World) :
    (resolveConflict k dest leaf conflict src).wp
      (fun o w' => w'.fs = w.fs ∧ w'.job.seen = w.job.seen ∧ w'.job.progress = w.job.progress ∧
        match o with
        | some target => k.Free w.fs (dest.dir ++ [target]) ∧
          (target = leaf ∨ conflict = .keepBoth ∧ ∃ i, target = numbered leaf i)
        | none => conflict = .skip ∧ (w.fs.get (dest.dir ++ [leaf])).isSome)
      (fun _ w' => Looks w w') w := by
  simp only [resolveConflict, Act.wp_bind, Act.wp_ite, Act.wp_pure]
  refine Act.wp_mono (Root.exists_spec dest leaf w) ?_ (fun _ _ h => h.elim)
  rintro b w' ⟨rfl, htaken, hfree⟩
  refine ⟨fun hb => ?_, fun hb => ?_⟩
  · cases conflict with
    | replace => exact absurd rfl hc
    | fail => exact Looks.tick w
    | skip => exact ⟨rfl, rfl, rfl, rfl, htaken hb⟩
    | keepBoth =>
      simp only [Act.wp_map]
      refine Act.wp_mono (uniqueName_spec dest leaf w.tick) ?_
        (fun _ _ h => (Looks.tick w).trans h)
      rintro n w' ⟨h, hn, hname⟩
      refine ⟨h.1, by rw [h.2]; rfl, by rw [h.2]; rfl, hn, ?_⟩
      exact hname.imp_right fun h => ⟨trivial, h⟩
  · refine ⟨rfl, rfl, rfl, ?_, Or.inl trivial⟩
    exact (hfree (by simpa using hb)).imp_right fun h => ⟨_, h⟩

/-- With a free name there is no conflict. -/
theorem resolveConflict_free (dest : Root) (leaf : Name) (conflict : Conflict) (src : PathBuf)
    (hfree : w.fs.get (dest.dir ++ [leaf]) = none) :
    (resolveConflict k dest leaf conflict src).wp (fun o w' => o = some leaf ∧ Looks w w')
      (fun _ _ => False) w := by
  simp only [resolveConflict, Act.wp_bind, Act.wp_ite, Act.wp_pure]
  refine Act.wp_mono (Root.exists_spec dest leaf w) ?_ (fun _ _ h => h)
  rintro b w' ⟨rfl, htaken, -⟩
  refine ⟨fun hb => ?_, fun _ => ⟨trivial, Looks.tick w⟩⟩
  have := htaken hb
  simp [hfree] at this

/-! ## Copying -/

/-- Only the node at `p` may be different. -/
def Only (p : Path) (w w' : World) : Prop := w.fs.Touches p w'.fs

theorem Only.refl (p : Path) (w : World) : Only p w w := fun _ _ => rfl

theorem Only.trans {p : Path} {w w' w'' : World} (h : Only p w w') (h' : Only p w' w'') :
    Only p w w'' := fun x hx => (h' x hx).trans (h x hx)

theorem Only.of_fs {p : Path} {w w' : World} (h : w'.fs = w.fs) : Only p w w' :=
  fun x _ => by rw [h]

/-- Nodes were added at or below `p`, and none that was there is gone or changed. -/
def Adds (p : Path) (w w' : World) : Prop := w.fs.Grows p w'.fs

theorem Adds.trans {p : Path} {w w' w'' : World} (h : Adds p w w') (h' : Adds p w' w'') :
    Adds p w w'' := Tree.Grows.trans h h'

theorem Adds.of_fs {p : Path} {w w' : World} (h : w'.fs = w.fs) : Adds p w w' := by
  rw [Adds, h]
  exact Tree.Grows.refl p w.fs

theorem Adds.mono {p q : Path} {w w' : World} (h : Adds q w w') (hpq : p <+: q) : Adds p w w' :=
  Tree.Grows.mono h hpq

section Only

variable (p : Path)

theorem only_setJob (f : Job → Job) : Act.Stays (Only p) (setJob f) := fun _ => Only.of_fs rfl

theorem only_report : Act.Stays (Only p) (report rep) := fun _ => Only.of_fs rfl

theorem only_bind {α β : Type} {m : Act World Error α} {f : α → Act World Error β}
    (hm : Act.Stays (Only p) m) (hf : ∀ a, Act.Stays (Only p) (f a)) : Act.Stays (Only p) (m >>= f) :=
  Act.Stays.bind (R := Only p) (fun _ _ _ => Only.trans) hm hf

theorem only_countBytes (n : ℕ) : Act.Stays (Only p) (countBytes n) :=
  only_bind p (only_setJob p _) fun _ => only_setJob p _

theorem only_read (pos len : ℕ) (q : Path) : Act.Stays (Only p) (k.read q pos len) :=
  Act.Stays.of_wp fun w => Act.wp_mono (Kernel.read_spec q pos len w)
    (fun _ _ h => Only.of_fs (by rw [h.1]; rfl)) (fun _ _ h => Only.of_fs (by rw [h]; rfl))

theorem only_write (new : Bytes) : Act.Stays (Only p) (k.write p new) := by
  refine Act.Stays.of_wp fun w => Act.wp_mono (k.write_spec p new w) ?_ ?_
  · rintro _ w' ⟨t, rfl, -, hx⟩
    exact Tree.touches_of_ite hx
  · rintro _ w' ⟨t, part, rfl, hx⟩
    exact Tree.touches_of_ite hx

theorem only_clone (q : Path) : Act.Stays (Only p) (k.clone q p) := by
  refine Act.Stays.of_wp fun w => Act.wp_mono (Kernel.clone_spec q p w) ?_ ?_
  · rintro _ w' ⟨t, m, u, b, rfl, -, hx⟩
    exact Tree.touches_of_ite hx
  · rintro _ w' rfl
    exact Only.of_fs rfl

theorem only_finishFile (st : Stat) : Act.Stays (Only p) (finishFile k p st) := by
  refine only_bind p (Act.Stays.attempt (Act.Stays.of_wp fun w => ?_))
    fun _ => Act.Stays.pure (Only.refl p) _
  refine Act.wp_mono (Kernel.chmod_spec p _ w) ?_ ?_
  · rintro _ w' ⟨t, rfl, hx⟩
    exact Tree.touches_of_ite hx
  · rintro _ w' rfl
    exact Only.of_fs rfl

theorem only_copyLoop (input : Path) (dest : Root) (srcName destName : Name) (turns pos : ℕ)
    (hp : p = dest.dir ++ [destName]) :
    Act.Stays (Only p) (copyLoop k rep input p dest srcName destName turns pos) := by
  induction turns generalizing pos with
  | zero => exact Act.Stays.pure (Only.refl p) _
  | succ turns ih =>
    refine only_bind p (Act.Stays.mapErr _ (only_read p pos _ input)) fun buf => ?_
    refine Act.Stays.ite (fun _ => Act.Stays.pure (Only.refl p) _) fun _ => ?_
    refine only_bind p (Act.Stays.mapErr _ (only_write p buf)) fun _ => ?_
    refine only_bind p (only_countBytes p _) fun _ => ?_
    refine only_bind p (only_report p) fun flow => ?_
    cases flow with
    | cancel =>
      refine only_bind p (Act.Stays.attempt (Act.Stays.of_wp fun w => ?_))
        fun _ => Act.Stays.pure (Only.refl p) _
      refine Act.wp_mono (Root.remove_spec dest destName false w) ?_ ?_
      · rintro _ w' ⟨t, rfl, -, -, hx⟩
        exact Tree.touches_of_ite (hp ▸ hx)
      · rintro _ w' rfl
        exact Only.of_fs rfl
    | «continue» => exact ih _

end Only

/-- `copy_file` makes its file under a free name, and writes nothing but this file. -/
theorem copyFile_adds (srcRoot : Root) (srcName : Name) (dest : Root) (destName : Name)
    (st : Stat) : Act.Stays (Adds (dest.dir ++ [destName]))
      (copyFile k rep srcRoot srcName dest destName st) := by
  refine Act.Stays.of_wp fun w => ?_
  simp only [copyFile, Act.wp_bind]
  refine Act.wp_mono (Root.openFile_spec srcRoot srcName w) ?_ ?_
  · rintro input w' ⟨rfl, rfl, -⟩
    refine Act.wp_mono (Root.createFile_spec dest destName _ w.tick) ?_ ?_
    · rintro output w' ⟨rfl, t, rfl, -, hfree, hx⟩
      set p := dest.dir ++ [destName] with hp
      have hrest : ∀ {α : Type} {m : Act World Error α}, Act.Stays (Only p) m →
          m.wp (fun _ w' => Adds p w w') (fun _ w' => Adds p w w') (w.tick.turn t) := by
        intro α m hm
        have hadd : ∀ w', Only p (w.tick.turn t) w' → Adds p w w' := fun w' h =>
          Tree.Grows.of_touches (Only.trans (Tree.touches_of_ite hx) h) hfree
        exact Act.wp_mono (hm.wp _) (fun _ w' h => hadd w' h) (fun _ w' h => hadd w' h)
      refine (Act.wp_bind _ _).1 (hrest (m := _) ?_)
      refine only_bind p (Act.Stays.attempt (only_clone p _)) fun r => ?_
      cases r with
      | ok =>
        exact only_bind p (only_countBytes p _) fun _ =>
          only_bind p (only_finishFile p st) fun _ => only_report p
      | error =>
        refine only_bind p (only_copyLoop p _ dest srcName destName _ _ hp) fun flow => ?_
        exact Act.Stays.ite (fun _ => Act.Stays.pure (Only.refl p) _) fun _ =>
          only_bind p (only_finishFile p st) fun _ => Act.Stays.pure (Only.refl p) _
    · rintro _ w' rfl
      exact Adds.of_fs rfl
  · rintro _ w' rfl
    exact Adds.of_fs rfl

section Adds

variable (p : Path)

theorem adds_bind {α β : Type} {m : Act World Error α} {f : α → Act World Error β}
    (hm : Act.Stays (Adds p) m) (hf : ∀ a, Act.Stays (Adds p) (f a)) : Act.Stays (Adds p) (m >>= f) :=
  Act.Stays.bind (R := Adds p) (fun _ _ _ => Adds.trans) hm hf

theorem adds_looks {α : Type} {m : Act World Error α} (h : Act.Stays Looks m) :
    Act.Stays (Adds p) m := h.mono fun _ _ h => Adds.of_fs h.1

theorem adds_setJob (f : Job → Job) : Act.Stays (Adds p) (setJob f) := fun _ => Adds.of_fs rfl

theorem adds_report : Act.Stays (Adds p) (report rep) := fun _ => Adds.of_fs rfl

theorem adds_countItem : Act.Stays (Adds p) countItem :=
  adds_bind p (adds_setJob p _) fun _ => adds_setJob p _

theorem adds_mkdir (dest : Root) (n : Name) (mode : ℕ) (fine : Bool) :
    Act.Stays (Adds (dest.dir ++ [n])) (dest.mkdir k n.rel mode fine) := by
  refine Act.Stays.of_wp fun w => Act.wp_mono (Root.mkdir_spec dest n mode fine w) ?_ ?_
  · rintro _ w' (⟨t, rfl, -, hfree, hx⟩ | ⟨-, rfl, -⟩)
    · exact Tree.Grows.of_touches (Tree.touches_of_ite hx) hfree
    · exact Adds.of_fs rfl
  · rintro _ w' rfl
    exact Adds.of_fs rfl

theorem adds_symlink (dest : Root) (n : Name) (target : Bytes) :
    Act.Stays (Adds (dest.dir ++ [n])) (dest.symlink k target n.rel) := by
  refine Act.Stays.of_wp fun w => Act.wp_mono (Root.symlink_spec dest n target w) ?_ ?_
  · rintro _ w' ⟨t, rfl, -, hfree, hx⟩
    exact Tree.Grows.of_touches (Tree.touches_of_ite hx) hfree
  · rintro _ w' rfl
    exact Adds.of_fs rfl

end Adds

/-- **A copy only adds, and only below its own place**, wherever it stops: every create in it is
exclusive, and a directory that is there already is used as it is. -/
theorem copyNode_adds (depth : ℕ) (srcRoot : Root) (srcName : Name) (dest : Root)
    (destName : Name) : Act.Stays (Adds (dest.dir ++ [destName]))
      (copyNode k rep depth srcRoot srcName dest destName) := by
  induction depth generalizing srcRoot srcName dest destName with
  | zero => exact Act.Stays.fail (fun _ => Adds.of_fs rfl) _
  | succ depth ih =>
    set p := dest.dir ++ [destName] with hp
    refine adds_bind p (adds_looks p (looks_metadata srcRoot srcName)) fun st => ?_
    refine adds_bind p (adds_setJob p _) fun _ => ?_
    split
    · refine adds_bind p (adds_mkdir dest destName _ true) fun _ => ?_
      refine adds_bind p (adds_countItem p) fun _ => adds_bind p (adds_report p) fun flow => ?_
      refine Act.Stays.ite (fun _ => Act.Stays.pure (fun _ => Adds.of_fs rfl) _) fun _ => ?_
      refine adds_bind p (adds_looks p (looks_sub srcRoot srcName)) fun subSrc => ?_
      refine Act.Stays.bind_of (R := Adds p) (fun _ _ _ => Adds.trans) (P := fun d => d.dir = p)
        (fun w => ?_) fun subDest hsub => ?_
      · refine Act.wp_mono (Root.sub_spec dest destName w) ?_ ?_
        · rintro sub w' ⟨rfl, rfl, -⟩
          exact ⟨Adds.of_fs rfl, hp.symm⟩
        · rintro _ w' rfl
          exact Adds.of_fs rfl
      refine adds_bind p (adds_looks p (looks_readDir subSrc)) fun children => ?_
      refine Act.Stays.each (R := Adds p) (fun _ => Adds.of_fs rfl) (fun _ _ _ => Adds.trans)
        (fun child => ?_) _
      exact (ih subSrc child subDest child).mono fun _ _ h =>
        h.mono (hsub ▸ List.prefix_append _ _)
    · simp only [Root.parentOf_rel, pure_bind]
      refine adds_bind p (Act.Stays.mapErr _ (Act.Stays.of_wp fun w => ?_)) fun target => ?_
      · exact Act.wp_mono (Kernel.readlink_spec _ _ w) (fun _ _ h => Adds.of_fs (by rw [h.1]; rfl))
          (fun _ _ h => Adds.of_fs (by rw [h]; rfl))
      · exact adds_bind p (adds_symlink dest destName target) fun _ =>
          adds_bind p (adds_countItem p) fun _ => adds_report p
    · refine adds_bind p (copyFile_adds srcRoot srcName dest destName st) fun flow => ?_
      refine adds_bind p (adds_countItem p) fun _ => ?_
      exact Act.Stays.ite (fun _ => Act.Stays.pure (fun _ => Adds.of_fs rfl) _)
        fun _ => adds_report p
    · exact adds_bind p (adds_setJob p _) fun _ => Act.Stays.pure (fun _ => Adds.of_fs rfl) _

/-! ## Counting -/

/-- The job may have gone on and counted more, and its lists of paths are as they were. -/
def Counts (w w' : World) : Prop :=
  { w'.job.out with bytes := 0, items := 0 } = { w.job.out with bytes := 0, items := 0 }

theorem Counts.of_job {w w' : World} (h : w'.job = w.job) : Counts w w' := by rw [Counts, h]

theorem Counts.trans {w w' w'' : World} (h : Counts w w') (h' : Counts w' w'') : Counts w w'' :=
  Eq.trans h' h

theorem Counts.written {w w' : World} (h : Counts w w') :
    w'.job.out.written = w.job.out.written := by
  have := congrArg Outcome.written h
  exact this

section Counts

theorem counts_bind {α β : Type} {m : Act World Error α} {f : α → Act World Error β}
    (hm : Act.Stays Counts m) (hf : ∀ a, Act.Stays Counts (f a)) : Act.Stays Counts (m >>= f) :=
  Act.Stays.bind (R := Counts) (fun _ _ _ => Counts.trans) hm hf

theorem counts_pure {α : Type} (a : α) : Act.Stays Counts (pure a : Act World Error α) :=
  fun _ => rfl

theorem counts_looks {α : Type} {m : Act World Error α} (h : Act.Stays Looks m) :
    Act.Stays Counts m := h.mono fun _ _ h => Counts.of_job h.2

theorem counts_setProgress (f : Progress → Progress) : Act.Stays Counts (setProgress f) :=
  fun _ => rfl

theorem counts_countItem : Act.Stays Counts countItem := fun _ => rfl

theorem counts_countBytes (n : ℕ) : Act.Stays Counts (countBytes n) := fun _ => rfl

theorem counts_report : Act.Stays Counts (report rep) := fun _ => rfl

/-- A call of the kernel has nothing to do with the job. -/
theorem counts_change (op : Op) (f : Tree → Except Errno Tree) : Act.Stays Counts (k.change op f) :=
  Act.Stays.of_wp fun w => Act.wp_mono (k.change_spec op f w)
    (fun _ _ ⟨_, _, h⟩ => Counts.of_job (by rw [h]; rfl))
    (fun _ _ h => Counts.of_job (by rw [h.1]; rfl))

theorem counts_query {α : Type} (op : Op) (f : Tree → Except Errno α) :
    Act.Stays Counts (k.query op f) :=
  Act.Stays.of_wp fun w => Act.wp_mono (k.query_spec op f w)
    (fun _ _ h => Counts.of_job (by rw [h.1]; rfl))
    (fun _ _ h => Counts.of_job (by rw [h.1]; rfl))

theorem counts_write (p : Path) (new : Bytes) : Act.Stays Counts (k.write p new) :=
  Act.Stays.of_wp fun w => Act.wp_mono (k.write_spec p new w)
    (fun _ _ ⟨_, h, _⟩ => Counts.of_job (by rw [h]; rfl))
    (fun _ _ ⟨_, _, h, _⟩ => Counts.of_job (by rw [h]; rfl))

theorem counts_remove (root : Root) (n : Name) (dir : Bool) :
    Act.Stays Counts (root.remove k n.rel dir) := by
  rw [Root.remove, Root.at_rel]
  exact Act.Stays.mapErr _ (counts_change _ _)

theorem counts_finishFile (p : Path) (st : Stat) : Act.Stays Counts (finishFile k p st) :=
  counts_bind (Act.Stays.attempt (counts_change _ _)) fun _ => counts_pure _

theorem counts_copyLoop (input output : Path) (dest : Root) (srcName destName : Name)
    (turns pos : ℕ) :
    Act.Stays Counts (copyLoop k rep input output dest srcName destName turns pos) := by
  induction turns generalizing pos with
  | zero => exact counts_pure _
  | succ turns ih =>
    refine counts_bind (Act.Stays.mapErr _ (counts_query _ _)) fun buf => ?_
    refine Act.Stays.ite (fun _ => counts_pure _) fun _ => ?_
    refine counts_bind (Act.Stays.mapErr _ (counts_write _ _)) fun _ => ?_
    refine counts_bind (counts_countBytes _) fun _ => counts_bind counts_report fun flow => ?_
    cases flow with
    | cancel => exact counts_bind (Act.Stays.attempt (counts_remove _ _ _)) fun _ => counts_pure _
    | «continue» => exact ih _

theorem counts_copyFile (srcRoot : Root) (srcName : Name) (dest : Root) (destName : Name)
    (st : Stat) : Act.Stays Counts (copyFile k rep srcRoot srcName dest destName st) := by
  unfold copyFile
  simp only [Root.openFile, Root.createFile, Root.parentOf_rel, pure_bind, bind_assoc, if_true]
  refine counts_bind (Act.Stays.mapErr _ (counts_query _ _)) fun _ => ?_
  refine counts_bind (Act.Stays.mapErr _ (counts_change _ _)) fun _ => ?_
  refine counts_bind (Act.Stays.attempt (counts_change _ _)) fun r => ?_
  cases r with
  | ok =>
    exact counts_bind (counts_countBytes _) fun _ => counts_bind (counts_finishFile _ _)
      fun _ => counts_report
  | error =>
    refine counts_bind (counts_copyLoop _ _ _ _ _ _ _) fun flow => ?_
    exact Act.Stays.ite (fun _ => counts_pure _) fun _ =>
      counts_bind (counts_finishFile _ _) fun _ => counts_pure _

/-- A copy counts what it does, and writes down none of its paths. -/
theorem copyNode_counts (depth : ℕ) (srcRoot : Root) (srcName : Name) (dest : Root)
    (destName : Name) :
    Act.Stays Counts (copyNode k rep depth srcRoot srcName dest destName) := by
  induction depth generalizing srcRoot srcName dest destName with
  | zero => exact fun _ => rfl
  | succ depth ih =>
    refine counts_bind (counts_looks (looks_metadata srcRoot srcName)) fun st => ?_
    refine counts_bind (counts_setProgress _) fun _ => ?_
    split
    · refine counts_bind ?_ fun _ => ?_
      · exact Act.Stays.of_wp fun w => Act.wp_mono (Root.mkdir_spec dest destName _ true w)
          (fun _ _ h => by
            rcases h with ⟨t, rfl, -⟩ | ⟨-, rfl, -⟩ <;> exact Counts.of_job rfl)
          (fun _ _ h => Counts.of_job (by rw [h]; rfl))
      refine counts_bind counts_countItem fun _ => counts_bind counts_report fun flow => ?_
      refine Act.Stays.ite (fun _ => counts_pure _) fun _ => ?_
      refine counts_bind (counts_looks (looks_sub _ _)) fun subSrc => ?_
      refine counts_bind (counts_looks (looks_sub _ _)) fun subDest => ?_
      refine counts_bind (counts_looks (looks_readDir subSrc)) fun children => ?_
      exact Act.Stays.each (R := Counts) (fun _ => rfl) (fun _ _ _ => Counts.trans)
        (fun child => ih subSrc child subDest child) _
    · simp only [Root.parentOf_rel, pure_bind, Root.symlink, Root.at_rel]
      refine counts_bind (Act.Stays.mapErr _ (counts_query _ _)) fun _ => ?_
      exact counts_bind (Act.Stays.mapErr _ (counts_change _ _)) fun _ =>
        counts_bind counts_countItem fun _ => counts_report
    · refine counts_bind (counts_copyFile _ _ _ _ _) fun flow => ?_
      refine counts_bind counts_countItem fun _ => ?_
      exact Act.Stays.ite (fun _ => counts_pure _) fun _ => counts_report
    · exact counts_bind (counts_setProgress _) fun _ => counts_pure _

end Counts

/-! ## Renaming -/

/-- A rename to a place that was found free takes the subtree there, and replaces nothing. -/
theorem renameTo_free (hk : k.Honest) (root dest : Root) (n m : Name) {w : World}
    (hfree : k.Free w.fs (dest.dir ++ [m])) :
    (root.renameTo k n.rel dest m.rel).wp
      (fun _ w' => w.fs.Moved (root.dir ++ [n]) (dest.dir ++ [m]) w'.fs ∧ w'.job = w.job ∧
        k.crosses (root.dir ++ [n]) (dest.dir ++ [m]) = false)
      (fun e w' => Looks w w' ∧ (∀ c, e = .io c .xdev →
        k.crosses (root.dir ++ [n]) (dest.dir ++ [m]) = true)) w := by
  refine Act.wp_mono (Root.renameTo_spec root dest n m w) ?_ ?_
  · rintro _ w' ⟨t, rfl, hcross, hrun, hren⟩
    have hnone : w.fs.get (dest.dir ++ [m]) = none := by
      refine hfree.resolve_right fun hstat => ?_
      have := hk _ _ hstat w.clock (root.dir ++ [n])
      simp [hrun] at this
    exact ⟨Tree.moved_of_rename hren hnone, rfl, hcross⟩
  · rintro e w' ⟨rfl, h⟩
    exact ⟨Looks.tick w, h⟩

/-- The name a rename goes to, when it was not asked to replace. -/
theorem renameTarget_spec (root : Root) (newName : Name) {conflict : Conflict}
    (hc : conflict ≠ .replace) (w : World) :
    (renameTarget k root newName conflict).wp
      (fun m w' => Looks w w' ∧ k.Free w.fs (root.dir ++ [m])) (fun _ w' => Looks w w') w := by
  simp only [renameTarget, Act.wp_bind, Act.wp_ite, Act.wp_pure]
  refine Act.wp_mono (Root.exists_spec root newName w) ?_ (fun _ _ h => h.elim)
  rintro b w' ⟨rfl, -, hfree⟩
  refine ⟨fun _ => ?_, fun hb => ⟨Looks.tick w, ?_⟩⟩
  · cases conflict with
    | replace => exact absurd rfl hc
    | fail => exact Looks.tick w
    | skip => exact Looks.tick w
    | keepBoth =>
      exact Act.wp_mono (uniqueName_spec root newName w.tick)
        (fun _ _ h => ⟨(Looks.tick w).trans h.1, h.2.1⟩) (fun _ _ h => (Looks.tick w).trans h)
  · exact (hfree (by simpa using hb)).imp_right fun h => ⟨_, h⟩

/-! ## Starting a job -/

theorem looks_checkSpace (sources : List PathBuf) (dest : Root) (destDir : PathBuf) (n : ℕ) :
    Act.Stays Looks (checkSpace k sources dest destDir n) := by
  refine looks_bind (fun w => Looks.refl w) fun w => ?_
  split
  · exact Act.Stays.pure Looks.refl _
  · exact Act.Stays.ite (fun _ => Act.Stays.fail Looks.refl _) fun _ => Act.Stays.pure Looks.refl _

/-- Nothing in the tree is touched before the first source. -/
theorem prepare_spec (sources : List PathBuf) (names : List (Option Bytes)) (destDir : PathBuf)
    (w : World) :
    (prepare k sources names destDir).wp
      (fun r w' => w'.fs = w.fs ∧ w'.job.seen = w.job.seen ∧ w'.job.out = {} ∧
        k.resolve w.fs destDir = .ok r.1.dir ∧ r.1.path = destDir ∧
        w.fs.isBranch r.1.dir = true ∧
        ∃ typed, checkNames names = .ok typed ∧ r.2 = pairNames sources typed)
      (fun _ w' => Looks w w') w := by
  cases htyped : checkNames names with
  | error e =>
    simp only [prepare, htyped, Act.lift_error, Act.wp_bind, Act.wp_fail]
    exact Looks.refl w
  | ok typed =>
    simp only [prepare, htyped, Act.lift_ok, pure_bind, Act.wp_bind, Act.wp_pure, startJob, wp_setJob]
    refine Act.wp_mono (Root.open_spec destDir w) ?_ ?_
    · rintro dest w₁ ⟨rfl, hpath, hres, hbr⟩
      refine Act.wp_mono ((looks_measure sources).wp _) (fun total w₂ h₂ => ?_)
        (fun _ _ hl => (Looks.tick w).trans hl)
      refine Act.wp_mono ((looks_checkSpace sources dest destDir _).wp _) (fun _ w₃ h₃ => ?_)
        (fun _ _ hl => ((Looks.tick w).trans h₂).trans hl)
      have h := ((Looks.tick w).trans h₂).trans h₃
      exact ⟨h.1, by rw [h.2], trivial, hres, hpath, hbr, typed, rfl, rfl⟩
    · rintro e w' (rfl | rfl)
      · exact Looks.refl _
      · exact Looks.tick w

end Ops

end Aurade
