import Aurade.Ops.Survival

/-!
# Flattening a folder

The run of `flatten`, on the vocabulary of `Aurade.Ops.Survival`. `Going` is where the run has got to
while all is well: the tree is as `Lifting` says, the reports are those of the files brought up, and
each of these was `LiftedWell`. `Failing` is the other case: some file is missing, or lies where the
folder it is in will be removed.

* `liftFile_going`, `liftChild_going` and **`lift_going`** take the one or the other through a file, a
  child and a whole folder; `lift_sweeps` says what holds in either case.
* `flattenEntry_going` adds the removal of the folder, where what is left in it is lost.

**`flatten_survives_iff`**: a call that ends well has kept every file exactly when all of them could be
brought up in their turns (`LiftsWell`), and then a call that fails has kept them as well.
`flatten_loses_skipped` is the smallest case of a loss.
-/

namespace Aurade.Ops

open Fs

variable {k : Kernel} {rep : Reporter} {conflict : Conflict} {w : World}

/-! ## One file -/

/-- The file `child` of `src` was brought up to `top` as `target`, and that was reported. -/
structure BroughtUp (rep : Reporter) (conflict : Conflict) (src top : Root) (child target : Name)
    (w : World) (flow : Flow) (w' : World) : Prop where
  name : Named conflict child.toStringLossy target
  free : w.fs.get (top.dir ++ [target]) = none
  rename : w.fs.rename src.dir child top.dir target = .ok w'.fs
  progress : w'.job.progress = { w.job.progress with
    doneItems := w.job.progress.doneItems + 1, current := src.path.join child }
  seen : w'.job.seen = w'.job.progress :: w.job.seen
  answer : flow = rep w'.job.seen

/-- A file is skipped because its name is taken, or brought up under a name that is free. A failure
leaves the tree as it is. -/
theorem liftFile_spec (hk : k.Honest) (hc : conflict ≠ .replace) (src top : Root) (child : Name)
    (w : World) :
    (liftFile k rep src top conflict child).wp
      (fun flow w' =>
        (flow = .continue ∧ w'.fs = w.fs ∧ conflict = .skip ∧
          (w.fs.get (top.dir ++ [child.toStringLossy])).isSome) ∨
        ∃ target, BroughtUp rep conflict src top child target w flow w')
      (fun _ w' => w'.fs = w.fs) w := by
  simp only [liftFile, Act.wp_bind]
  refine Act.wp_mono (resolveConflict_spec top child.toStringLossy _ hc w) ?_ (fun _ _ h => h.1)
  rintro (_ | target) w₁ ⟨hfs, hseen, hprogress, h⟩
  · exact Or.inl ⟨rfl, hfs, h.1, h.2⟩
  obtain ⟨hfree, hname⟩ := h
  simp only [Act.wp_bind, wp_noteRenamed]
  refine Act.wp_mono (Act.wp_and (Root.renameTo_spec src top child target _)
    (renameTo_free (w := _) hk src top child target (by simpa only [hfs] using hfree))) ?_
    (fun _ _ h => h.2.1.1.trans hfs)
  rintro _ w₂ ⟨⟨t, rfl, -, -, hren⟩, hmoved, -, -⟩
  simp only [hfs] at hren hmoved
  simp only [wp_setOut, wp_setProgress, wp_report, Act.wp_ite, Act.wp_bind, Act.wp_pure]
  have hjob : ∀ out : Outcome, BroughtUp rep conflict src top child target w
      (rep ({ w₁.job.progress with
        doneItems := w₁.job.progress.doneItems + 1, current := src.path.join child } ::
          w₁.job.seen))
      { fs := t, clock := w₁.clock + 1, job := ⟨{ w₁.job.progress with
          doneItems := w₁.job.progress.doneItems + 1, current := src.path.join child } ::
            w₁.job.seen, { w₁.job.progress with
          doneItems := w₁.job.progress.doneItems + 1, current := src.path.join child }, out⟩ } :=
    fun out => ⟨hname, hmoved.free, hren, by rw [hprogress], by rw [hseen], rfl⟩
  exact ⟨fun _ => Or.inr ⟨target, hjob _⟩, fun _ => Or.inr ⟨target, hjob _⟩⟩

theorem valid_named {n m : Name} (h : Named conflict n.toStringLossy m) :
    Utf8.valid m.val = true := by
  rcases h with rfl | ⟨-, i, rfl⟩
  · exact Utf8.valid_lossy n.val
  · exact (valid_numberedBytes _ i).trans (Utf8.valid_lossy n.val)

/-! ## What no step does -/

/-- There are no more files below `d` than there were, and what is not below `F` is where it was. -/
def Sweeps (d F : Path) (w w' : World) : Prop :=
  Fewer d w.fs w'.fs ∧ ∀ x nd, w.fs.get x = some nd → ¬ F <+: x → w'.fs.get x = some nd

section Sweeps

variable {d F : Path}

theorem Sweeps.of_fs {w w' : World} (h : w'.fs = w.fs) : Sweeps d F w w' :=
  ⟨h ▸ Fewer.refl d w.fs, fun _ _ hx _ => h ▸ hx⟩

theorem Sweeps.trans {w w' w'' : World} (h : Sweeps d F w w') (h' : Sweeps d F w' w'') :
    Sweeps d F w w'' :=
  ⟨h.1.trans h'.1, fun x nd hx hF => h'.2 x nd (h.2 x nd hx hF) hF⟩

theorem Sweeps.mono {F' : Path} {w w' : World} (h : Sweeps d F w w') (hF : F' <+: F) :
    Sweeps d F' w w' := ⟨h.1, fun x nd hx hx' => h.2 x nd hx fun hpre => hx' (hF.trans hpre)⟩

theorem sweeps_bind {α β : Type} {m : Act World Error α} {f : α → Act World Error β}
    (hm : Act.Stays (Sweeps d F) m) (hf : ∀ a, Act.Stays (Sweeps d F) (f a)) :
    Act.Stays (Sweeps d F) (m >>= f) :=
  Act.Stays.bind (R := Sweeps d F) (fun _ _ _ => Sweeps.trans) hm hf

theorem sweeps_looks {α : Type} {m : Act World Error α} (h : Act.Stays Looks m) :
    Act.Stays (Sweeps d F) m := h.mono fun _ _ h => Sweeps.of_fs h.1

theorem liftFile_sweeps (hk : k.Honest) (hc : conflict ≠ .replace) (src top : Root) (child : Name)
    (hF : top.dir <+: src.dir) {nd : Node} (hnd : w.fs.get (src.dir ++ [child]) = some nd)
    (hfile : nd.isDir = false) :
    (liftFile k rep src top conflict child).wp
      (fun _ w' => Sweeps top.dir (src.dir ++ [child]) w w')
      (fun _ w' => Sweeps top.dir (src.dir ++ [child]) w w') w := by
  refine Act.wp_mono (liftFile_spec hk hc src top child w) ?_ (fun _ _ h => Sweeps.of_fs h)
  rintro flow w' (⟨-, hfs, -⟩ | ⟨target, h⟩)
  · exact Sweeps.of_fs hfs
  have hmoved := Tree.moved_of_rename h.rename h.free
  have hin : inside top.dir (src.dir ++ [child]) nd = true := by
    rw [inside, hfile, Bool.not_false, Bool.and_true, decide_eq_true_eq]
    exact hF.trans (List.prefix_append _ _)
  exact ⟨fewer_of_moved hmoved hnd hin (valid_named h.name),
    fun x nd hx hout => hmoved.get_of_outside hx hout⟩

theorem liftChild_sweeps (hk : k.Honest) (hc : conflict ≠ .replace)
    {descend : Root → Act World Error Unit} (src top : Root) (child : Name)
    (hF : top.dir <+: src.dir)
    (hdescend : ∀ sub : Root, sub.dir = src.dir ++ [child] →
      Act.Stays (Sweeps top.dir (src.dir ++ [child])) (descend sub)) :
    Act.Stays (Sweeps top.dir (src.dir ++ [child]))
      (liftChild k rep descend src top conflict child) := by
  refine Act.Stays.of_wp fun w => ?_
  simp only [liftChild, Act.wp_bind, Act.wp_ite, Act.wp_pure]
  refine Act.wp_mono (Root.metadata_spec src child w) ?_ (fun _ _ h => Sweeps.of_fs (by rw [h.1]; rfl))
  rintro _ w₁ ⟨rfl, nd, hnd, rfl⟩
  constructor
  · intro _
    refine Act.wp_mono (Root.sub_spec src child _) ?_ (fun _ _ h => Sweeps.of_fs (by rw [h]; rfl))
    rintro sub w₂ ⟨rfl, rfl, -⟩
    exact (hdescend _ rfl).wp _
  · intro hdir
    have hfile : nd.isDir = false := by
      cases nd <;> simp_all [Node.stat, Node.isDir]
    exact liftFile_sweeps (w := w.tick) hk hc src top child hF hnd hfile

/-- **Bringing up what a folder holds** takes files from below that folder only, and makes none. -/
theorem lift_sweeps (hk : k.Honest) (hc : conflict ≠ .replace) (depth : ℕ) (src top : Root)
    (hF : top.dir <+: src.dir) :
    Act.Stays (Sweeps top.dir src.dir) (lift k rep top conflict depth src) := by
  induction depth generalizing src with
  | zero => exact Act.Stays.fail (fun _ => Sweeps.of_fs rfl) _
  | succ depth ih =>
    refine sweeps_bind (sweeps_looks (looks_readDir src)) fun children => ?_
    refine sweeps_bind ?_ fun _ => Act.Stays.pure (fun _ => Sweeps.of_fs rfl) _
    refine Act.Stays.each (R := Sweeps top.dir src.dir) (fun _ => Sweeps.of_fs rfl)
      (fun _ _ _ => Sweeps.trans) (fun child => ?_) _
    refine (liftChild_sweeps hk hc src top child hF fun sub hsub => ?_).mono fun _ _ h =>
      h.mono (List.prefix_append _ _)
    exact hsub ▸ ih sub (by rw [hsub]; exact hF.trans (List.prefix_append _ _))

theorem Deletes.sweeps {p : Path} {w w' : World} (h : Deletes p w w') : Sweeps d p w w' :=
  ⟨fewer_of_shrinks h.1, fun x _ hx hout => (h.1.outside x hout).trans hx⟩

end Sweeps

/-- Deleting a tree leaves all listings outside it but the one it is in. -/
theorem removeTree_lists (depth : ℕ) (root : Root) (n : Name) :
    Act.Stays (fun w w' => ∀ F, ¬ root.dir ++ [n] <+: F → F ≠ root.dir →
      w'.fs.names F = w.fs.names F) (removeTree k depth root n) := by
  have htrans : ∀ {p d : Path} (a b c : World),
      (∀ F, ¬ p <+: F → F ≠ d → b.fs.names F = a.fs.names F) →
      (∀ F, ¬ p <+: F → F ≠ d → c.fs.names F = b.fs.names F) →
      ∀ F, ¬ p <+: F → F ≠ d → c.fs.names F = a.fs.names F :=
    fun a b c h h' F hp hd => (h' F hp hd).trans (h F hp hd)
  have hlooks : ∀ {α : Type} {m : Act World Error α} {p d : Path}, Act.Stays Looks m →
      Act.Stays (fun w w' => ∀ F, ¬ p <+: F → F ≠ d → w'.fs.names F = w.fs.names F) m :=
    fun h => h.mono fun _ _ h F _ _ => by rw [h.1]
  have hremove : ∀ (root : Root) (n : Name) (dir : Bool),
      Act.Stays (fun w w' => ∀ F, ¬ root.dir ++ [n] <+: F → F ≠ root.dir →
        w'.fs.names F = w.fs.names F) (root.remove k n.rel dir) := by
    intro root n dir
    rw [Root.remove, Root.at_rel]
    refine Act.Stays.mapErr _ (Act.Stays.of_wp fun w => ?_)
    refine Act.wp_mono (k.change_spec _ _ w) ?_ ?_
    · rintro _ w' ⟨t, ht, rfl⟩ F - hF
      rw [World.turn_fs, Tree.names_remove ht]
      refine List.filter_eq_self.2 fun c _ => ?_
      rw [decide_eq_true_eq]
      exact fun he => hF (List.append_inj' he rfl).1
    · rintro _ w' ⟨rfl, -⟩ F - -
      rfl
  induction depth generalizing root n with
  | zero => exact Act.Stays.fail (fun _ _ _ _ => rfl) _
  | succ depth ih =>
    refine Act.Stays.bind htrans (hlooks (looks_metadata root n)) fun st => ?_
    refine Act.Stays.ite (fun _ => ?_) fun _ => hremove root n false
    refine Act.Stays.bind_of htrans (P := fun sub => sub.dir = root.dir ++ [n]) (fun w => ?_)
      fun sub hsub => ?_
    · refine Act.wp_mono (Root.sub_spec root n w) ?_ ?_
      · rintro sub w' ⟨rfl, rfl, -⟩
        exact ⟨fun _ _ _ => rfl, rfl⟩
      · rintro _ w' rfl F - -
        rfl
    refine Act.Stays.bind htrans (hlooks (looks_readDir sub)) fun children => ?_
    refine Act.Stays.bind htrans ?_ fun _ => hremove root n true
    refine Act.Stays.each (fun _ _ _ _ => rfl) htrans (fun child => ?_) _
    refine (ih sub child).mono fun w w' h F hp _ => h F (fun hpre => hp ?_) fun he => hp ?_
    · exact (hsub ▸ List.prefix_append _ _ : root.dir ++ [n] <+: sub.dir ++ [child]).trans hpre
    · rw [he, hsub]

/-! ## What each step does -/

section Run

variable (rep conflict) (dir : PathBuf) (d : Path) (t₀ : Tree) (seen₀ : List Progress)

/-- So far every file has been brought up in its turn. -/
structure Going (pre : List Path) (gone : List Name) (w : World) : Prop where
  tree : Lifting conflict d t₀ pre gone w.fs
  fewer : Fewer d t₀ w.fs
  seen : w.job.seen = liftReports dir d seen₀ pre
  progress : ∃ current, w.job.progress = { doneItems := pre.length, current := current }
  clean : ∀ p q s, lifted t₀ d = p ++ q :: s → p ++ [q] <+: pre →
    LiftedWell conflict rep dir d t₀ seen₀ p q s

/-- Some file could not be brought up as it should: one is missing, or will be with what is left at
one of the paths `X`. -/
structure Failing (X : Path → Prop) (w : World) : Prop where
  bad : ¬ LiftsWell conflict rep dir d t₀ seen₀
  fewer : Fewer d t₀ w.fs
  doomed : Short d t₀ w.fs ∨ ∃ x nd, w.fs.get x = some nd ∧ inside d x nd = true ∧ X x

/-- The folder is one to be brought up, after those in `gone` have been. -/
structure Folder (gone : List Name) (src : Root) : Prop where
  path : src.path = dir ++ (src.dir.drop d.length).map fun n => .normal n.val
  below : d <+: src.dir
  ne : src.dir ≠ d
  outside : ∀ g ∈ gone, ¬ d ++ [g] <+: src.dir
  standing : ∀ q m, src.dir <+: q →
    (Standing t₀ d q m ↔ (t₀.get (d ++ [m])).isSome ∧ m ∉ gone)

end Run

variable {dir : PathBuf} {d : Path} {t₀ : Tree} {seen₀ : List Progress} {pre post : List Path}
  {gone : List Name}

theorem Failing.mono {X Y : Path → Prop} (h : Failing rep conflict dir d t₀ seen₀ X w)
    (hXY : ∀ x, X x → Y x) : Failing rep conflict dir d t₀ seen₀ Y w :=
  ⟨h.bad, h.fewer, h.doomed.imp_right fun ⟨x, nd, hx, hin, hX⟩ => ⟨x, nd, hx, hin, hXY x hX⟩⟩

/-- What is left stays left while other places are swept. -/
theorem Failing.sweeps {X : Path → Prop} {F : Path} {w' : World}
    (h : Failing rep conflict dir d t₀ seen₀ X w) (hs : Sweeps d F w w')
    (hX : ∀ x, X x → ¬ F <+: x) : Failing rep conflict dir d t₀ seen₀ X w' := by
  refine ⟨h.bad, h.fewer.trans hs.1, ?_⟩
  rcases h.doomed with hshort | ⟨x, nd, hx, hin, hXx⟩
  · exact Or.inl (hshort.trans hs.1)
  · exact Or.inr ⟨x, nd, hs.2 x nd hx (hX x hXx), hin, hXx⟩

/-- What is below the folder is below none of those that are gone. -/
theorem Folder.outside_below {src : Root} (h : Folder dir d t₀ gone src) {x : Path}
    (hx : src.dir <+: x) : ∀ g ∈ gone, ¬ d ++ [g] <+: x := by
  intro g hg hgx
  rcases List.prefix_or_prefix_of_prefix hgx hx with hpre | hpre
  · exact h.outside g hg hpre
  · rcases List.prefix_concat_iff.1 hpre with heq | hpre
    · exact h.outside g hg (heq ▸ List.prefix_rfl)
    · exact h.ne (hpre.eq_of_length (le_antisymm hpre.length_le h.below.length_le))

theorem Folder.sub {src : Root} (h : Folder dir d t₀ gone src) (c : Name) :
    Folder dir d t₀ gone ⟨src.dir ++ [c], src.path ++ c.rel⟩ where
  path := by
    show src.path ++ _ = _
    rw [h.path, List.drop_append_of_le_length h.below.length_le, List.map_append, List.append_assoc]
    rfl
  below := h.below.trans (List.prefix_append _ _)
  ne := fun he => by
    have h1 := h.below.length_le
    have h2 := congrArg List.length he
    rw [List.length_append, List.length_singleton] at h2
    omega
  outside := h.outside_below (List.prefix_append _ _)
  standing q m hq := h.standing q m ((List.prefix_append _ _).trans hq)

/-- The paths to be brought up are met once. -/
theorem not_mem_pre {x : Path} {mid : List Path} (hL : lifted t₀ d = pre ++ mid ++ post)
    (hx : x ∈ mid ++ post) : x ∉ pre := by
  have hnodup := nodup_lifted t₀ d
  rw [hL, List.append_assoc] at hnodup
  exact fun hpre => (List.nodup_append.1 hnodup).2.2 x hpre x hx rfl

theorem mem_lifted_of_pre {x : Path} {mid : List Path} (hL : lifted t₀ d = pre ++ mid ++ post)
    (hx : x ∈ pre) : x ∈ t₀.leaves d ∧ x.dropLast ≠ d :=
  mem_lifted (by rw [hL, List.append_assoc]; exact List.mem_append_left _ hx)

/-- **One file**: it is brought up in its turn, or it will be missed. -/
theorem liftFile_going (hk : k.Honest) (hc : conflict ≠ .replace) {src : Root} {top : Root}
    (hat : Folder dir d t₀ gone src) (htop : top.dir = d) (c : Name)
    (hL : lifted t₀ d = pre ++ [src.dir ++ [c]] ++ post)
    (hgo : Going rep conflict dir d t₀ seen₀ pre gone w) :
    (liftFile k rep src top conflict c).wp
      (fun flow w' =>
        (flow = .continue → Going rep conflict dir d t₀ seen₀ (pre ++ [src.dir ++ [c]]) gone w' ∨
          Failing rep conflict dir d t₀ seen₀ (src.dir ++ [c] <+: ·) w') ∧
        (flow = .cancel → (Going rep conflict dir d t₀ seen₀ (pre ++ [src.dir ++ [c]]) gone w' ∧
            ∀ q ∈ post, ¬ src.dir <+: q) ∨
          Failing rep conflict dir d t₀ seen₀ (src.dir <+: ·) w'))
      (fun _ w' => w'.fs = w.fs) w := by
  subst htop
  set d := top.dir with hd
  set q := src.dir ++ [c] with hq
  have hqL : q ∈ lifted t₀ d := by rw [hL]; simp
  obtain ⟨hleaf, -⟩ := mem_lifted hqL
  obtain ⟨hdq, -, nd, hnd, hfile⟩ := t₀.mem_leaves.1 hleaf
  have hqpre : q ∉ pre := not_mem_pre hL (by simp)
  have hqgone := hat.outside_below (List.prefix_append src.dir [c])
  have hget := hgo.tree.keeps q nd hnd hdq hqpre hqgone
  have hin : inside d q nd = true := by simp [inside, hfile, hdq]
  have hcons : lifted t₀ d = pre ++ q :: post := by rw [hL]; simp
  have hlast : q.getLast? = some c := by simp [hq]
  refine Act.wp_mono (liftFile_spec hk hc src top c w) ?_ (fun _ _ h => h)
  rintro flow w' (⟨rfl, hfs, hskip, htaken⟩ | ⟨target, h⟩)
  · -- skipped, and left where it is
    refine ⟨fun _ => Or.inr ⟨fun hwell => ?_, hfs ▸ hgo.fewer, Or.inr ⟨q, nd, ?_, hin, ?_⟩⟩,
      fun hf => by simp at hf⟩
    · have hw := hwell pre q post hcons
      obtain ⟨hpre, hstand⟩ := hw.free hskip c hlast
      rw [toStringLossy_eq_self_iff.2 (hw.utf8 c hlast)] at htaken
      rcases hgo.tree.stands c htaken with ⟨q', hq', n, hn, rfl | ⟨hkeep, -⟩⟩ | hst
      · exact hpre q' hq' hn
      · simp [hskip] at hkeep
      · exact hstand ((hat.standing q c (List.prefix_append _ _)).2 hst)
    · rw [hfs]
      exact hget
    · exact List.prefix_rfl
  have hmoved := Tree.moved_of_rename h.rename h.free
  have hfewer := hgo.fewer.trans (fewer_of_moved hmoved hget hin (valid_named h.name))
  by_cases hutf : Utf8.valid c.val = true
  swap
  · -- its name was no text
    have hfail : ∀ X, Failing rep conflict dir d t₀ seen₀ X w' := fun X => by
      refine ⟨fun hwell => hutf ((hwell pre q post hcons).utf8 c hlast), hfewer, Or.inl ?_⟩
      refine hgo.fewer.short (short_of_moved hmoved hget hin (valid_named h.name) ?_)
      rw [oddName, hin, hlast]
      simpa using hutf
    exact ⟨fun _ => Or.inr (hfail _), fun _ => Or.inr (hfail _)⟩
  have hname : Named conflict c target := toStringLossy_eq_self_iff.2 hutf ▸ h.name
  have htree := hgo.tree.lift hleaf hqpre hqgone h.rename h.free hname
  obtain ⟨current, hprogress⟩ := hgo.progress
  have hpath : src.path.join c = dir ++ (q.drop d.length).map fun n => .normal n.val := (hat.sub c).path
  have hreport : w'.job.progress = liftReport dir d (pre.length + 1) q := by
    rw [h.progress, hprogress, liftReport, hpath]
  have hseen : w'.job.seen = liftReports dir d seen₀ (pre ++ [q]) := by
    rw [h.seen, hreport, hgo.seen, liftReports_concat]
  have hfree : conflict = .skip → ∀ n, q.getLast? = some n →
      (∀ q' ∈ pre, q'.getLast? ≠ some n) ∧ ¬ Standing t₀ d q n := by
    intro hskip n hn
    obtain rfl : c = n := Option.some.inj (hlast.symm.trans hn)
    obtain rfl : target = c := hname.resolve_right fun hkeep => by simp [hskip] at hkeep
    constructor
    · intro q' hq' hlast'
      obtain ⟨f, hf, -⟩ := hgo.tree.placed
      obtain ⟨⟨nd', -, hfq⟩, p, n', m, rfl, hfq', hnamed⟩ := hf q' hq'
      obtain rfl : n' = target := by simpa using hlast'
      obtain rfl : m = n' := hnamed.resolve_right fun hkeep => by simp [hskip] at hkeep
      rw [hfq', h.free] at hfq
      simp at hfq
    · intro hst
      obtain ⟨hsome, hnot⟩ := (hat.standing q target (List.prefix_append _ _)).1 hst
      obtain ⟨nd', hnd'⟩ := Option.isSome_iff_exists.1 hsome
      have := hgo.tree.keeps _ nd' hnd' (List.prefix_append _ _) (fun hmem => ?_) fun g hg hpre => ?_
      · rw [h.free] at this
        simp at this
      · exact (mem_lifted_of_pre hL hmem).2 List.dropLast_concat
      · rw [List.prefix_append_right_inj] at hpre
        obtain rfl : g = target := by simpa using hpre
        exact hnot hg
  -- all is well with this file as soon as the reporter lets the others of the folder follow
  have hgoing : (flow = .cancel → ∀ q' ∈ post, ¬ src.dir <+: q') →
      Going rep conflict dir d t₀ seen₀ (pre ++ [q]) gone w' := by
    intro hgoes
    refine ⟨htree, hfewer, hseen, ⟨_, by rw [hreport, liftReport, List.length_append]; rfl⟩, ?_⟩
    intro p q' s hp hpre
    rcases List.prefix_concat_iff.1 hpre with heq | hpre
    · obtain ⟨rfl, hqq⟩ := List.append_inj' heq rfl
      obtain rfl : q' = q := List.singleton_inj.1 hqq
      rw [hcons] at hp
      obtain rfl : post = s := by simpa using hp
      refine ⟨fun n hn => ?_, hfree, fun hcancel => ?_⟩
      · obtain rfl : c = n := Option.some.inj (hlast.symm.trans hn)
        exact hutf
      · rw [← hseen, ← h.answer] at hcancel
        simpa [hq] using hgoes hcancel
    · exact hgo.clean p q' s hp hpre
  refine ⟨fun hcont => Or.inl (hgoing fun hcancel => by simp [hcont] at hcancel), fun hcancel => ?_⟩
  by_cases hrest : ∃ q' ∈ post, src.dir <+: q'
  · -- stopped with others left in the folder
    obtain ⟨q', hq', hsrc⟩ := hrest
    refine Or.inr ⟨fun hwell => ?_, hfewer, Or.inr ?_⟩
    · refine (hwell pre q post hcons).goes ?_ q' hq' (by simpa [hq] using hsrc)
      rw [← hseen, ← h.answer, hcancel]
    · have hmem : q' ∈ lifted t₀ d := by rw [hcons]; simp [hq']
      obtain ⟨hdq', -, nd', hnd', hfile'⟩ := t₀.mem_leaves.1 (mem_lifted hmem).1
      refine ⟨q', nd', htree.keeps q' nd' hnd' hdq' (fun hpre => ?_) (hat.outside_below hsrc), ?_, hsrc⟩
      · have hL' : lifted t₀ d = (pre ++ [q]) ++ post ++ [] := by rw [hL, List.append_nil]
        exact not_mem_pre hL' (by simpa using hq') hpre
      · simp [inside, hfile', hdq']
  · have hnone : ∀ q' ∈ post, ¬ src.dir <+: q' := fun q' hq' hpre => hrest ⟨q', hq', hpre⟩
    exact Or.inl ⟨hgoing fun _ => hnone, hnone⟩

/-- The files that one name in a folder stands for. -/
def filesAt (t : Tree) (F : Path) (c : Name) : List Path :=
  if t.isBranch (F ++ [c]) then t.leaves (F ++ [c]) else [F ++ [c]]

theorem mem_filesAt {F x : Path} {c : Name} (h : x ∈ filesAt t₀ F c) : F ++ [c] <+: x := by
  unfold filesAt at h
  split at h
  · exact (t₀.mem_leaves.1 h).1
  · rw [List.mem_singleton.1 h]

/-- **One child of a folder**, when the folders in it are brought up as they should. -/
theorem liftChild_going (hk : k.Honest) (hc : conflict ≠ .replace) {src : Root} {top : Root}
    (hat : Folder dir d t₀ gone src) (htop : top.dir = d) (c : Name)
    (hmem : (t₀.get (src.dir ++ [c])).isSome)
    (hL : lifted t₀ d = pre ++ filesAt t₀ src.dir c ++ post)
    (hgo : Going rep conflict dir d t₀ seen₀ pre gone w) {descend : Root → Act World Error Unit}
    (hdescend : ∀ w : World, t₀.isBranch (src.dir ++ [c]) = true →
      lifted t₀ d = pre ++ t₀.leaves (src.dir ++ [c]) ++ post →
      Going rep conflict dir d t₀ seen₀ pre gone w →
      (descend ⟨src.dir ++ [c], src.path ++ c.rel⟩).wp
        (fun _ w' => Going rep conflict dir d t₀ seen₀ (pre ++ t₀.leaves (src.dir ++ [c])) gone w' ∨
          Failing rep conflict dir d t₀ seen₀ (src.dir ++ [c] <+: ·) w')
        (fun _ w' => LiftsWell conflict rep dir d t₀ seen₀ → Survive d t₀ w'.fs) w) :
    (liftChild k rep descend src top conflict c).wp
      (fun flow w' =>
        (flow = .continue →
          Going rep conflict dir d t₀ seen₀ (pre ++ filesAt t₀ src.dir c) gone w' ∨
          Failing rep conflict dir d t₀ seen₀ (src.dir ++ [c] <+: ·) w') ∧
        (flow = .cancel → (Going rep conflict dir d t₀ seen₀ (pre ++ filesAt t₀ src.dir c) gone w' ∧
            ∀ q ∈ post, ¬ src.dir <+: q) ∨
          Failing rep conflict dir d t₀ seen₀ (src.dir <+: ·) w'))
      (fun _ w' => LiftsWell conflict rep dir d t₀ seen₀ → Survive d t₀ w'.fs) w := by
  obtain ⟨nd, hnd⟩ := Option.isSome_iff_exists.1 hmem
  have hbelow : d <+: src.dir ++ [c] := hat.below.trans (List.prefix_append _ _)
  have hpre : src.dir ++ [c] ∉ pre := by
    intro hpre
    obtain ⟨-, -, nd', hnd', hfile⟩ := t₀.mem_leaves.1 (mem_lifted_of_pre hL hpre).1
    refine not_mem_pre hL (List.mem_append_left _ ?_) hpre
    have hno : ¬ t₀.isBranch (src.dir ++ [c]) = true := by
      rw [t₀.isBranch_iff]
      rintro ⟨nd'', hnd'', hdir⟩
      rw [← Option.some.inj (hnd'.symm.trans hnd''), hfile] at hdir
      simp at hdir
    rw [filesAt, if_neg hno]
    exact List.mem_singleton_self _
  have hget := hgo.tree.keeps _ nd hnd hbelow hpre (hat.outside_below (List.prefix_append _ _))
  -- looking changes nothing
  have hlook : Going rep conflict dir d t₀ seen₀ pre gone w.tick :=
    ⟨hgo.tree, hgo.fewer, hgo.seen, hgo.progress, hgo.clean⟩
  simp only [liftChild, Act.wp_bind, Act.wp_ite, Act.wp_pure]
  refine Act.wp_mono (Root.metadata_spec src c w) ?_ ?_
  swap
  · rintro _ w₁ ⟨rfl, -⟩ -
    exact hgo.tree.survive
  rintro st w₁ ⟨rfl, nd', hnd', rfl⟩
  obtain rfl : nd' = nd := Option.some.inj (hnd'.symm.trans hget)
  constructor
  · intro hdir
    have hbranch : t₀.isBranch (src.dir ++ [c]) = true := by
      refine t₀.isBranch_iff.2 ⟨nd', hnd, ?_⟩
      cases nd' <;> simp_all [Node.stat, Node.isDir]
    have hfiles : filesAt t₀ src.dir c = t₀.leaves (src.dir ++ [c]) := if_pos hbranch
    refine Act.wp_mono (Root.sub_spec src c _) ?_ ?_
    swap
    · rintro _ w₂ rfl -
      exact hgo.tree.survive
    rintro sub w₂ ⟨rfl, rfl, -⟩
    rw [hfiles] at hL ⊢
    refine Act.wp_mono (hdescend _ hbranch hL ?_) (fun _ w₃ h₃ => ?_) (fun _ _ h => h)
    · exact ⟨hgo.tree, hgo.fewer, hgo.seen, hgo.progress, hgo.clean⟩
    · exact ⟨fun _ => h₃, fun h => by simp at h⟩
  · intro hdir
    have hno : ¬ t₀.isBranch (src.dir ++ [c]) = true := by
      rw [t₀.isBranch_iff]
      rintro ⟨nd'', hnd'', hd''⟩
      obtain rfl : nd'' = nd' := Option.some.inj (hnd''.symm.trans hnd)
      cases nd'' <;> simp_all [Node.stat, Node.isDir]
    have hfiles : filesAt t₀ src.dir c = [src.dir ++ [c]] := if_neg hno
    rw [hfiles] at hL ⊢
    refine Act.wp_mono (liftFile_going hk hc hat htop c hL hlook) (fun _ _ h => h) ?_
    intro _ w₂ hfs _
    rw [hfs]
    exact hgo.tree.survive

/-- **A whole folder**: all its files are brought up in their turns, or some will be missed. -/
theorem lift_going (hk : k.Honest) (hc : conflict ≠ .replace) (depth : ℕ) {src : Root} {top : Root}
    (hat : Folder dir d t₀ gone src) (htop : top.dir = d) (hbranch : t₀.isBranch src.dir = true)
    (hL : lifted t₀ d = pre ++ t₀.leaves src.dir ++ post)
    (hgo : Going rep conflict dir d t₀ seen₀ pre gone w) :
    (lift k rep top conflict depth src).wp
      (fun _ w' => Going rep conflict dir d t₀ seen₀ (pre ++ t₀.leaves src.dir) gone w' ∨
        Failing rep conflict dir d t₀ seen₀ (src.dir <+: ·) w')
      (fun _ w' => LiftsWell conflict rep dir d t₀ seen₀ → Survive d t₀ w'.fs) w := by
  induction depth generalizing src pre post w with
  | zero => exact fun _ => hgo.tree.survive
  | succ depth ih =>
    simp only [lift, Act.wp_bind, Act.wp_pure]
    refine Act.wp_mono (Root.readDir_spec src w) ?_ ?_
    swap
    · rintro _ w₁ rfl -
      exact hgo.tree.survive
    rintro children w₁ ⟨rfl, -, rfl⟩
    have hnames : w.fs.names src.dir = t₀.names src.dir := by
      rw [hgo.tree.lists src.dir hat.below hat.ne hat.outside]
      refine List.filter_eq_self.2 fun c _ => ?_
      rw [decide_eq_true_eq]
      intro hpre
      obtain ⟨-, -, hfile⟩ := t₀.mem_leaves.1 (mem_lifted_of_pre hL hpre).1
      exact not_mem_pre hL (List.mem_append_left _
        (t₀.mem_leaves.2 ⟨List.prefix_append _ _, by simp, hfile⟩)) hpre
    have hleaves : t₀.leaves src.dir = (t₀.names src.dir).flatMap (filesAt t₀ src.dir) :=
      t₀.leaves_eq src.dir
    rw [hnames]
    refine Act.each_wp (Q := fun _ w' => Going rep conflict dir d t₀ seen₀
        (pre ++ t₀.leaves src.dir) gone w' ∨ Failing rep conflict dir d t₀ seen₀ (src.dir <+: ·) w')
      (fun cs w' =>
        (∃ done, t₀.names src.dir = done ++ cs ∧ Going rep conflict dir d t₀ seen₀
          (pre ++ done.flatMap (filesAt t₀ src.dir)) gone w') ∨
        Failing rep conflict dir d t₀ seen₀
          (fun x => src.dir <+: x ∧ ∀ c ∈ cs, ¬ src.dir ++ [c] <+: x) w') ?_ ?_ _ _
      (Or.inl ⟨[], rfl, by
        simpa using ⟨hgo.tree, hgo.fewer, hgo.seen, hgo.progress, hgo.clean⟩⟩)
    · rintro w' (⟨done, hdone, hgo'⟩ | hfail)
      · rw [List.append_nil] at hdone
        rw [hleaves, hdone]
        exact Or.inl hgo'
      · exact Or.inr (hfail.mono fun x h => h.1)
    rintro c cs w' (⟨done, hdone, hgo'⟩ | hfail)
    · have hcnames : c ∈ t₀.names src.dir := by rw [hdone]; simp
      have hnodup := t₀.nodup_names src.dir
      rw [hdone] at hnodup
      have hL' : lifted t₀ d = (pre ++ done.flatMap (filesAt t₀ src.dir)) ++
          filesAt t₀ src.dir c ++ (cs.flatMap (filesAt t₀ src.dir) ++ post) := by
        rw [hL, hleaves, hdone]
        simp
      have hnext : ∀ {w'' : World}, Going rep conflict dir d t₀ seen₀
          (pre ++ done.flatMap (filesAt t₀ src.dir) ++ filesAt t₀ src.dir c) gone w'' →
          Going rep conflict dir d t₀ seen₀
            (pre ++ (done ++ [c]).flatMap (filesAt t₀ src.dir)) gone w'' := fun h => by
        rw [List.flatMap_append, List.flatMap_singleton, ← List.append_assoc]
        exact h
      refine Act.wp_mono (liftChild_going hk hc hat htop c (t₀.mem_names.1 hcnames) hL' hgo'
        fun w hb hL'' hgo'' => ?_) (fun flow w'' h => ?_) (fun _ _ h => h)
      · exact ih (hat.sub c) hb hL'' hgo''
      · split
        · next hflow =>
          refine (h.1 hflow).imp (fun hgo'' => ⟨done ++ [c], by simp [hdone], hnext hgo''⟩)
            fun hfail => hfail.mono fun x hx =>
              ⟨(List.prefix_append _ _).trans hx, fun c' hc' hx' => ?_⟩
          -- what is left below one child is below no other
          have hne : c ≠ c' := fun he => by
            rw [he] at hnodup
            exact (List.nodup_cons.1 (List.nodup_append.1 hnodup).2.1).1 hc'
          rcases List.prefix_or_prefix_of_prefix hx hx' with hp | hp <;>
            rw [List.prefix_append_right_inj] at hp <;> simp [hne, hne.symm] at hp
        · next hflow =>
          refine (h.2 (eq_cancel hflow)).imp_left fun hboth => ?_
          obtain ⟨hgo'', hnone⟩ := hboth
          have hnil : cs.flatMap (filesAt t₀ src.dir) = [] := by
            rw [List.eq_nil_iff_forall_not_mem]
            intro x hx
            obtain ⟨c', -, hx'⟩ := List.mem_flatMap.1 hx
            exact hnone x (List.mem_append_left _ hx)
              ((List.prefix_append _ _).trans (mem_filesAt hx'))
          have := hnext hgo''
          rw [hleaves, hdone]
          simpa [hnil] using this
    · -- some file is missed already
      have hsweep : Act.Stays (Sweeps d (src.dir ++ [c]))
          (liftChild k rep (lift k rep top conflict depth) src top conflict c) := by
        subst htop
        exact liftChild_sweeps hk hc src top c hat.below fun sub hsub =>
          hsub ▸ lift_sweeps hk hc depth sub top
            (by rw [hsub]; exact hat.below.trans (List.prefix_append _ _))
      refine Act.wp_mono (hsweep.wp w') (fun flow w'' hs => ?_)
        (fun _ _ _ hwell => absurd hwell hfail.bad)
      have hfail' := hfail.sweeps hs fun x hx => hx.2 c List.mem_cons_self
      split
      · exact Or.inr (hfail'.mono fun x hx => ⟨hx.1, fun c' hc' => hx.2 c' (List.mem_cons_of_mem _ hc')⟩)
      · exact Or.inr (hfail'.mono fun x hx => hx.1)

/-! ## The whole folder -/

/-- One entry is dealt with: the files below it are all in `d`, or some are missing. -/
theorem flattenEntry_going (hk : k.Honest) (hc : conflict ≠ .replace) {root : Root} {e : Name}
    {past rest : List Name} (hroot : root = ⟨d, dir⟩)
    (hnames : t₀.names d = past ++ e :: rest)
    (hgone : gone = past.filter fun g => t₀.isBranch (d ++ [g]))
    (hL : lifted t₀ d = pre ++ (if t₀.isBranch (d ++ [e]) then t₀.leaves (d ++ [e]) else []) ++ post)
    (hgo : Going rep conflict dir d t₀ seen₀ pre gone w) :
    (flattenEntry k rep root conflict e).wp
      (fun _ w' => Going rep conflict dir d t₀ seen₀
          (pre ++ if t₀.isBranch (d ++ [e]) then t₀.leaves (d ++ [e]) else [])
          ((past ++ [e]).filter fun g => t₀.isBranch (d ++ [g])) w' ∨
        (¬ LiftsWell conflict rep dir d t₀ seen₀ ∧ Short d t₀ w'.fs))
      (fun _ w' => LiftsWell conflict rep dir d t₀ seen₀ → Survive d t₀ w'.fs) w := by
  subst hroot
  have hnodup := t₀.nodup_names d
  rw [hnames] at hnodup
  have hepast : e ∉ past := fun he =>
    (List.nodup_append.1 hnodup).2.2 e he e List.mem_cons_self rfl
  have hegone : e ∉ gone := fun he => hepast (List.mem_filter.1 (hgone ▸ he)).1
  have hsome : (t₀.get (d ++ [e])).isSome := t₀.mem_names.1 (by rw [hnames]; simp)
  have hpre : d ++ [e] ∉ pre := fun h => (mem_lifted_of_pre hL h).2 List.dropLast_concat
  have hout : ∀ g ∈ gone, ¬ d ++ [g] <+: d ++ [e] := by
    intro g hg hge
    rw [List.prefix_append_right_inj] at hge
    obtain rfl : g = e := by simpa using hge
    exact hegone hg
  obtain ⟨nd, hnd⟩ := Option.isSome_iff_exists.1 hsome
  have hget := hgo.tree.keeps _ nd hnd (List.prefix_append _ _) hpre hout
  simp only [flattenEntry, Act.wp_bind, Act.wp_ite, Act.wp_pure]
  refine Act.wp_mono (Root.metadata_spec ⟨d, dir⟩ e w) ?_ ?_
  swap
  · rintro _ w₁ ⟨rfl, -⟩ -
    exact hgo.tree.survive
  rintro _ w₁ ⟨rfl, nd', hnd', rfl⟩
  obtain rfl : nd' = nd := Option.some.inj (hnd'.symm.trans hget)
  constructor
  · -- not a folder: it stays
    intro hdir
    have hno : ¬ t₀.isBranch (d ++ [e]) = true := by
      rw [t₀.isBranch_iff]
      rintro ⟨nd'', hnd'', hd''⟩
      obtain rfl : nd'' = nd' := Option.some.inj (hnd''.symm.trans hnd)
      cases nd'' <;> simp_all [Node.stat, Node.isDir]
    refine Or.inl ?_
    rw [if_neg hno, List.append_nil, List.filter_append, ← hgone,
      List.filter_singleton, Bool.eq_false_iff.2 hno, cond_false, List.append_nil]
    exact ⟨hgo.tree, hgo.fewer, hgo.seen, hgo.progress, hgo.clean⟩
  · intro hdir
    have hbranch : t₀.isBranch (d ++ [e]) = true := by
      refine t₀.isBranch_iff.2 ⟨nd', hnd, ?_⟩
      cases nd' <;> simp_all [Node.stat, Node.isDir]
    rw [if_pos hbranch] at hL ⊢
    rw [List.filter_append, ← hgone, List.filter_singleton, hbranch, cond_true]
    refine Act.wp_mono (Root.sub_spec ⟨d, dir⟩ e _) ?_ ?_
    swap
    · rintro _ w₂ rfl -
      exact hgo.tree.survive
    rintro sub w₂ ⟨rfl, rfl, -⟩
    have hat : Folder dir d t₀ gone ⟨d ++ [e], dir ++ e.rel⟩ := by
      refine ⟨by simp, List.prefix_append _ _, by simp, hout, fun q m hq => ?_⟩
      -- the turn of a file below this entry comes after the entries before it
      refine and_congr_right fun hm => ⟨fun h => ?_, fun h hb past' e' rest' hnames' hq' hmem => ?_⟩
      · rw [hgone, List.mem_filter, not_and]
        exact fun hmem hb => h hb past e rest hnames hq hmem
      · have he' : e' = e := by
          rcases List.prefix_or_prefix_of_prefix hq hq' with hp | hp <;>
            rw [List.prefix_append_right_inj] at hp <;> simpa [eq_comm] using hp
        subst he'
        have hsame : past' = past := by
          have herest : e' ∉ rest :=
            (List.nodup_cons.1 (List.nodup_append.1 hnodup).2.1).1
          exact ((List.append_cons_inj_of_notMem hepast herest).1
            (hnames.symm.trans hnames')).1.symm
        subst hsame
        exact h (hgone ▸ List.mem_filter.2 ⟨hmem, by simpa using hb⟩)
    have hgo' : Going rep conflict dir d t₀ seen₀ pre gone w.tick.tick :=
      ⟨hgo.tree, hgo.fewer, hgo.seen, hgo.progress, hgo.clean⟩
    refine Act.wp_mono (lift_going hk hc _ hat rfl hbranch hL hgo') ?_ (fun _ _ h => h)
    rintro _ w₃ (hgo₃ | hfail)
    · have hall : ∀ x ∈ t₀.leaves d, d ++ [e] <+: x → x ∈ pre ++ t₀.leaves (d ++ [e]) := by
        intro x hx hex
        obtain ⟨-, -, nd'', hnd'', hfile⟩ := t₀.mem_leaves.1 hx
        refine List.mem_append_right _ (t₀.mem_leaves.2 ⟨hex, ?_, nd'', hnd'', hfile⟩)
        rintro rfl
        obtain ⟨nd₃, hnd₃, hdir₃⟩ := t₀.isBranch_iff.1 hbranch
        rw [← Option.some.inj (hnd''.symm.trans hnd₃), hfile] at hdir₃
        simp at hdir₃
      have hpre' : d ++ [e] ∉ pre ++ t₀.leaves (d ++ [e]) := by
        rw [List.mem_append, not_or]
        exact ⟨hpre, fun h => (t₀.mem_leaves.1 h).2.1 rfl⟩
      refine Act.wp_mono (Act.wp_and (removeTree_spec _ ⟨d, dir⟩ e w₃)
        ((removeTree_lists _ ⟨d, dir⟩ e).wp w₃)) ?_ ?_
      · rintro _ w₄ ⟨⟨hcut, hjob⟩, hlists⟩
        refine Or.inl ⟨hgo₃.tree.remove hsome hegone hpre' hall hcut hlists,
          hgo₃.fewer.trans (fewer_of_shrinks hcut.shrinks), ?_, ?_, hgo₃.clean⟩
        · rw [hjob]
          exact hgo₃.seen
        · rw [hjob]
          exact hgo₃.progress
      · rintro _ w₄ ⟨⟨hshrinks, -⟩, -⟩ -
        exact (hgo₃.tree.toSpared.shrink hsome hegone hpre' hall hshrinks.outside).survive
    · refine Act.wp_mono (removeTree_spec _ ⟨d, dir⟩ e w₃) ?_
        (fun _ _ _ hwell => absurd hwell hfail.bad)
      rintro _ w₄ ⟨hcut, -⟩
      refine Or.inr ⟨hfail.bad, ?_⟩
      rcases hfail.doomed with hshort | ⟨x, nd, hx, hin, hex⟩
      · exact hshort.trans (fewer_of_shrinks hcut.shrinks)
      · exact hfail.fewer.short (short_of_cut hcut hx hex hin)

theorem flattenEntry_sweeps (hk : k.Honest) (hc : conflict ≠ .replace) (root : Root) (e : Name) :
    Act.Stays (Sweeps root.dir root.dir) (flattenEntry k rep root conflict e) := by
  refine sweeps_bind (sweeps_looks (looks_metadata root e)) fun st => ?_
  refine Act.Stays.ite (fun _ => Act.Stays.pure (fun _ => Sweeps.of_fs rfl) _) fun _ => ?_
  refine Act.Stays.bind_of (R := Sweeps root.dir root.dir) (fun _ _ _ => Sweeps.trans)
    (P := fun sub => root.dir <+: sub.dir) (fun w => ?_) fun sub hsub => ?_
  · refine Act.wp_mono (Root.sub_spec root e w) ?_ ?_
    · rintro sub w' ⟨rfl, rfl, -⟩
      exact ⟨Sweeps.of_fs rfl, List.prefix_append _ _⟩
    · rintro _ w' rfl
      exact Sweeps.of_fs rfl
  · refine sweeps_bind ((lift_sweeps hk hc _ sub root hsub).mono fun _ _ h => h.mono hsub) fun _ => ?_
    exact (removeTree_deletes _ root e).mono fun _ _ h => h.sweeps.mono (List.prefix_append _ _)

variable (rep) in
/-- **Flattening a folder**, whichever way it ends. -/
theorem flatten_spec (hk : k.Honest) (hc : conflict ≠ .replace) (dir : PathBuf) {d : Path}
    (hd : k.resolve w.fs dir = .ok d) :
    (flatten k rep dir conflict).wp
      (fun _ w' => Survive d w.fs w'.fs ↔ LiftsWell conflict rep dir d w.fs w.job.seen)
      (fun _ w' => LiftsWell conflict rep dir d w.fs w.job.seen → Survive d w.fs w'.fs) w := by
  have hstart : Lifting conflict d w.fs [] [] w.fs := .start
  have hsame : Survive d w.fs w.fs := hstart.survive
  simp only [flatten, startJob, Act.wp_bind, wp_setJob, Act.wp_get, Act.wp_pure]
  refine Act.wp_mono (Root.open_spec dir w) ?_ ?_
  swap
  · rintro _ w₁ (rfl | rfl) - <;> exact hsame
  rintro ⟨d', dir'⟩ w₁ ⟨rfl, rfl, hres, hbranch⟩
  obtain rfl : d = d' := Except.ok.inj (hd.symm.trans hres)
  refine Act.wp_mono (Root.readDir_spec _ _) ?_ ?_
  swap
  · rintro _ w₂ rfl -
    exact hsame
  rintro entries w₂ ⟨rfl, -, rfl⟩
  set filesOf : Name → List Path := fun e =>
    if w.fs.isBranch (d ++ [e]) then w.fs.leaves (d ++ [e]) else [] with hfilesOf
  have hL : lifted w.fs d = (w.fs.names d).flatMap filesOf := lifted_eq w.fs d
  refine Act.each_wp
    (fun rest w' =>
      (∃ past, w.fs.names d = past ++ rest ∧
        Going rep conflict dir' d w.fs w.job.seen (past.flatMap filesOf)
          (past.filter fun g => w.fs.isBranch (d ++ [g])) w') ∨
      (¬ LiftsWell conflict rep dir' d w.fs w.job.seen ∧ Short d w.fs w'.fs)) ?_ ?_ _ _
    (Or.inl ⟨[], rfl, .start, Fewer.refl d w.fs, rfl, ⟨[], rfl⟩, ?_⟩)
  · rintro w' (⟨past, hpast, hgo⟩ | ⟨hbad, hshort⟩)
    · rw [List.append_nil] at hpast
      refine iff_of_true hgo.tree.survive fun p q s hp => hgo.clean p q s hp ?_
      rw [← hpast, ← hL, hp]
      exact ⟨s, by simp⟩
    · exact iff_of_false (hshort.not_survive hbranch) hbad
  · rintro e rest w' (⟨past, hpast, hgo⟩ | ⟨hbad, hshort⟩)
    · have hL' : lifted w.fs d = past.flatMap filesOf ++ filesOf e ++ rest.flatMap filesOf := by
        rw [hL, hpast]
        simp
      refine Act.wp_mono (flattenEntry_going hk hc rfl hpast rfl hL' hgo) (fun _ w'' h => ?_)
        (fun _ _ h => h)
      rw [if_pos rfl]
      refine h.imp_left fun hgo' => ⟨past ++ [e], by simp [hpast], ?_⟩
      rw [List.flatMap_append, List.flatMap_singleton]
      exact hgo'
    · refine Act.wp_mono ((flattenEntry_sweeps hk hc ⟨d, dir'⟩ e).wp w') (fun _ w'' h => ?_)
        (fun _ _ _ hwell => absurd hwell hbad)
      rw [if_pos rfl]
      exact Or.inr ⟨hbad, hshort.trans h.1⟩
  · intro p q s _ hpre
    simp at hpre

/-- A folder with a file `a` in it, and a folder with another `a`. -/
def sameNames : World := .ofList
  [(Path.of ["box"], .dir 0o755 .owner), (Path.of ["box", "a"], .file 0o644 .owner [1]),
    (Path.of ["box", "sub"], .dir 0o755 .owner),
    (Path.of ["box", "sub", "a"], .file 0o644 .owner [2])]

end Aurade.Ops
