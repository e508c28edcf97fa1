import Aurade.Foundations.Leaves
import Aurade.Ops.Effects

/-!
# What a flattened folder has to keep

The vocabulary of flattening, on trees alone. `lifted t d` are the files that flattening `d` has to
bring up, in the order in which it meets them. `Survive d t t'` says that every file below `d` is
still below `d`, each at a place of its own, with its contents and under its own name or a numbered
one.

`LiftsWell` is what the folder, the conflict answer and the reporter have to grant for that: of each
file in turn, that its name is text, that with `Skip` the name is not taken, and that the reporter
does not stop where its folder still holds others.

Two things can be said of the tree along the way:

* `Lifting`: the first files have been brought up and the first folders removed, and nothing else has
  happened. Each step keeps it (`Lifting.lift`, `Lifting.remove`), and it is enough for survival
  (`Lifting.survive`).
* `Short`: there are fewer files than there were, or fewer whose names are no text. No step makes up
  for that (`Fewer`), and it rules survival out (`Short.not_survive`).
-/

namespace Aurade.Ops

open Fs

/-! ## What is asked -/

/-- The second path ends in the name of the first, or in that name with a number. -/
def SameName (x y : Path) : Prop :=
  ∃ p n q m, x = p ++ [n] ∧ y = q ++ [m] ∧ (m = n ∨ ∃ i, m = numbered n i)

/-- Every file below `d` is still below `d`, with its contents, under its own name or a numbered one,
and no two of them are now one. -/
def Survive (d : Path) (t t' : Tree) : Prop :=
  ∃ f : Path → Path,
    (∀ x ∈ t.leaves d, d <+: f x ∧
      (t'.get (f x)).map Node.content = (t.get x).map Node.content ∧ SameName x (f x)) ∧
    ∀ x ∈ t.leaves d, ∀ y ∈ t.leaves d, f x = f y → x = y

/-- The files below `d` that are not directly in it, in the order in which they are met. -/
def lifted (t : Tree) (d : Path) : List Path := (t.leaves d).filter fun x => x.dropLast ≠ d

/-- The report after the file at `q` was brought up as the `i`-th one. -/
def liftReport (dir : PathBuf) (d : Path) (i : ℕ) (q : Path) : Progress :=
  { doneItems := i, current := dir ++ (q.drop d.length).map fun n => .normal n.val }

/-- The reports after these files were brought up, the newest first. -/
def liftReports (dir : PathBuf) (d : Path) (seen : List Progress) (qs : List Path) :
    List Progress :=
  (qs.mapIdx fun i q => liftReport dir d (i + 1) q).reverse ++ seen

/-- When the turn of `q` comes, the name is that of a file directly in `d`, or of a folder that is not
removed yet. -/
def Standing (t : Tree) (d q : Path) (m : Name) : Prop :=
  (t.get (d ++ [m])).isSome ∧ (t.isBranch (d ++ [m]) = true →
    ∀ past e rest, t.names d = past ++ e :: rest → d ++ [e] <+: q → m ∉ past)

/-- What has to hold for the file at `q` to be brought up after `pre` and before `post`, and for the
others in its folder to follow. -/
structure LiftedWell (conflict : Conflict) (rep : Reporter) (dir : PathBuf) (d : Path) (t : Tree)
    (seen : List Progress) (pre : List Path) (q : Path) (post : List Path) : Prop where
  utf8 : ∀ n, q.getLast? = some n → Utf8.valid n.val = true
  free : conflict = .skip → ∀ n, q.getLast? = some n →
    (∀ q' ∈ pre, q'.getLast? ≠ some n) ∧ ¬ Standing t d q n
  goes : rep (liftReports dir d seen (pre ++ [q])) = .cancel → ∀ q' ∈ post, ¬ q.dropLast <+: q'

/-- Each file in its turn can be brought up. -/
def LiftsWell (conflict : Conflict) (rep : Reporter) (dir : PathBuf) (d : Path) (t : Tree)
    (seen : List Progress) : Prop :=
  ∀ pre q post, lifted t d = pre ++ q :: post → LiftedWell conflict rep dir d t seen pre q post

theorem liftReports_concat (dir : PathBuf) (d : Path) (seen : List Progress) (pre : List Path)
    (q : Path) : liftReports dir d seen (pre ++ [q]) =
      liftReport dir d (pre.length + 1) q :: liftReports dir d seen pre := by
  simp [liftReports, List.mapIdx_append]

section Lifted

variable (t : Tree) (d : Path)

theorem nodup_lifted : (lifted t d).Nodup := (t.nodup_leaves d).filter _

/-- The files to bring up are those below a folder in `d`, folder by folder. -/
theorem lifted_eq : lifted t d = (t.names d).flatMap fun e =>
    if t.isBranch (d ++ [e]) then t.leaves (d ++ [e]) else [] := by
  rw [lifted, t.leaves_eq, List.filter_flatMap]
  refine List.flatMap_congr fun e _ => ?_
  split
  · refine List.filter_eq_self.2 fun x hx => ?_
    obtain ⟨⟨r, rfl⟩, hne, -⟩ := t.mem_leaves.1 hx
    rcases List.eq_nil_or_concat r with rfl | ⟨r, c, rfl⟩
    · simp at hne
    · rw [decide_eq_true_eq, List.concat_eq_append, ← List.append_assoc, List.dropLast_concat,
        List.append_assoc]
      exact fun h => by simpa using congrArg List.length h
  · simp

variable {t d}

theorem mem_lifted {x : Path} (h : x ∈ lifted t d) : x ∈ t.leaves d ∧ x.dropLast ≠ d := by
  simpa [lifted] using h

end Lifted

/-! ## Along the way -/

/-- The one name is the other, or with `KeepBoth` the other with a number. -/
def Named (conflict : Conflict) (n m : Name) : Prop :=
  m = n ∨ conflict = .keepBoth ∧ ∃ i, m = numbered n i

/-- The files in `pre` are in `d`, and every other node that is not below a folder in `gone` is where
it was. Nothing was in `pre` that was not, below these folders. -/
structure Spared (conflict : Conflict) (d : Path) (t₀ : Tree) (pre : List Path) (gone : List Name)
    (t : Tree) : Prop where
  keeps : ∀ x nd, t₀.get x = some nd → d <+: x → x ∉ pre → (∀ g ∈ gone, ¬ d ++ [g] <+: x) →
    t.get x = some nd
  swept : ∀ g ∈ gone, ∀ x ∈ t₀.leaves d, d ++ [g] <+: x → x ∈ pre
  placed : ∃ f : Path → Path,
    (∀ q ∈ pre, (∃ nd, t₀.get q = some nd ∧ t.get (f q) = some nd) ∧
      ∃ p n m, q = p ++ [n] ∧ f q = d ++ [m] ∧ Named conflict n m) ∧
    (∀ q ∈ pre, ∀ q' ∈ pre, f q = f q' → q = q') ∧
    ∀ q ∈ pre, ∀ x, (t₀.get x).isSome → d <+: x → x ∉ pre → (∀ g ∈ gone, ¬ d ++ [g] <+: x) →
      f q ≠ x

/-- The files in `pre` have been brought up, the folders in `gone` have been removed, and below `d`
nothing else has happened. -/
structure Lifting (conflict : Conflict) (d : Path) (t₀ : Tree) (pre : List Path) (gone : List Name)
    (t : Tree) : Prop extends Spared conflict d t₀ pre gone t where
  lists : ∀ F, d <+: F → F ≠ d → (∀ g ∈ gone, ¬ d ++ [g] <+: F) →
    t.names F = (t₀.names F).filter fun c => F ++ [c] ∉ pre
  stands : ∀ m, (t.get (d ++ [m])).isSome →
    (∃ q ∈ pre, ∃ n, q.getLast? = some n ∧ Named conflict n m) ∨
      ((t₀.get (d ++ [m])).isSome ∧ m ∉ gone)

variable {conflict : Conflict} {d : Path} {t₀ t t' : Tree} {pre : List Path} {gone : List Name}

theorem Lifting.start : Lifting conflict d t₀ [] [] t₀ where
  keeps _ _ h _ _ _ := h
  swept := by simp
  placed := ⟨id, by simp, by simp, by simp⟩
  lists F _ _ _ := by simp
  stands m hm := Or.inr ⟨hm, by simp⟩

/-- **What is spared survives.** -/
theorem Spared.survive (h : Spared conflict d t₀ pre gone t) : Survive d t₀ t := by
  obtain ⟨f, hf, hinj, hapart⟩ := h.placed
  have hstill : ∀ x ∈ t₀.leaves d, x ∉ pre → (t₀.get x).isSome ∧ d <+: x ∧
      (∀ g ∈ gone, ¬ d ++ [g] <+: x) ∧ t.get x = t₀.get x := by
    intro x hx hpre
    obtain ⟨hdx, -, nd, hnd, -⟩ := t₀.mem_leaves.1 hx
    have hgone : ∀ g ∈ gone, ¬ d ++ [g] <+: x := fun g hg hgx => hpre (h.swept g hg x hx hgx)
    exact ⟨by rw [hnd]; rfl, hdx, hgone, by rw [h.keeps x nd hnd hdx hpre hgone, hnd]⟩
  refine ⟨fun x => if x ∈ pre then f x else x, fun x hx => ?_, fun x hx y hy hxy => ?_⟩
  · by_cases hpre : x ∈ pre
    · obtain ⟨⟨nd, hnd, hfx⟩, p, n, m, hp, hm, hname⟩ := hf x hpre
      simp only [if_pos hpre]
      exact ⟨hm ▸ List.prefix_append d [m], by rw [hfx, hnd],
        p, n, d, m, hp, hm, hname.imp_right fun h => h.2⟩
    · obtain ⟨-, hdx, -, hget⟩ := hstill x hx hpre
      simp only [if_neg hpre]
      refine ⟨hdx, by rw [hget], ?_⟩
      rcases List.eq_nil_or_concat x with rfl | ⟨p, n, rfl⟩
      · obtain ⟨hd, hne, -⟩ := t₀.mem_leaves.1 hx
        exact absurd (List.prefix_nil.1 hd).symm hne
      · rw [List.concat_eq_append]
        exact ⟨p, n, p, n, rfl, rfl, Or.inl rfl⟩
  · by_cases hpx : x ∈ pre <;> by_cases hpy : y ∈ pre <;> simp only [hpx, hpy, if_true, if_false] at hxy
    · exact hinj x hpx y hpy hxy
    · obtain ⟨hsome, hdy, hgone, -⟩ := hstill y hy hpy
      exact absurd hxy (hapart x hpx y hsome hdy hpy hgone)
    · obtain ⟨hsome, hdx, hgone, -⟩ := hstill x hx hpx
      exact absurd hxy.symm (hapart y hpy x hsome hdx hpx hgone)
    · exact hxy

/-- Whatever is taken away below a folder whose files have all been brought up was not kept there. -/
theorem Spared.shrink (h : Spared conflict d t₀ pre gone t) {e : Name}
    (he : (t₀.get (d ++ [e])).isSome) (hnew : e ∉ gone) (hpre : d ++ [e] ∉ pre)
    (hall : ∀ x ∈ t₀.leaves d, d ++ [e] <+: x → x ∈ pre)
    (hout : ∀ x, ¬ d ++ [e] <+: x → t'.get x = t.get x) :
    Spared conflict d t₀ pre (gone ++ [e]) t' := by
  obtain ⟨f, hf, hinj, hapart⟩ := h.placed
  have hgone : ∀ {x : Path}, (∀ g ∈ gone ++ [e], ¬ d ++ [g] <+: x) →
      (∀ g ∈ gone, ¬ d ++ [g] <+: x) ∧ ¬ d ++ [e] <+: x := fun hx =>
    ⟨fun g hg => hx g (List.mem_append_left _ hg), hx e (by simp)⟩
  refine ⟨fun x nd hx hdx hxp hxg => ?_, fun g hg x hx hgx => ?_, f, fun q hq => ?_, hinj,
    fun q hq x hx hdx hxp hxg => hapart q hq x hx hdx hxp (hgone hxg).1⟩
  · rw [hout x (hgone hxg).2]
    exact h.keeps x nd hx hdx hxp (hgone hxg).1
  · rcases List.mem_append.1 hg with hg | hg
    · exact h.swept g hg x hx hgx
    · rw [List.mem_singleton.1 hg] at hgx
      exact hall x hx hgx
  · obtain ⟨⟨nd, hnd, hfq⟩, p, n, m, hp, hm, hname⟩ := hf q hq
    refine ⟨⟨nd, hnd, ?_⟩, p, n, m, hp, hm, hname⟩
    rw [hout _ ?_, hfq]
    -- what was brought up is beside the folder
    rw [hm, List.prefix_append_right_inj]
    intro hpref
    obtain rfl : e = m := by simpa using hpref
    refine hapart q hq (d ++ [e]) he (List.prefix_append _ _) hpre (fun g hg hge => hnew ?_) hm
    rw [List.prefix_append_right_inj] at hge
    obtain rfl : g = e := by simpa using hge
    exact hg

/-- **A file is brought up.** -/
theorem Lifting.lift (h : Lifting conflict d t₀ pre gone t) {F : Path} {n m : Name}
    (hq : F ++ [n] ∈ t₀.leaves d) (hpre : F ++ [n] ∉ pre)
    (hgone : ∀ g ∈ gone, ¬ d ++ [g] <+: F ++ [n]) (hren : t.rename F n d m = .ok t')
    (hfree : t.get (d ++ [m]) = none) (hname : Named conflict n m) :
    Lifting conflict d t₀ (pre ++ [F ++ [n]]) gone t' := by
  set q := F ++ [n] with hqdef
  obtain ⟨hdq, -, nd, hnd, hfile⟩ := t₀.mem_leaves.1 hq
  have hget := h.keeps q nd hnd hdq hpre hgone
  have hleaf : t.isBranch q = false := by
    rw [← Bool.not_eq_true, t.isBranch_iff]
    rintro ⟨nd', hnd', hdir⟩
    rw [← Option.some.inj (hget.symm.trans hnd'), hfile] at hdir
    simp at hdir
  have hmoved := Tree.moved_of_rename hren hfree
  have hother : ∀ x nd', t.get x = some nd' → x ≠ q → t'.get x = some nd' := by
    intro x nd' hx hne
    refine hmoved.get_of_outside hx fun hqx => ?_
    obtain ⟨r, rfl⟩ := hqx
    rw [t.get_append_of_not_isBranch hleaf (by simpa [hqdef] using hne)] at hx
    simp at hx
  obtain ⟨f, hf, hinj, hapart⟩ := h.placed
  have hfne : ∀ q' ∈ pre, f q' ≠ q := fun q' hq' =>
    hapart q' hq' q (by rw [hnd]; rfl) hdq hpre hgone
  have hmem : ∀ {x : Path}, x ∉ pre ++ [q] → x ∉ pre ∧ x ≠ q := fun hx => by
    simpa [not_or] using hx
  have hne : ∀ q' ∈ pre, q' ≠ q := fun q' hq' he => hpre (he ▸ hq')
  refine ⟨⟨fun x nd' hx hdx hxp hxg => ?_, fun g hg x hx hgx => ?_, Function.update f q (d ++ [m]),
    fun q' hq' => ?_, fun q' hq' q'' hq'' heq => ?_, fun q' hq' x hx hdx hxp hxg => ?_⟩,
    fun F' hF' hne' hg' => ?_, fun m' hm' => ?_⟩
  · exact hother x nd' (h.keeps x nd' hx hdx (hmem hxp).1 hxg) (hmem hxp).2
  · exact List.mem_append_left _ (h.swept g hg x hx hgx)
  · rcases List.mem_append.1 hq' with hq' | hq'
    · rw [Function.update_of_ne (hne q' hq')]
      obtain ⟨⟨nd', hnd', hfq⟩, hrest⟩ := hf q' hq'
      exact ⟨⟨nd', hnd', hother _ _ hfq (hfne q' hq')⟩, hrest⟩
    · rw [List.mem_singleton.1 hq', Function.update_self]
      refine ⟨⟨nd, hnd, ?_⟩, F, n, m, rfl, rfl, hname⟩
      have hdrop : (d ++ [m]).drop (d ++ [m]).length = [] := List.drop_length
      rw [hmoved.get, if_pos List.prefix_rfl, hdrop, List.append_nil, hget]
  · have hold : ∀ p ∈ pre, f p ≠ d ++ [m] := fun p hp hfp => by
      obtain ⟨⟨nd', -, hget'⟩, -⟩ := hf p hp
      rw [hfp, hfree] at hget'
      simp at hget'
    rcases List.mem_append.1 hq' with hq' | hq' <;> rcases List.mem_append.1 hq'' with hq'' | hq''
    · rw [Function.update_of_ne (hne q' hq'), Function.update_of_ne (hne q'' hq'')] at heq
      exact hinj q' hq' q'' hq'' heq
    · rw [List.mem_singleton.1 hq'', Function.update_self, Function.update_of_ne (hne q' hq')] at heq
      exact absurd heq (hold q' hq')
    · rw [List.mem_singleton.1 hq', Function.update_self, Function.update_of_ne (hne q'' hq'')] at heq
      exact absurd heq.symm (hold q'' hq'')
    · rw [List.mem_singleton.1 hq', List.mem_singleton.1 hq'']
  · rcases List.mem_append.1 hq' with hq' | hq'
    · rw [Function.update_of_ne (hne q' hq')]
      exact hapart q' hq' x hx hdx (hmem hxp).1 hxg
    · rw [List.mem_singleton.1 hq', Function.update_self]
      rintro rfl
      obtain ⟨nd', hnd'⟩ := Option.isSome_iff_exists.1 hx
      have := h.keeps _ nd' hnd' hdx (hmem hxp).1 hxg
      rw [hfree] at this
      simp at this
  · rw [Tree.names_rename hren hfree hleaf hne', h.lists F' hF' hne' hg', List.filter_filter]
    refine List.filter_congr fun c _ => ?_
    rw [← Bool.decide_and]
    refine decide_eq_decide.2 ?_
    rw [List.mem_append, List.mem_singleton, not_or, and_comm]
  · by_cases hmm : m' = m
    · subst hmm
      refine Or.inl ⟨q, by simp, n, by simp [hqdef], hname⟩
    · have hold : (t.get (d ++ [m'])).isSome := by
        rw [hmoved.get, if_neg (by simpa [eq_comm] using hmm)] at hm'
        split at hm'
        · simp at hm'
        · exact hm'
      exact (h.stands m' hold).imp_left fun ⟨q', hq', hrest⟩ =>
        ⟨q', List.mem_append_left _ hq', hrest⟩

/-- **A folder whose files have all been brought up is removed.** -/
theorem Lifting.remove (h : Lifting conflict d t₀ pre gone t) {e : Name}
    (he : (t₀.get (d ++ [e])).isSome) (hnew : e ∉ gone) (hpre : d ++ [e] ∉ pre)
    (hall : ∀ x ∈ t₀.leaves d, d ++ [e] <+: x → x ∈ pre) (hcut : t.Cut (d ++ [e]) t')
    (hlists : ∀ F, ¬ d ++ [e] <+: F → F ≠ d → t'.names F = t.names F) :
    Lifting conflict d t₀ pre (gone ++ [e]) t' := by
  refine ⟨h.toSpared.shrink he hnew hpre hall fun x hx => by rw [hcut x, if_neg hx],
    fun F hF hne hg => ?_, fun m hm => ?_⟩
  · rw [hlists F (hg e (by simp)) hne]
    exact h.lists F hF hne fun g hg' => hg g (List.mem_append_left _ hg')
  · rw [hcut] at hm
    split at hm
    · simp at hm
    · next hout =>
      refine (h.stands m hm).imp_right fun ⟨hsome, hgone⟩ => ⟨hsome, ?_⟩
      rw [List.mem_append, List.mem_singleton, not_or]
      exact ⟨hgone, fun hme => hout (hme ▸ List.prefix_rfl)⟩

/-! ## What cannot be made up for -/

/-- The nodes below `d` that are no directories. -/
def inside (d : Path) (x : Path) (nd : Node) : Bool := decide (d <+: x) && !nd.isDir

/-- Those of them whose name is no text. -/
def oddName (d : Path) (x : Path) (nd : Node) : Bool :=
  inside d x nd && x.getLast?.any fun n => !Utf8.valid n.val

/-- There are no more files than there were, and no more whose name is no text. -/
def Fewer (d : Path) (t t' : Tree) : Prop :=
  t'.count (inside d) ≤ t.count (inside d) ∧ t'.count (oddName d) ≤ t.count (oddName d)

/-- There are fewer files than there were, or fewer whose name is no text. -/
def Short (d : Path) (t t' : Tree) : Prop :=
  t'.count (inside d) < t.count (inside d) ∨ t'.count (oddName d) < t.count (oddName d)

theorem Fewer.refl (d : Path) (t : Tree) : Fewer d t t := ⟨le_rfl, le_rfl⟩

theorem Fewer.trans {t'' : Tree} (h : Fewer d t t') (h' : Fewer d t' t'') : Fewer d t t'' :=
  ⟨h'.1.trans h.1, h'.2.trans h.2⟩

theorem Short.trans {t'' : Tree} (h : Short d t t') (h' : Fewer d t' t'') : Short d t t'' :=
  h.imp h'.1.trans_lt h'.2.trans_lt

theorem Fewer.short {t'' : Tree} (h : Fewer d t t') (h' : Short d t' t'') : Short d t t'' :=
  h'.imp (fun hlt => hlt.trans_le h.1) (fun hlt => hlt.trans_le h.2)

theorem inside_of_oddName {x : Path} {nd : Node} (h : oddName d x nd = true) :
    inside d x nd = true := by
  rw [oddName, Bool.and_eq_true] at h
  exact h.1

theorem fewer_of_shrinks {p : Path} (h : t.Shrinks p t') : Fewer d t t' :=
  ⟨PathTree.count_le (g := id) (fun x nd hx hP => ⟨nd, h.subset x nd hx, hP⟩) (by simp),
    PathTree.count_le (g := id) (fun x nd hx hP => ⟨nd, h.subset x nd hx, hP⟩) (by simp)⟩

/-- A subtree that is gone with a file in it leaves fewer files. -/
theorem short_of_cut {p x : Path} {nd : Node} (h : t.Cut p t') (hx : t.get x = some nd)
    (hpx : p <+: x) (hin : inside d x nd = true) : Short d t t' := by
  refine Or.inl (PathTree.count_lt (g := id)
    (fun x nd hx hP => ⟨nd, h.shrinks.subset x nd hx, hP⟩) (by simp) hx hin fun y c hy _ heq => ?_)
  rw [id_eq] at heq
  rw [h y, heq, if_pos hpx] at hy
  simp at hy

section Moved

variable {q : Path} {m : Name} {nd : Node} (h : t.Moved q (d ++ [m]) t') (hq : t.get q = some nd)
  (hin : inside d q nd = true) (hm : Utf8.valid m.val = true)

include h hq hin in
/-- What is in the tree after a file was brought up was in it before, at the same place or at that of
the file. -/
theorem moved_origin (x : Path) (c : Node) (hx : t'.get x = some c) :
    x = d ++ [m] ∧ c = nd ∨ x ≠ d ++ [m] ∧ x ≠ q ∧ t.get x = some c := by
  have hfile : nd.isDir = false := by
    rw [inside, Bool.and_eq_true] at hin
    simpa using hin.2
  have hleaf : ∀ r, r ≠ [] → t.get (q ++ r) = none := fun r hr => by
    refine t.get_append_of_not_isBranch ?_ hr
    rw [← Bool.not_eq_true, t.isBranch_iff]
    rintro ⟨nd', hnd', hdir⟩
    rw [← Option.some.inj (hq.symm.trans hnd'), hfile] at hdir
    simp at hdir
  rw [h.get] at hx
  split at hx
  · next hpre =>
    obtain ⟨r, rfl⟩ := hpre
    rw [List.drop_left] at hx
    rcases eq_or_ne r [] with rfl | hr
    · rw [List.append_nil, hq] at hx
      exact Or.inl ⟨List.append_nil _, (Option.some.inj hx).symm⟩
    · rw [hleaf r hr] at hx
      simp at hx
  · next hpre =>
    split at hx
    · simp at hx
    · next hqx =>
      exact Or.inr ⟨fun he => hpre (he ▸ List.prefix_rfl), fun he => hqx (he ▸ List.prefix_rfl), hx⟩

include h hq hin in
theorem moved_inj (x y : Path) (b c : Node) (hx : t'.get x = some b) (hy : t'.get y = some c)
    (hxy : (if x = d ++ [m] then q else x) = if y = d ++ [m] then q else y) : x = y := by
  rcases moved_origin h hq hin x b hx with ⟨rfl, -⟩ | ⟨hne, hxq, -⟩ <;>
    rcases moved_origin h hq hin y c hy with ⟨rfl, -⟩ | ⟨hne', hyq, -⟩
  · rfl
  · rw [if_pos rfl, if_neg hne'] at hxy
    exact absurd hxy.symm hyq
  · rw [if_neg hne, if_pos rfl] at hxy
    exact absurd hxy hxq
  · rwa [if_neg hne, if_neg hne'] at hxy

include h hq hin hm in
/-- A file under a name that is text is one of as many. -/
theorem fewer_of_moved : Fewer d t t' := by
  refine ⟨PathTree.count_le (g := fun x => if x = d ++ [m] then q else x) (fun x c hx hP => ?_)
    (fun x y b c hx _ hy _ => moved_inj h hq hin x y b c hx hy),
    PathTree.count_le (g := id) (fun x c hx hP => ?_) (by simp)⟩
  · rcases moved_origin h hq hin x c hx with ⟨rfl, rfl⟩ | ⟨hne, -, hget⟩
    · exact ⟨c, by simpa using hq, by simpa using hin⟩
    · exact ⟨c, by simpa [hne] using hget, by simpa [hne] using hP⟩
  · rcases moved_origin h hq hin x c hx with ⟨rfl, -⟩ | ⟨-, -, hget⟩
    · simp [oddName, hm] at hP
    · exact ⟨c, hget, hP⟩

include h hq hin hm in
/-- A file whose name was no text is one fewer of them. -/
theorem short_of_moved (hodd : oddName d q nd = true) : Short d t t' := by
  refine Or.inr (PathTree.count_lt (g := id) (fun x c hx hP => ?_) (by simp) hq hodd
    fun x c hx _ heq => ?_)
  · rcases moved_origin h hq hin x c hx with ⟨rfl, -⟩ | ⟨-, -, hget⟩
    · simp [oddName, hm] at hP
    · exact ⟨c, hget, hP⟩
  · rcases moved_origin h hq hin x c hx with ⟨rfl, -⟩ | ⟨-, hne, -⟩
    · have hpre : ¬ d ++ [m] = q := fun he => by
        rw [← he, h.free] at hq
        simp at hq
      exact hpre heq
    · exact hne heq

end Moved

/-- **Where files are missing, not all of them survive.** -/
theorem Short.not_survive (hd : t₀.isBranch d = true) (h : Short d t₀ t) : ¬ Survive d t₀ t := by
  rintro ⟨f, hf, hinj⟩
  have hmem : ∀ {x : Path} {nd : Node}, t₀.get x = some nd → inside d x nd = true →
      x ∈ t₀.leaves d := by
    intro x nd hx hin
    rw [inside, Bool.and_eq_true, decide_eq_true_eq, Bool.not_eq_true'] at hin
    refine t₀.mem_leaves.2 ⟨hin.1, ?_, nd, hx, hin.2⟩
    rintro rfl
    obtain ⟨nd', hnd', hdir⟩ := t₀.isBranch_iff.1 hd
    rw [← Option.some.inj (hx.symm.trans hnd'), hin.2] at hdir
    simp at hdir
  have hto : ∀ x nd, t₀.get x = some nd → inside d x nd = true →
      ∃ nd', t.get (f x) = some nd' ∧ inside d (f x) nd' = true ∧ SameName x (f x) := by
    intro x nd hx hin
    obtain ⟨hdf, hcontent, hname⟩ := hf x (hmem hx hin)
    rw [hx, Option.map_some] at hcontent
    obtain ⟨nd', hnd', hc⟩ := Option.map_eq_some_iff.1 hcontent
    refine ⟨nd', hnd', ?_, hname⟩
    rw [inside, Bool.and_eq_true] at hin ⊢
    refine ⟨by simpa using hdf, ?_⟩
    cases nd <;> cases nd' <;> simp_all [Node.content, Node.isDir]
  have hle : t₀.count (inside d) ≤ t.count (inside d) :=
    PathTree.count_le (g := f) (fun x nd hx hP => by
      obtain ⟨nd', h1, h2, -⟩ := hto x nd hx hP
      exact ⟨nd', h1, h2⟩) fun x y b c hx hP hy hP' => hinj x (hmem hx hP) y (hmem hy hP')
  have hle' : t₀.count (oddName d) ≤ t.count (oddName d) := by
    refine PathTree.count_le (g := f) (fun x nd hx hP => ?_) fun x y b c hx hP hy hP' =>
      hinj x (hmem hx (inside_of_oddName hP)) y (hmem hy (inside_of_oddName hP'))
    obtain ⟨nd', h1, h2, p, n, q, m, rfl, hfx, hname⟩ := hto x nd hx (inside_of_oddName hP)
    refine ⟨nd', h1, ?_⟩
    have hn : Utf8.valid n.val = false := by simpa [oddName, inside_of_oddName hP] using hP
    have hm : Utf8.valid m.val = false := by
      rcases hname with rfl | ⟨i, rfl⟩
      · exact hn
      · exact (valid_numberedBytes n.val i).trans hn
    rw [oddName, h2, hfx]
    simp [hm]
  rcases h with h | h
  · exact absurd hle (not_le.2 h)
  · exact absurd hle' (not_le.2 h)

end Aurade.Ops
