import Aurade.Ops.Effects

/-!
# What a finished copy is

`Mirrors` says of a node and of the node at the same relative path of a copy that they are alike:
the same kind, the same bytes, the same target; for a socket, a fifo or a device there is nothing.
The mode of a directory is the one `mkdir` makes of the source's, and the mode of a file is the
source's.

**`copyNode_spec`**: a copy that ends with `continue` mirrors the whole source (`Mirrored`), and a
copy that was stopped has only finished nodes (`PartlyMirrored`). The byte loop is `copyLoop_spec`; its
invariant is that the output holds as many bytes of the input as were read.

Three things a kernel may or may not grant decide the rest: that a file of one's own takes the mode it
is given (`Kernel.Owns`), that what could be created can be unlinked again (`Kernel.Undoes`), and that
an open file can be read and written (`Kernel.Steady`).
-/

namespace Aurade

namespace Fs.Kernel

/-- A file of one's own takes the mode it is given. -/
def Owns (k : Kernel) : Prop :=
  ∀ c t p m b, t.get p = some (.file m .owner b) → k.refuse c (.chmod p) t = none

/-- A file that could be created can be unlinked again, while nothing else has changed. -/
def Undoes (k : Kernel) : Prop :=
  ∀ c c' t t' p, t.get p = none → k.refuse c (.create p) t = none → t.Touches p t' →
    k.refuse c' (.unlink p) t' = none

/-- Reads and writes of open files do not fail. -/
def Steady (k : Kernel) : Prop :=
  ∀ c t p, k.refuse c (.read p) t = none ∧ k.refuse c (.write p) t = none

theorem read_steady {k : Kernel} {p : Path} {m : ℕ} {u : Who} {b : Bytes} {w : World} (pos len : ℕ)
    (hp : w.fs.get p = some (.file m u b)) :
    (k.read p pos len).wp (fun _ _ => True) (fun _ _ => ¬ k.Steady) w := by
  refine Act.wp_mono (k.query_spec _ _ w) (fun _ _ _ => trivial) ?_
  rintro e w' ⟨-, hr | hf⟩ hsteady
  · simp [(hsteady w.clock w.fs p).1] at hr
  · simp [hp] at hf

theorem write_steady {k : Kernel} {p : Path} {w : World} (new : Bytes)
    (hp : (w.fs.get p).isSome) :
    (k.write p new).wp (fun _ _ => True) (fun _ _ => ¬ k.Steady) w := by
  cases hr : k.refuse w.clock (.write p) w.fs with
  | some e =>
    refine Act.wp_of_error (by simp only [write, hr]; rfl) fun hsteady => ?_
    simp [(hsteady w.clock w.fs p).2] at hr
  | none =>
    obtain ⟨t, ht⟩ := Tree.modify_eq_ok (Node.isDir_append new) hp
    exact Act.wp_of_ok (by simp only [write, hr, ht]; rfl) trivial

theorem change_let {k : Kernel} (op : Op) (f : Tree → Except Errno Tree) (w : World) :
    (k.change op f).wp (fun _ _ => k.refuse w.clock op w.fs = none) (fun _ _ => True) w := by
  cases hr : k.refuse w.clock op w.fs with
  | none => exact Act.wp_mono (Act.wp_run _ _) (fun _ _ _ => rfl) (fun _ _ _ => trivial)
  | some e => exact Act.wp_of_error (change_refused hr) trivial

end Fs.Kernel

namespace Ops

open Fs

variable {k : Kernel} {rep : Reporter} {w : World}

/-! ## One file -/

/-- There is a file of one's own with these bytes at `T`, and with this mode where that could be
set. -/
def Written (k : Kernel) (T : Path) (b : Bytes) (mode : ℕ) (w : World) : Prop :=
  ∃ m, w.fs.get T = some (.file m .owner b) ∧ (k.Owns → m = mode)

theorem finishFile_spec {T : Path} {m : ℕ} {b : Bytes} (st : Stat)
    (hT : w.fs.get T = some (.file m .owner b)) :
    (finishFile k T st).wp (fun _ w' => Written k T b (st.mode &&& 0o7777) w' ∧ w'.job = w.job)
      (fun _ _ => False) w := by
  simp only [finishFile, Act.wp_bind, Act.wp_attempt, Act.wp_pure]
  refine Act.wp_mono (k.change_spec _ _ w) ?_ ?_
  · rintro _ w' ⟨t, h, rfl⟩
    have hx := (Tree.modify_ok h).2 T
    rw [if_pos rfl, hT] at hx
    exact ⟨⟨_, hx, fun _ => rfl⟩, rfl⟩
  · rintro e w' ⟨rfl, hr | hmod⟩
    · exact ⟨⟨m, hT, fun howns => by simp [howns _ _ _ _ _ hT] at hr⟩, rfl⟩
    · obtain ⟨t, ht⟩ := Tree.modify_eq_ok (t := w.fs) (p := T)
        (Node.isDir_setMode (st.mode &&& 0o7777)) (by simp [hT])
      rw [ht] at hmod
      simp at hmod

/-- Unlinking a file fails only where it is refused. -/
theorem removeFile_spec (root : Root) (n : Name) {m : ℕ} {u : Who} {b : Bytes}
    (hT : w.fs.get (root.dir ++ [n]) = some (.file m u b)) :
    (root.remove k n.rel false).wp (fun _ w' => w'.fs.get (root.dir ++ [n]) = none)
      (fun _ w' => w' = w.tick ∧ (k.refuse w.clock (.unlink (root.dir ++ [n])) w.fs).isSome) w := by
  rw [Root.remove, Root.at_rel, Act.wp_mapErr]
  refine Act.wp_mono (k.change_spec _ _ w) ?_ ?_
  · rintro _ w' ⟨t, h, rfl⟩
    have hx := (Tree.remove_ok h).2.2 (root.dir ++ [n])
    rwa [if_pos rfl] at hx
  · rintro e w' ⟨rfl, hr | hrem⟩
    · refine ⟨rfl, ?_⟩
      simp only [Bool.false_eq_true, if_false] at hr
      simp [hr]
    · have hleaf : w.fs.names (root.dir ++ [n]) = [] := by
        refine w.fs.names_eq_nil_iff.2 fun r hr => w.fs.get_append_of_not_isBranch ?_ hr
        rw [← Bool.not_eq_true, w.fs.isBranch_iff]
        simp [hT, Node.isDir]
      obtain ⟨t, ht⟩ := Tree.remove_eq_ok hT hleaf
      rw [show (Node.file m u b).isDir = false from rfl, hrem] at ht
      simp at ht

/-- **The byte loop.** While it runs, the output holds the first `pos` bytes of the input, and there
are more turns left than bytes. -/
theorem copyLoop_spec (input : Path) (dest : Root) (srcName destName : Name) {m m' : ℕ} {u : Who}
    {b : Bytes} {c : ℕ} {t : Tree} (hne : input ≠ dest.dir ++ [destName])
    (hnone : t.get (dest.dir ++ [destName]) = none)
    (hcreate : k.refuse c (.create (dest.dir ++ [destName])) t = none) (turns pos : ℕ) (w : World)
    (htouch : t.Touches (dest.dir ++ [destName]) w.fs)
    (hin : w.fs.get input = some (.file m u b))
    (hout : w.fs.get (dest.dir ++ [destName]) = some (.file m' .owner (b.take pos)))
    (hpos : pos ≤ b.length) (hturns : b.length < pos + turns) :
    (copyLoop k rep input (dest.dir ++ [destName]) dest srcName destName turns pos).wp
      (fun flow w' =>
        (flow = .continue → w'.fs.get (dest.dir ++ [destName]) = some (.file m' .owner b)) ∧
        (flow = .cancel → k.Undoes → w'.fs.get (dest.dir ++ [destName]) = none))
      (fun _ _ => ¬ k.Steady) w := by
  induction turns generalizing pos w with
  | zero => omega
  | succ turns ih =>
    simp only [copyLoop, Act.wp_bind, Act.wp_mapErr, Act.wp_ite, Act.wp_pure]
    refine Act.wp_mono (Act.wp_and (Kernel.read_spec input pos bufferSize w)
      (Kernel.read_steady pos bufferSize hin)) ?_ (fun _ _ h => h.2)
    rintro buf w₁ ⟨⟨rfl, m₁, u₁, b₁, hin₁, rfl⟩, -⟩
    obtain rfl : b = b₁ := by
      rw [hin] at hin₁
      exact (Node.file.inj (Option.some.inj hin₁)).2.2
    set buf := (b.drop pos).take bufferSize with hbuf
    constructor
    · -- nothing is left to read
      intro hnil
      have hlen : buf.length = 0 := by rw [hnil]; rfl
      have hdone : b.length ≤ pos := by
        rw [hbuf, List.length_take, List.length_drop, bufferSize] at hlen
        omega
      refine ⟨fun _ => ?_, fun h => by simp at h⟩
      rw [World.tick_fs, hout, List.take_of_length_le hdone]
    · intro hsome
      have hlen : 0 < buf.length := List.length_pos_iff.2 hsome
      have hle : buf.length ≤ b.length - pos := by
        rw [hbuf, List.length_take, List.length_drop]
        omega
      refine Act.wp_mono (Act.wp_and (k.write_spec (dest.dir ++ [destName]) buf w.tick)
        (Kernel.write_steady buf (by simp [hout]))) ?_ (fun _ _ h => h.2)
      rintro _ w₂ ⟨⟨t₂, rfl, -, hx⟩, -⟩
      have hgrow : b.take pos ++ buf = b.take (pos + buf.length) := by
        have hpre : buf = (b.drop pos).take buf.length := by
          rw [hbuf, List.length_take, List.take_eq_take_min]
        rw [List.take_add, ← hpre]
      have hout₂ : t₂.get (dest.dir ++ [destName]) =
          some (.file m' .owner (b.take (pos + buf.length))) := by
        rw [hx, if_pos rfl, World.tick_fs, hout, ← hgrow]
        rfl
      have htouch₂ : t.Touches (dest.dir ++ [destName]) t₂ := fun x hxne => by
        rw [hx, if_neg hxne, World.tick_fs]
        exact htouch x hxne
      simp only [countBytes, Act.wp_bind, wp_setProgress, wp_setOut, wp_report]
      split
      · -- stopped: the half written file goes
        simp only [Act.wp_bind, Act.wp_attempt, Act.wp_pure]
        refine Act.wp_mono (removeFile_spec dest destName hout₂) ?_ ?_
        · exact fun _ w' h => ⟨fun h => by simp at h, fun _ _ => h⟩
        · rintro _ w' ⟨rfl, hr⟩
          refine ⟨fun h => by simp at h, fun _ hundo => ?_⟩
          simp [hundo c _ t _ _ hnone hcreate htouch₂] at hr
      · refine ih (pos + buf.length) _ htouch₂ ?_ hout₂ (by omega) (by omega)
        exact (hx input).trans ((if_neg hne).trans hin)

theorem createFile_let (root : Root) (n : Name) (mode : ℕ) (w : World) :
    (root.createFile k n.rel mode true).wp
      (fun _ _ => k.refuse w.clock (.create (root.dir ++ [n])) w.fs = none) (fun _ _ => True) w := by
  simp only [Root.createFile, Root.parentOf_rel, pure_bind, if_true, Act.wp_bind, Act.wp_mapErr,
    Act.wp_pure]
  exact Kernel.change_let _ _ w

/-- What one copied file is: finished when the copy goes on, and when it was stopped finished or
gone. -/
theorem copyFile_spec (srcRoot : Root) (srcName : Name) (dest : Root) (destName : Name) {m : ℕ}
    {u : Who} {b : Bytes} (hne : srcRoot.dir ++ [srcName] ≠ dest.dir ++ [destName])
    (hin : w.fs.get (srcRoot.dir ++ [srcName]) = some (.file m u b)) :
    (copyFile k rep srcRoot srcName dest destName (Node.file m u b).stat).wp
      (fun flow w' =>
        (flow = .continue → Written k (dest.dir ++ [destName]) b (m &&& 0o7777) w') ∧
        (k.Undoes → w'.fs.get (dest.dir ++ [destName]) = none ∨
          Written k (dest.dir ++ [destName]) b (m &&& 0o7777) w'))
      (fun _ w' => k.Steady → w'.fs = w.fs) w := by
  simp only [copyFile, Act.wp_bind, Act.wp_attempt]
  refine Act.wp_mono (Root.openFile_spec srcRoot srcName w) ?_ (fun _ _ h _ => by rw [h]; rfl)
  rintro input w₁ ⟨rfl, rfl, -⟩
  refine Act.wp_mono (Act.wp_and (Root.createFile_spec dest destName _ w.tick)
    (createFile_let dest destName _ w.tick)) ?_ (fun _ _ h _ => by rw [h.1]; rfl)
  rintro output w₂ ⟨⟨rfl, t, rfl, -, hnone, hx⟩, hcreate⟩
  set T := dest.dir ++ [destName] with hT
  set mode := k.fileMode ((Node.file m u b).stat.mode &&& 0o7777) with hmode
  have hout : t.get T = some (.file mode .owner []) := (hx T).trans (if_pos rfl)
  have hin₂ : t.get (srcRoot.dir ++ [srcName]) = some (.file m u b) :=
    (hx _).trans ((if_neg hne).trans hin)
  have htouch : w.fs.Touches T t := Tree.touches_of_ite hx
  refine Act.wp_mono (Kernel.clone_spec _ T _) ?_ ?_
  · -- the clone took
    rintro _ w₃ ⟨t₃, m₃, u₃, b₃, rfl, hin₃, hx₃⟩
    obtain rfl : b = b₃ := by
      rw [World.turn_fs, hin₂] at hin₃
      exact (Node.file.inj (Option.some.inj hin₃)).2.2
    have hout₃ : t₃.get T = some (.file mode .owner b) := by
      rw [hx₃, if_pos rfl, World.turn_fs, hout]
      rfl
    simp only [Act.wp_bind, countBytes, wp_setProgress, wp_setOut, wp_report]
    refine Act.wp_mono (finishFile_spec _ hout₃) (fun _ w₄ h₄ => ?_) (fun _ _ h => h.elim)
    exact ⟨fun _ => h₄.1, fun _ => Or.inr h₄.1⟩
  · rintro _ w₃ rfl
    simp only [Act.wp_bind, Act.wp_ite, Act.wp_pure]
    refine Act.wp_mono (copyLoop_spec _ dest srcName destName hne hnone hcreate _ 0 _ htouch hin₂
      hout (Nat.zero_le _) (by simp [Node.stat])) (fun flow w₄ h₄ => ?_)
      (fun _ _ h hsteady => absurd hsteady h)
    refine ⟨fun hc => ⟨fun h => by simp at h, fun hundo => Or.inl (h₄.2 hc hundo)⟩, fun hc => ?_⟩
    refine Act.wp_mono (finishFile_spec _ (h₄.1 (eq_continue hc))) (fun _ w₅ h₅ => ?_) (fun _ _ h => h.elim)
    exact ⟨fun _ => h₅.1, fun _ => Or.inr h₅.1⟩

/-! ## A whole tree -/

/-- A node, and the node at its place in a copy. -/
inductive Mirrors (k : Kernel) : Option Node → Option Node → Prop
  | nothing : Mirrors k none none
  | special (kind : Special) : Mirrors k (some (.special kind)) none
  | symlink (target : Bytes) : Mirrors k (some (.symlink target)) (some (.symlink target))
  | dir (m : ℕ) (u : Who) :
      Mirrors k (some (.dir m u)) (some (.dir (k.dirMode (m &&& 0o7777)) .owner))
  | file (m m' : ℕ) (u : Who) (b : Bytes) (hm : k.Owns → m' = m &&& 0o7777) :
      Mirrors k (some (.file m u b)) (some (.file m' .owner b))

/-- There is no socket, fifo or device at or below `S`. -/
def NoSpecial (S : Path) (t : Tree) : Prop := ∀ r kind, t.get (S ++ r) ≠ some (.special kind)

/-- The subtree of `t'` at `T` is a finished copy of that of `t` at `S`. -/
def Mirrored (k : Kernel) (S T : Path) (t t' : Tree) : Prop :=
  ∀ r, Mirrors k (t.get (S ++ r)) (t'.get (T ++ r))

/-- Whatever the subtree of `t'` at `T` has is a finished copy of what that of `t` at `S` has. -/
def PartlyMirrored (k : Kernel) (S T : Path) (t t' : Tree) : Prop :=
  ∀ r, t'.get (T ++ r) = none ∨ Mirrors k (t.get (S ++ r)) (t'.get (T ++ r))

theorem Mirrored.partly {S T : Path} {t t' : Tree} (h : Mirrored k S T t t') :
    PartlyMirrored k S T t t' := fun r => Or.inr (h r)

theorem PartlyMirrored.of_none {S T : Path} {t t' : Tree} (h : t'.get T = none) :
    PartlyMirrored k S T t t' := fun r => Or.inl (t'.get_append_of_none h r)

/-- A node with nothing below it, mirrored at its place. -/
theorem Mirrored.of_leaf {S T : Path} {t t' : Tree} {nd : Node} (hS : t.get S = some nd)
    (hd : nd.isDir = false) (hT : Mirrors k (some nd) (t'.get T))
    (hbelow : ∀ nd', t'.get T = some nd' → nd'.isDir = false) : Mirrored k S T t t' := by
  intro r
  rcases eq_or_ne r [] with rfl | hr
  · rw [List.append_nil, List.append_nil, hS]
    exact hT
  · have hnone : ∀ {u : Tree} {p : Path}, (∀ nd', u.get p = some nd' → nd'.isDir = false) →
        u.get (p ++ r) = none := by
      intro u p hp
      refine u.get_append_of_not_isBranch ?_ hr
      rw [← Bool.not_eq_true, u.isBranch_iff]
      rintro ⟨nd', hnd', hdir⟩
      simp [hp nd' hnd'] at hdir
    rw [hnone (p := S) (fun nd' h => by rw [hS] at h; rw [← Option.some.inj h, hd]), hnone hbelow]
    exact .nothing

/-- Neither place is at or below the other. -/
def Apart (S T : Path) : Prop := ¬ S <+: T ∧ ¬ T <+: S

theorem Apart.child {S T : Path} (h : Apart S T) (c c' : Name) : Apart (S ++ [c]) (T ++ [c']) := by
  have hstep : ∀ {S T : Path} {c c' : Name}, Apart S T → ¬ S ++ [c] <+: T ++ [c'] := by
    intro S T c c' h hpre
    rcases List.prefix_concat_iff.1 hpre with heq | hpre
    · exact h.1 ((List.append_inj' heq rfl).1 ▸ List.prefix_rfl)
    · exact h.1 ((List.prefix_append S [c]).trans hpre)
  exact ⟨hstep h, hstep ⟨h.2, h.1⟩⟩

theorem Apart.not_below {S T : Path} (h : Apart S T) (r : Path) : ¬ T <+: S ++ r := fun hpre => by
  rcases List.prefix_or_prefix_of_prefix hpre (List.prefix_append S r) with hTS | hST
  · exact h.2 hTS
  · exact h.1 hST

theorem Apart.ne {S T : Path} (h : Apart S T) : S ≠ T := fun he => h.1 (he ▸ List.prefix_rfl)

/-- A free name in a directory outside the source is apart from it. -/
theorem Apart.of_free {S d : Path} {n : Name} {t : Tree} (hS : (t.get S).isSome)
    (hfree : t.get (d ++ [n]) = none) (hout : ¬ S <+: d) : Apart S (d ++ [n]) := by
  refine ⟨fun hpre => ?_, fun hpre => ?_⟩
  · rcases List.prefix_concat_iff.1 hpre with heq | hpre
    · rw [heq, hfree] at hS
      simp at hS
    · exact hout hpre
  · rw [t.get_of_prefix_of_none hfree hpre] at hS
    simp at hS

/-- Where the loop over the children of a directory has got to: the directory is there, the children
to come are not, and the others are mirrored. -/
structure Copying (k : Kernel) (S T : Path) (mode : ℕ) (t : Tree) (rest : List Name)
    (t' : Tree) : Prop where
  nodup : rest.Nodup
  grows : t.Grows T t'
  top : t'.get T = some (.dir mode .owner)
  todo : ∀ c ∈ rest, t'.get (T ++ [c]) = none
  done : ∀ c, c ∉ rest → Mirrored k (S ++ [c]) (T ++ [c]) t t'

/-- Before the first child: the directory was made under a free name, and the children are those of
the source. -/
theorem Copying.start {S T : Path} {mode : ℕ} {t t' : Tree} (hapart : Apart S T)
    (hfree : t.get T = none)
    (hx : ∀ x, t'.get x = if x = T then some (.dir mode .owner) else t.get x) :
    Copying k S T mode t (t'.names S) t' where
  nodup := t'.nodup_names S
  grows := Tree.Grows.of_touches (Tree.touches_of_ite hx) hfree
  top := (hx T).trans (if_pos rfl)
  todo c _ := by
    rw [hx, if_neg (by simp)]
    exact t.get_append_of_none hfree [c]
  done c hc r := by
    have hS : t.get (S ++ [c]) = none := by
      have hne : S ++ [c] ≠ T := fun he => hapart.not_below [c] (by rw [he])
      rw [t'.mem_names, hx, if_neg hne] at hc
      simpa using hc
    rw [t.get_append_of_none hS, hx, if_neg (by simp), List.append_assoc,
      t.get_append_of_none hfree]
    exact .nothing

/-- At every moment what is there is finished. -/
theorem Copying.partly {S T : Path} {m : ℕ} {u : Who} {t t' : Tree} {rest : List Name}
    (h : Copying k S T (k.dirMode (m &&& 0o7777)) t rest t') (hS : t.get S = some (.dir m u)) :
    PartlyMirrored k S T t t' := by
  rintro (_ | ⟨c, r⟩)
  · rw [List.append_nil, List.append_nil, hS, h.top]
    exact Or.inr (.dir m u)
  · have hcons : ∀ p : Path, p ++ c :: r = p ++ [c] ++ r := fun p => by simp
    rw [hcons, hcons]
    by_cases hc : c ∈ rest
    · exact Or.inl (t'.get_append_of_none (h.todo c hc) r)
    · exact Or.inr (h.done c hc r)

/-- After the last child the directory is mirrored. -/
theorem Copying.mirrored {S T : Path} {m : ℕ} {u : Who} {t t' : Tree}
    (h : Copying k S T (k.dirMode (m &&& 0o7777)) t [] t') (hS : t.get S = some (.dir m u)) :
    Mirrored k S T t t' := by
  rintro (_ | ⟨c, r⟩)
  · rw [List.append_nil, List.append_nil, hS, h.top]
    exact .dir m u
  · simpa using h.done c (by simp) r

/-- One child was copied: the loop has got one child further, or has stopped with finished nodes
only. -/
theorem Copying.next {S T : Path} {m : ℕ} {u : Who} {t t' t'' : Tree} {c : Name} {rest : List Name}
    (h : Copying k S T (k.dirMode (m &&& 0o7777)) t (c :: rest) t')
    (hS : t.get S = some (.dir m u)) (hapart : Apart S T) (hadds : t'.Grows (T ++ [c]) t'') :
    (Mirrored k (S ++ [c]) (T ++ [c]) t' t'' →
      Copying k S T (k.dirMode (m &&& 0o7777)) t rest t'') ∧
    (PartlyMirrored k (S ++ [c]) (T ++ [c]) t' t'' → PartlyMirrored k S T t t'') := by
  have hsrc : ∀ r, t'.get (S ++ r) = t.get (S ++ r) := fun r =>
    h.grows.outside _ (hapart.not_below r)
  have hother : ∀ c' r, c' ≠ c → t''.get (T ++ [c'] ++ r) = t'.get (T ++ [c'] ++ r) := by
    intro c' r hc'
    refine hadds.outside _ fun hpre => hc' ?_
    rw [List.append_assoc, List.prefix_append_right_inj, List.singleton_append,
      List.cons_prefix_cons] at hpre
    exact hpre.1.symm
  have hnodup := List.nodup_cons.1 h.nodup
  have hdone : ∀ c', c' ≠ c → c' ∉ rest → Mirrored k (S ++ [c']) (T ++ [c']) t t'' := by
    intro c' hc' hrest r
    rw [hother c' r hc']
    exact h.done c' (by simp [hc', hrest]) r
  have htodo : ∀ c' ∈ rest, t''.get (T ++ [c']) = none := by
    intro c' hc'
    have hne : c' ≠ c := fun he => hnodup.1 (he ▸ hc')
    have := hother c' [] hne
    rw [List.append_nil] at this
    rw [this]
    exact h.todo c' (List.mem_cons_of_mem _ hc')
  have hsrc' : ∀ r, t'.get (S ++ [c] ++ r) = t.get (S ++ [c] ++ r) := fun r => by
    rw [List.append_assoc]
    exact hsrc _
  refine ⟨fun hm => ⟨hnodup.2, h.grows.trans (hadds.mono (List.prefix_append _ _)), ?_, htodo, ?_⟩,
    fun hp => ?_⟩
  · exact hadds.keeps _ _ h.top
  · intro c' hc'
    by_cases hcc : c' = c
    · subst hcc
      intro r
      rw [← hsrc' r]
      exact hm r
    · exact hdone c' hcc hc'
  · rintro (_ | ⟨c', r⟩)
    · rw [List.append_nil, List.append_nil, hS, hadds.keeps _ _ h.top]
      exact Or.inr (.dir m u)
    · have hcons : ∀ p : Path, p ++ c' :: r = p ++ [c'] ++ r := fun p => by simp
      rw [hcons, hcons]
      by_cases hcc : c' = c
      · subst hcc
        rw [← hsrc' r]
        exact hp r
      · by_cases hrest : c' ∈ rest
        · exact Or.inl (t''.get_append_of_none (htodo c' hrest) r)
        · exact Or.inr (hdone c' hcc hrest r)

/-- **A copy that ends well mirrors its source, and one that was stopped or failed has finished nodes
only**, when its place was free and neither place is below the other. -/
theorem copyNode_spec (depth : ℕ) (srcRoot : Root) (srcName : Name) (dest : Root)
    (destName : Name) (hapart : Apart (srcRoot.dir ++ [srcName]) (dest.dir ++ [destName]))
    (hfree : w.fs.get (dest.dir ++ [destName]) = none) :
    (copyNode k rep depth srcRoot srcName dest destName).wp
      (fun flow w' =>
        (flow = .continue →
          Mirrored k (srcRoot.dir ++ [srcName]) (dest.dir ++ [destName]) w.fs w'.fs) ∧
        (k.Undoes →
          PartlyMirrored k (srcRoot.dir ++ [srcName]) (dest.dir ++ [destName]) w.fs w'.fs))
      (fun _ w' => k.Undoes → k.Steady →
        PartlyMirrored k (srcRoot.dir ++ [srcName]) (dest.dir ++ [destName]) w.fs w'.fs) w := by
  induction depth generalizing srcRoot srcName dest destName w with
  | zero => exact fun _ _ => .of_none hfree
  | succ depth ih =>
    set S := srcRoot.dir ++ [srcName] with hSdef
    set T := dest.dir ++ [destName] with hTdef
    -- a failed call has not touched the tree
    have hnone : ∀ {w' : World}, w'.fs = w.fs → PartlyMirrored k S T w.fs w'.fs := fun hfs =>
      .of_none (by rw [hfs, hfree])
    simp only [copyNode, Act.wp_bind, wp_setProgress]
    refine Act.wp_mono (Root.metadata_spec srcRoot srcName w) ?_
      (fun _ _ h _ _ => hnone (by rw [h.1]; rfl))
    rintro st w₁ ⟨rfl, nd, hnd, rfl⟩
    cases nd with
    | special kind =>
      simp only [Node.stat, Act.wp_bind, wp_setProgress, Act.wp_pure]
      have hm : Mirrored k S T w.fs w.fs :=
        .of_leaf hnd rfl (by rw [hfree]; exact .special kind) (by simp [hfree])
      exact ⟨fun _ => hm, fun _ => hm.partly⟩
    | symlink target =>
      simp only [Node.stat, Root.parentOf_rel, pure_bind, Act.wp_bind, Act.wp_mapErr, countItem,
        wp_setProgress, wp_setOut, wp_report]
      refine Act.wp_mono (Kernel.readlink_spec _ _ _) ?_ (fun _ _ h _ _ => hnone (by rw [h]; rfl))
      rintro target' w₂ ⟨rfl, hlink⟩
      obtain rfl : target = target' := by
        rw [← hSdef] at hlink
        exact Node.symlink.inj (Option.some.inj (hnd.symm.trans hlink))
      refine Act.wp_mono (Root.symlink_spec dest destName target _) ?_
        (fun _ _ h _ _ => hnone (by rw [h]; rfl))
      rintro _ w₃ ⟨t, rfl, -, -, hx⟩
      have hT : t.get T = some (.symlink target) := (hx T).trans (if_pos rfl)
      have hm : Mirrored k S T w.fs t :=
        .of_leaf hnd rfl (by rw [hT]; exact .symlink target) (by simp [hT, Node.isDir])
      exact ⟨fun _ => hm, fun _ => hm.partly⟩
    | file m u b =>
      have hin : (World.tick w).fs.get S = some (.file m u b) := hnd
      have hwritten : ∀ {w' : World}, Written k T b (m &&& 0o7777) w' →
          Mirrored k S T w.fs w'.fs := by
        rintro w' ⟨m', hT, hm'⟩
        exact .of_leaf hnd rfl (by rw [hT]; exact .file m m' u b hm') (by simp [hT, Node.isDir])
      simp only [Node.stat, Act.wp_bind, countItem, wp_setProgress, wp_setOut, Act.wp_ite,
        Act.wp_pure, wp_report]
      refine Act.wp_mono (copyFile_spec srcRoot srcName dest destName hapart.ne (by exact hin)) ?_
        (fun _ _ h _ hsteady => hnone (h hsteady))
      rintro flow w₂ ⟨hgo, hstop⟩
      have hpartly : k.Undoes → PartlyMirrored k S T w.fs w₂.fs := fun hundo =>
        (hstop hundo).elim PartlyMirrored.of_none fun h => (hwritten h).partly
      refine ⟨fun hc => ⟨fun h => by simp at h, hpartly⟩, fun hc => ?_⟩
      exact ⟨fun _ => hwritten (hgo (eq_continue hc)), hpartly⟩
    | dir m u =>
      simp only [Node.stat, Act.wp_bind, countItem, wp_setProgress, wp_setOut, Act.wp_ite,
        Act.wp_pure, wp_report]
      refine Act.wp_mono (Root.mkdir_spec dest destName _ true _) ?_
        (fun _ _ h _ _ => hnone (by rw [h]; rfl))
      rintro _ w₂ hmade
      replace hmade : Copying k S T (k.dirMode (m &&& 0o7777)) w.fs (w₂.fs.names S) w₂.fs ∨
          w₂.fs = w.fs := by
        rcases hmade with ⟨t, rfl, -, -, hx⟩ | ⟨-, rfl, -⟩
        · exact Or.inl (.start hapart hfree hx)
        · exact Or.inr rfl
      -- before the first child
      have hfirst : PartlyMirrored k S T w.fs w₂.fs := hmade.elim (fun hc => hc.partly hnd) hnone
      refine ⟨fun _ => ⟨fun h => by simp at h, fun _ => hfirst⟩, fun _ => ?_⟩
      refine Act.wp_mono (Root.sub_spec srcRoot srcName _) ?_ (fun _ _ h _ _ => by rw [h]; exact hfirst)
      rintro subSrc w₃ ⟨rfl, rfl, -⟩
      refine Act.wp_mono (Root.sub_spec dest destName _) ?_ (fun _ _ h _ _ => by rw [h]; exact hfirst)
      rintro subDest w₃ ⟨rfl, rfl, hbranch⟩
      have hc : Copying k S T (k.dirMode (m &&& 0o7777)) w.fs (w₂.fs.names S) w₂.fs := by
        refine hmade.resolve_right fun hfs => ?_
        have := w₂.fs.isSome_of_isBranch hbranch
        rw [← hTdef, hfs, hfree] at this
        simp at this
      refine Act.wp_mono (Root.readDir_spec _ _) ?_ (fun _ _ h _ _ => by rw [h]; exact hfirst)
      rintro children w₃ ⟨rfl, -, rfl⟩
      refine Act.each_wp (fun rest w' => Copying k S T (k.dirMode (m &&& 0o7777)) w.fs rest w'.fs) ?_
        (fun c rest w' h => ?_) (w₂.fs.names S) _ hc
      · exact fun w' h => ⟨fun _ => h.mirrored hnd, fun _ => h.partly hnd⟩
      have hchild := ih ⟨S, srcRoot.path ++ srcName.rel⟩ c ⟨T, dest.path ++ destName.rel⟩ c
        (hapart.child c c) (h.todo c List.mem_cons_self)
      refine Act.wp_mono (Act.wp_and ((copyNode_adds _ _ _ _ _).wp w') hchild) ?_
        (fun _ _ hboth hundo hsteady =>
          (h.next hnd hapart hboth.1).2 (hboth.2 hundo hsteady))
      rintro flow w'' ⟨hadds, hgo, hstop⟩
      obtain ⟨hnext, hpartly⟩ := h.next hnd hapart hadds
      split
      · next hflow => exact hnext (hgo hflow)
      · next hflow => exact ⟨fun h => absurd h hflow, fun hundo => hpartly (hstop hundo)⟩

/-- **A folder cannot be copied to the end into itself**: one of its children is always the folder
that leads to the copy, down to the last descriptor. -/
theorem copyNode_inside (depth : ℕ) (srcRoot : Root) (srcName : Name) (dest : Root)
    (destName : Name) (hin : srcRoot.dir ++ [srcName] <+: dest.dir)
    (hdest : w.fs.isBranch dest.dir = true) :
    (copyNode k rep depth srcRoot srcName dest destName).wp (fun flow _ => flow = .cancel)
      (fun _ _ => True) w := by
  induction depth generalizing srcRoot srcName dest destName w with
  | zero => trivial
  | succ depth ih =>
    obtain ⟨r, hr⟩ := hin
    have hS : w.fs.isBranch (srcRoot.dir ++ [srcName]) = true := by
      rcases eq_or_ne r [] with rfl | hne
      · rwa [← hr, List.append_nil] at hdest
      · exact w.fs.isBranch_of_append hne (hr ▸ w.fs.isSome_of_isBranch hdest)
    simp only [copyNode, Act.wp_bind, wp_setProgress]
    refine Act.wp_mono (Root.metadata_spec srcRoot srcName w) ?_ (fun _ _ _ => trivial)
    rintro st w₁ ⟨rfl, nd, hnd, rfl⟩
    obtain ⟨nd', hnd', hdir⟩ := w.fs.isBranch_iff.1 hS
    obtain rfl : nd = nd' := Option.some.inj (hnd.symm.trans hnd')
    cases nd with
    | special kind => simp [Node.isDir] at hdir
    | symlink target => simp [Node.isDir] at hdir
    | file m u b => simp [Node.isDir] at hdir
    | dir m u =>
      simp only [Node.stat, Act.wp_bind, countItem, wp_setProgress, wp_setOut, Act.wp_ite,
        Act.wp_pure, wp_report]
      refine Act.wp_mono (Act.wp_run _ _) (fun _ w₂ _ => ?_) (fun _ _ _ => trivial)
      refine ⟨fun _ => trivial, fun _ => ?_⟩
      refine Act.wp_mono (Root.sub_spec srcRoot srcName _) ?_ (fun _ _ _ => trivial)
      rintro subSrc w₃ ⟨rfl, rfl, -⟩
      refine Act.wp_mono (Root.sub_spec dest destName _) ?_ (fun _ _ _ => trivial)
      rintro subDest w₃ ⟨rfl, rfl, hbranch⟩
      refine Act.wp_mono (Root.readDir_spec _ _) ?_ (fun _ _ _ => trivial)
      rintro children w₃ ⟨rfl, -, rfl⟩
      -- the child that leads to the copy
      obtain ⟨c, r', hc⟩ : ∃ c r', r ++ [destName] = c :: r' :=
        List.exists_cons_of_ne_nil (by simp)
      have hT : dest.dir ++ [destName] = srcRoot.dir ++ [srcName] ++ [c] ++ r' := by
        rw [← hr, List.append_assoc _ r, hc]
        simp
      have hmem : c ∈ w₂.fs.names (srcRoot.dir ++ [srcName]) := by
        refine w₂.fs.mem_names.2 (w₂.fs.isSome_of_append (r := r') ?_)
        rw [← hT]
        exact w₂.fs.isSome_of_isBranch hbranch
      refine Act.each_wp
        (fun rest w' => c ∈ rest ∧ w'.fs.isBranch (dest.dir ++ [destName]) = true) ?_
        (fun x rest w' h => ?_) (w₂.fs.names (srcRoot.dir ++ [srcName])) _ ⟨hmem, hbranch⟩
      · exact fun w' h => by simp at h
      by_cases hx : x = c
      · subst hx
        refine Act.wp_mono (ih _ _ _ _ ⟨r', ?_⟩ h.2) (fun flow w'' hflow => ?_)
          (fun _ _ _ => trivial)
        · exact hT.symm
        · rw [if_neg (by simp [hflow])]
          exact hflow
      · refine Act.wp_mono ((copyNode_adds _ _ _ _ _).wp w') (fun flow w'' hadds => ?_)
          (fun _ _ _ => trivial)
        split
        · refine ⟨(List.mem_cons.1 h.1).resolve_left fun he => hx he.symm, ?_⟩
          obtain ⟨nd, hnd, hd⟩ := w'.fs.isBranch_iff.1 h.2
          exact w''.fs.isBranch_iff.2 ⟨nd, hadds.keeps _ _ hnd, hd⟩
        · next hflow => exact eq_cancel hflow

end Ops

end Aurade
