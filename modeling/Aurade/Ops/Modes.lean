import Aurade.Fs.Permissions
import Aurade.Ops.Copied

/-!
# Copying under the modes

A copy under `Kernel.byModes`, where nothing fails but what the modes refuse. `mkdir` gives a new
directory the mode of its source, less the mask and the set-id bits, and gives it before the
children are written: whether the children can be written depends on the mode itself.

`CopyWorks` is what the directories of a source need for the copy to come to its end.
**`copyNode_modes`** is exact: the copy ends well when they have it, and fails when they do not. Its
loop carries `Working`: what is copied so far could be copied.
-/

namespace Aurade.Ops

open Fs Fs.Kernel

variable {umask levels : ℕ} {crosses clones : Path → Path → Bool} {rep : Reporter} {w : World}

/-! ## Calls under the modes -/

theorem owns_byModes : (byModes umask levels crosses clones).Owns := by
  intro c t p m b h
  simp [allows, h]

theorem undoes_byModes : (byModes umask levels crosses clones).Undoes := by
  intro c c' t t' p hnone hcreate htouch
  rw [byModes_refuse_eq_none] at hcreate ⊢
  simp only [allows, hnone] at hcreate ⊢
  rcases List.eq_nil_or_concat p with rfl | ⟨q, n, rfl⟩
  · rfl
  · rw [List.concat_eq_append, mayIn_concat] at hcreate ⊢
    rw [Tree.may, htouch q (by simp)]
    simpa [Tree.may] using hcreate

theorem honest_byModes : (byModes umask levels crosses clones).Honest := by
  rintro t p ⟨c, hstat⟩ c' q
  rw [← Option.ne_none_iff_isSome, ne_eq, byModes_refuse_eq_none] at hstat ⊢
  intro hren
  simp only [allows, Bool.and_eq_true] at hren hstat
  rcases List.eq_nil_or_concat p with rfl | ⟨d, n, rfl⟩
  · simp [Tree.mayIn] at hstat
  · rw [List.concat_eq_append, mayIn_concat] at hren hstat
    exact hstat (tree_may_mono (by decide) hren.2)

section Calls

/-- Under the modes a change is made exactly when it is allowed and can be made. -/
theorem change_byModes (op : Op) (f : Tree → Except Errno Tree) (w : World) :
    ((byModes umask levels crosses clones).change op f).wp
      (fun _ w' => allows w.fs op = true ∧ ∃ t, f w.fs = .ok t ∧ w' = w.turn t)
      (fun e w' => w' = w.tick ∧
        (allows w.fs op = false ∧ e = .acces ∨ f w.fs = .error e)) w := by
  refine Act.wp_mono (Act.wp_and (change_let op f w) (change_spec _ op f w)) ?_ ?_
  · rintro _ w' ⟨hlet, t, ht, rfl⟩
    exact ⟨byModes_refuse_eq_none.1 hlet, t, ht, rfl⟩
  · rintro e w' ⟨-, rfl, hr | hf⟩
    · refine ⟨rfl, Or.inl ?_⟩
      simp only [byModes] at hr
      split at hr
      · simp at hr
      · next h => exact ⟨by simpa using h, (Option.some.inj hr).symm⟩
    · exact ⟨rfl, Or.inr hf⟩

theorem query_byModes {α : Type} (op : Op) (f : Tree → Except Errno α) (w : World) :
    ((byModes umask levels crosses clones).query op f).wp
      (fun a w' => allows w.fs op = true ∧ f w.fs = .ok a ∧ w' = w.tick)
      (fun _ _ => ¬ (allows w.fs op = true ∧ ∃ a, f w.fs = .ok a)) w := by
  cases hr : (byModes umask levels crosses clones).refuse w.clock op w.fs with
  | some e =>
    refine Act.wp_of_error (query_refused hr) fun h => ?_
    rw [byModes_refuse_eq_none.2 h.1] at hr
    simp at hr
  | none =>
    have hallow := byModes_refuse_eq_none.1 hr
    have hrun := query_run (f := f) hr
    cases hf : f w.fs with
    | ok a => exact Act.wp_of_ok (hf ▸ hrun) ⟨hallow, rfl, rfl⟩
    | error e => exact Act.wp_of_error (hf ▸ hrun) fun h => by simp at h

theorem metadata_modes (root : Root) (n : Name) {nd : Node}
    (hnd : w.fs.get (root.dir ++ [n]) = some nd) (hsearch : w.fs.may root.dir 1 = true) :
    (root.metadata (byModes umask levels crosses clones) n.rel).wp
      (fun st w' => st = nd.stat ∧ w' = w.tick) (fun _ _ => False) w := by
  rw [Root.metadata, Root.at_rel, Act.wp_mapErr]
  refine Act.wp_mono (query_byModes _ _ w) ?_ (fun e w' h => h ⟨?_, nd.stat, ?_⟩)
  · rintro st w' ⟨-, hst, rfl⟩
    obtain ⟨nd', hnd', rfl⟩ := Act.except_map_eq_ok.1 hst
    rw [node_ok_iff, hnd] at hnd'
    exact ⟨by rw [Option.some.inj hnd'], rfl⟩
  · rwa [allows, mayIn_concat]
  · exact Act.except_map_eq_ok.2 ⟨nd, node_ok_iff.2 hnd, rfl⟩

/-- A directory is opened exactly when it may be reached and read. -/
theorem sub_modes (root : Root) (n : Name) (hdir : w.fs.isBranch (root.dir ++ [n]) = true)
    (hsearch : w.fs.may root.dir 1 = true) :
    (root.sub (byModes umask levels crosses clones) n.rel).wp
      (fun sub w' => sub = ⟨root.dir ++ [n], root.path ++ n.rel⟩ ∧ w' = w.tick ∧
        w.fs.may (root.dir ++ [n]) 4 = true)
      (fun _ _ => ¬ w.fs.may (root.dir ++ [n]) 4 = true) w := by
  simp only [Root.sub, Root.parentOf_rel, pure_bind, Act.wp_bind, Act.wp_mapErr, Act.wp_pure]
  obtain ⟨nd, hnd, hd⟩ := w.fs.isBranch_iff.1 hdir
  refine Act.wp_mono (query_byModes _ _ w) ?_ (fun e w' h hmay => h ⟨?_, (), ?_⟩)
  · rintro _ w' ⟨hallow, -, rfl⟩
    simp only [allows, Bool.and_eq_true] at hallow
    exact ⟨trivial, rfl, hallow.2⟩
  · rw [allows, mayIn_concat, hsearch, hmay]
    rfl
  · exact Act.except_bind_eq_ok.2 ⟨nd, node_ok_iff.2 hnd, by rw [if_pos hd]; rfl⟩

theorem readDir_modes (root : Root) (hdir : w.fs.isBranch root.dir = true)
    (hmay : w.fs.may root.dir 5 = true) :
    (root.readDir (byModes umask levels crosses clones)).wp
      (fun ns w' => ns = w.fs.names root.dir ∧ w' = w.tick) (fun _ _ => False) w := by
  rw [Root.readDir, Act.wp_mapErr]
  refine Act.wp_mono (query_byModes _ _ w) ?_ (fun e w' h => h ⟨hmay, _, if_pos hdir⟩)
  rintro ns w' ⟨-, hns, rfl⟩
  rw [if_pos hdir] at hns
  exact ⟨(Except.ok.inj hns).symm, rfl⟩

/-- A new node under a free name is made exactly when its directory may be written. -/
theorem add_modes (op : Path → Op) (hop : op = .create ∨ op = .mkdir ∨ op = .symlink) (p : Path)
    (n : Name) (nd : Node) (hdir : w.fs.isBranch p = true) (hfree : w.fs.get (p ++ [n]) = none) :
    ((byModes umask levels crosses clones).change (op (p ++ [n])) fun t => t.add p n nd).wp
      (fun _ w' => w.fs.may p 3 = true ∧ ∃ t, w' = w.turn t ∧
        ∀ x, t.get x = if x = p ++ [n] then some nd else w.fs.get x)
      (fun e w' => w' = w.tick ∧ ¬ w.fs.may p 3 = true ∧ e = .acces) w := by
  have hallow : allows w.fs (op (p ++ [n])) = w.fs.may p 3 := by
    rcases hop with rfl | rfl | rfl <;> simp [allows, hfree, mayIn_concat]
  refine Act.wp_mono (change_byModes _ _ w) ?_ ?_
  · rintro _ w' ⟨h, t, ht, rfl⟩
    exact ⟨hallow ▸ h, t, rfl, (Tree.add_ok ht).2.2⟩
  · rintro e w' ⟨rfl, ⟨hno, rfl⟩ | hf⟩
    · exact ⟨rfl, by rw [← hallow, hno]; simp, rfl⟩
    · obtain ⟨t, ht⟩ := Tree.add_eq_ok nd hdir hfree
      simp [ht] at hf

/-- The byte loop never fails: its files are open. -/
theorem copyLoop_modes (hrep : ∀ h, rep h = .continue) (input output : Path) (dest : Root)
    (srcName destName : Name) {m : ℕ} {u : Who} {b : Bytes} (hne : input ≠ output)
    (turns pos : ℕ) (w : World) (hin : w.fs.get input = some (.file m u b))
    (hout : (w.fs.get output).isSome) :
    (copyLoop (byModes umask levels crosses clones) rep input output dest srcName destName turns
      pos).wp (fun flow _ => flow = .continue) (fun _ _ => False) w := by
  induction turns generalizing pos w with
  | zero => rfl
  | succ turns ih =>
    simp only [copyLoop, Act.wp_bind, Act.wp_mapErr, Act.wp_ite, Act.wp_pure]
    refine Act.wp_mono (query_byModes _ _ w) ?_ (fun e w' h => h ⟨rfl, _, by rw [hin]⟩)
    rintro buf w₁ ⟨-, -, rfl⟩
    refine ⟨fun _ => trivial, fun _ => ?_⟩
    have hallow : (byModes umask levels crosses clones).refuse w.tick.clock (.write output)
        w.tick.fs = none := byModes_refuse_eq_none.2 rfl
    obtain ⟨t, ht⟩ := Tree.modify_eq_ok (t := w.tick.fs) (Node.isDir_append buf) hout
    refine Act.wp_of_ok (by simp only [Kernel.write, hallow, ht]; rfl) ?_
    simp only [countBytes, Act.wp_bind, wp_setProgress, wp_setOut, wp_report, hrep]
    have hx := (Tree.modify_ok ht).2
    refine ih _ _ ?_ ?_
    · exact (hx input).trans ((if_neg hne).trans hin)
    · show (t.get output).isSome
      rw [hx, if_pos rfl, Option.isSome_map]
      exact hout

/-- A file is copied exactly when the new one can be made. -/
theorem copyFile_modes (hrep : ∀ h, rep h = .continue) (srcRoot : Root) (srcName : Name)
    (dest : Root) (destName : Name) (st : Stat) {m : ℕ} {u : Who} {b : Bytes}
    (hne : srcRoot.dir ++ [srcName] ≠ dest.dir ++ [destName])
    (hin : w.fs.get (srcRoot.dir ++ [srcName]) = some (.file m u b))
    (hsearch : w.fs.may srcRoot.dir 1 = true) (hread : (Node.file m u b).may 4 = true)
    (hdir : w.fs.isBranch dest.dir = true) (hfree : w.fs.get (dest.dir ++ [destName]) = none) :
    (copyFile (byModes umask levels crosses clones) rep srcRoot srcName dest destName st).wp
      (fun flow _ => flow = .continue ∧ w.fs.may dest.dir 3 = true)
      (fun _ _ => ¬ w.fs.may dest.dir 3 = true) w := by
  simp only [copyFile, Root.openFile, Root.createFile, Root.parentOf_rel, pure_bind, if_true,
    Act.wp_bind, Act.wp_mapErr, Act.wp_pure, Act.wp_attempt]
  refine Act.wp_mono (query_byModes _ _ w) ?_ (fun e w' h => (h ⟨?_, (), ?_⟩).elim)
  · rintro _ w₁ ⟨-, -, rfl⟩
    refine Act.wp_mono (add_modes .create (Or.inl rfl) dest.dir destName _ hdir hfree) ?_
      (fun _ _ h => h.2.1)
    rintro _ w₂ ⟨hmay, t, rfl, hx⟩
    have hin₂ : t.get (srcRoot.dir ++ [srcName]) = some (.file m u b) :=
      (hx _).trans ((if_neg hne).trans hin)
    have hout₂ := (hx (dest.dir ++ [destName])).trans (if_pos rfl)
    refine Act.wp_mono (clone_spec _ (dest.dir ++ [destName]) _) ?_ ?_
    · intro _ w₃ _
      simp only [finishFile, Act.wp_bind, Act.wp_attempt, Act.wp_pure, countBytes, wp_setProgress,
        wp_setOut, wp_report, hrep]
      exact Act.wp_mono (Act.wp_run _ _) (fun _ _ _ => ⟨trivial, hmay⟩)
        (fun _ _ _ => ⟨trivial, hmay⟩)
    · rintro _ w₃ rfl
      simp only [Act.wp_bind, Act.wp_ite, Act.wp_pure]
      have hloop : ((w.tick.turn t).tick.fs.get (dest.dir ++ [destName])).isSome := by
        simp [hout₂]
      refine Act.wp_mono (copyLoop_modes hrep _ (dest.dir ++ [destName]) dest srcName
        destName hne (st.size + 1) 0 _ hin₂ hloop) ?_ (fun _ _ h => h.elim)
      rintro flow w₄ rfl
      refine ⟨fun h => by simp at h, fun _ => ?_⟩
      simp only [finishFile, Act.wp_bind, Act.wp_attempt, Act.wp_pure]
      exact Act.wp_mono (Act.wp_run _ _) (fun _ _ _ => ⟨trivial, hmay⟩)
        (fun _ _ _ => ⟨trivial, hmay⟩)
  · rw [allows, mayIn_concat, hsearch, Tree.may, hin]
    exact hread
  · exact Act.except_bind_eq_ok.2 ⟨_, node_ok_iff.2 hin, rfl⟩

end Calls

/-! ## A whole tree -/

/-- The source can be read: its directories listed and searched, its files opened, and all of it is
directories, files and links. -/
structure Readable (S : Path) (t : Tree) : Prop where
  may : ∀ r nd, t.get (S ++ r) = some nd → nd.may (if nd.isDir then 5 else 4) = true
  noSpecial : NoSpecial S t

/-- The directory that `mkdir` makes of one with this mode. -/
def made (k : Kernel) (m : ℕ) : Node := .dir (k.dirMode (m &&& 0o7777)) .owner

/-- The new directories can be opened by their owner, and those that get children can be written. -/
def CopyWorks (k : Kernel) (S : Path) (t : Tree) : Prop :=
  ∀ r m u, t.get (S ++ r) = some (.dir m u) → (made k m).may 4 = true ∧
    ((∃ c, (t.get (S ++ r ++ [c])).isSome) → (made k m).may 3 = true)

section Congr

variable {k : Kernel} {S : Path} {t t' : Tree}

theorem Readable.congr (h : Readable S t) (heq : ∀ r, t'.get (S ++ r) = t.get (S ++ r)) :
    Readable S t' :=
  ⟨fun r nd hr => h.may r nd (by rw [← heq, hr]), fun r kind => by rw [heq]; exact h.noSpecial r kind⟩

theorem Readable.child (h : Readable S t) (c : Name) : Readable (S ++ [c]) t :=
  ⟨fun r nd hr => h.may (c :: r) nd (by rw [← hr]; simp), fun r kind => by
    have := h.noSpecial (c :: r) kind
    simpa using this⟩

theorem copyWorks_congr (heq : ∀ r, t'.get (S ++ r) = t.get (S ++ r)) :
    CopyWorks k S t' ↔ CopyWorks k S t := by
  have hchild : ∀ r c, t'.get (S ++ r ++ [c]) = t.get (S ++ r ++ [c]) := fun r c => by
    rw [List.append_assoc]
    exact heq _
  simp only [CopyWorks, heq, hchild]

theorem CopyWorks.child (h : CopyWorks k S t) (c : Name) : CopyWorks k (S ++ [c]) t := by
  intro r m u hr
  have := h (c :: r) m u (by rw [← hr]; simp)
  simpa using this

/-- What a directory needs is what it needs itself and what its children need. -/
theorem CopyWorks.of_children {m : ℕ} {u : Who} (hS : t.get S = some (.dir m u))
    (hopen : (made k m).may 4 = true)
    (hchild : ∀ c, (t.get (S ++ [c])).isSome →
      (made k m).may 3 = true ∧ CopyWorks k (S ++ [c]) t) : CopyWorks k S t := by
  rintro (_ | ⟨c, r⟩) m' u' hr
  · rw [List.append_nil] at hr ⊢
    obtain ⟨rfl, rfl⟩ := Node.dir.inj (Option.some.inj (hS.symm.trans hr))
    exact ⟨hopen, fun ⟨c, hc⟩ => (hchild c hc).1⟩
  · have hcons : S ++ c :: r = S ++ [c] ++ r := by simp
    rw [hcons] at hr ⊢
    have hc : (t.get (S ++ [c])).isSome := t.isSome_of_append (by rw [hr]; rfl)
    exact (hchild c hc).2 r m' u' hr

theorem CopyWorks.of_leaf {nd : Node} (hS : t.get S = some nd) (hd : nd.isDir = false) :
    CopyWorks k S t := by
  intro r m u hr
  rcases eq_or_ne r [] with rfl | hne
  · rw [List.append_nil, hS] at hr
    rw [Option.some.inj hr] at hd
    simp [Node.isDir] at hd
  · rw [t.get_append_of_not_isBranch ?_ hne] at hr
    · simp at hr
    · rw [← Bool.not_eq_true, t.isBranch_iff]
      rintro ⟨nd', hnd', hdir⟩
      rw [hS] at hnd'
      rw [← Option.some.inj hnd', hd] at hdir
      simp at hdir

end Congr

/-- How far the loop over the children is, and that those it has done can be copied. -/
structure Working (k : Kernel) (S T : Path) (m : ℕ) (t : Tree) (rest : List Name) (t' : Tree) :
    Prop where
  copying : Copying k S T (k.dirMode (m &&& 0o7777)) t rest t'
  names : ∀ c ∈ rest, (t.get (S ++ [c])).isSome
  works : ∀ c, (t.get (S ++ [c])).isSome → c ∉ rest →
    (made k m).may 3 = true ∧ CopyWorks k (S ++ [c]) t

theorem Copying.may_top {k : Kernel} {S T : Path} {m bits : ℕ} {t t' : Tree} {rest : List Name}
    (h : Copying k S T (k.dirMode (m &&& 0o7777)) t rest t') :
    t'.may T bits = (made k m).may bits := by
  rw [Tree.may, h.top]
  rfl

/-- One child was copied to its end. -/
theorem Working.next {k : Kernel} {S T : Path} {m : ℕ} {u : Who} {t t' t'' : Tree} {c : Name}
    {rest : List Name} (h : Working k S T m t (c :: rest) t') (hS : t.get S = some (.dir m u))
    (hapart : Apart S T) (hadds : t'.Grows (T ++ [c]) t'')
    (hmirror : Mirrored k (S ++ [c]) (T ++ [c]) t' t'') (hmay : t'.may T 3 = true)
    (hworks : CopyWorks k (S ++ [c]) t) : Working k S T m t rest t'' := by
  refine ⟨(h.copying.next hS hapart hadds).1 hmirror,
    fun c' hc' => h.names c' (List.mem_cons_of_mem _ hc'), fun c' hsome hc' => ?_⟩
  by_cases hcc : c' = c
  · subst hcc
    exact ⟨h.copying.may_top.symm.trans hmay, hworks⟩
  · exact h.works c' hsome (by simp [hcc, hc'])

variable (umask levels crosses clones) in
/-- **A copy ends well exactly when its directories can be used as they are made**, under the modes
and when it is not stopped. -/
theorem copyNode_modes (hrep : ∀ h, rep h = .continue) (depth : ℕ) (srcRoot : Root)
    (srcName : Name) (dest : Root) (destName : Name) (w : World)
    (hapart : Apart (srcRoot.dir ++ [srcName]) (dest.dir ++ [destName]))
    (hfree : w.fs.get (dest.dir ++ [destName]) = none) (hdir : w.fs.isBranch dest.dir = true)
    (hsearch : w.fs.may srcRoot.dir 1 = true)
    (hread : Readable (srcRoot.dir ++ [srcName]) w.fs)
    (hS : (w.fs.get (srcRoot.dir ++ [srcName])).isSome)
    (hdepth : ∀ r, (w.fs.get (srcRoot.dir ++ [srcName] ++ r)).isSome → r.length < depth) :
    (copyNode (byModes umask levels crosses clones) rep depth srcRoot srcName dest destName).wp
      (fun flow _ => flow = .continue ∧ w.fs.may dest.dir 3 = true ∧
        CopyWorks (byModes umask levels crosses clones) (srcRoot.dir ++ [srcName]) w.fs)
      (fun _ _ => ¬ (w.fs.may dest.dir 3 = true ∧
        CopyWorks (byModes umask levels crosses clones) (srcRoot.dir ++ [srcName]) w.fs)) w := by
  induction depth generalizing srcRoot srcName dest destName w with
  | zero =>
    have := hdepth [] (by rwa [List.append_nil])
    omega
  | succ depth ih =>
    set K := byModes umask levels crosses clones with hK
    set S := srcRoot.dir ++ [srcName] with hSdef
    set T := dest.dir ++ [destName] with hTdef
    obtain ⟨nd, hnd⟩ := Option.isSome_iff_exists.1 hS
    simp only [copyNode, Act.wp_bind, wp_setProgress]
    refine Act.wp_mono (metadata_modes srcRoot srcName hnd hsearch) ?_ (fun _ _ h => h.elim)
    rintro st w₁ ⟨rfl, rfl⟩
    cases nd with
    | special kind => exact absurd (by rw [List.append_nil, hnd]) (hread.noSpecial [] kind)
    | symlink target =>
      simp only [Node.stat, Root.parentOf_rel, pure_bind, Root.symlink, Root.at_rel, Act.wp_bind,
        Act.wp_mapErr, countItem, wp_setProgress, wp_setOut, wp_report, hrep]
      refine Act.wp_mono (query_byModes _ _ _) ?_ (fun e w' h => (h ⟨?_, target, ?_⟩).elim)
      · rintro target' w₂ ⟨-, -, rfl⟩
        refine Act.wp_mono (add_modes .symlink (Or.inr (Or.inr rfl)) dest.dir destName _
          (by exact hdir) (by exact hfree)) ?_ (fun _ _ h hw => h.2.1 hw.1)
        rintro _ w₃ ⟨hmay, -⟩
        exact ⟨trivial, hmay, .of_leaf hnd rfl⟩
      · rw [allows, mayIn_concat]
        exact hsearch
      · exact Act.except_bind_eq_ok.2 ⟨_, node_ok_iff.2 hnd, rfl⟩
    | file m u b =>
      simp only [Node.stat, Act.wp_bind, countItem, wp_setProgress, wp_setOut, Act.wp_ite,
        Act.wp_pure, wp_report, hrep]
      refine Act.wp_mono (copyFile_modes hrep srcRoot srcName dest destName _ hapart.ne
        (by exact hnd) (by exact hsearch) ?_ (by exact hdir) (by exact hfree)) ?_
        (fun _ _ h hw => h hw.1)
      · exact hread.may [] _ (by rw [List.append_nil]; exact hnd)
      · rintro flow w₂ ⟨rfl, hmay⟩
        exact ⟨fun h => by simp at h, fun _ => ⟨trivial, hmay, .of_leaf hnd rfl⟩⟩
    | dir m u =>
      simp only [Node.stat, Act.wp_bind, countItem, wp_setProgress, wp_setOut, Act.wp_ite,
        Act.wp_pure, wp_report, hrep, Root.mkdir, Root.parentOf_rel, pure_bind, Act.wp_attempt]
      refine Act.wp_mono (add_modes .mkdir (Or.inr (Or.inl rfl)) dest.dir destName _
        (by exact hdir) (by exact hfree)) ?_ ?_
      swap
      · -- the directory was not made
        rintro e w₂ ⟨rfl, hmay, rfl⟩
        exact ⟨fun h => by simp at h, fun _ hw => hmay hw.1⟩
      rintro _ w₂ ⟨hmay, t, rfl, hx⟩
      refine ⟨fun h => by simp at h, fun _ => ?_⟩
      have hc : Copying K S T (K.dirMode (m &&& 0o7777)) w.fs (t.names S) t :=
        .start hapart hfree hx
      have hsame : ∀ r, t.get (S ++ r) = w.fs.get (S ++ r) := fun r =>
        hc.grows.outside _ (hapart.not_below r)
      have hsrcDir : t.get srcRoot.dir = w.fs.get srcRoot.dir :=
        hc.grows.outside _ fun hpre => hapart.2 (hpre.trans (List.prefix_append _ _))
      have hnd' : t.get S = some (.dir m u) := by
        have := hsame []
        rw [List.append_nil] at this
        rw [this, hnd]
      have hmayS : t.may S 5 = true := by
        rw [Tree.may, hnd']
        exact hread.may [] _ (by rw [List.append_nil]; exact hnd)
      have hbranchS : t.isBranch S = true := t.isBranch_iff.2 ⟨_, hnd', rfl⟩
      have hbranchT : t.isBranch T = true := t.isBranch_iff.2 ⟨_, hc.top, rfl⟩
      have hsearchT : t.may dest.dir 1 = true := by
        rw [Tree.may, hx, if_neg (by simp)]
        exact tree_may_mono (show 3 &&& 1 = 1 by decide) hmay
      refine Act.wp_mono (sub_modes srcRoot srcName hbranchS ?_) ?_ (fun _ _ h => (h ?_).elim)
      · show t.may srcRoot.dir 1 = true
        rwa [Tree.may, hsrcDir]
      swap
      · exact tree_may_mono (by decide) hmayS
      rintro subSrc w₃ ⟨rfl, rfl, -⟩
      refine Act.wp_mono (sub_modes dest destName hbranchT hsearchT) ?_ ?_
      swap
      · -- the new directory cannot be opened
        intro e w₃ hno hw
        refine hno ((hc.may_top).trans (hw.2 [] m u ?_).1)
        rw [List.append_nil, hnd]
      rintro subDest w₃ ⟨rfl, rfl, hopen⟩
      replace hopen : (made K m).may 4 = true := (hc.may_top).symm.trans hopen
      refine Act.wp_mono (readDir_modes _ hbranchS hmayS) ?_ (fun _ _ h => h.elim)
      rintro children w₃ ⟨rfl, rfl⟩
      have hstart : Working K S T m w.fs (t.names S) t := by
        refine ⟨hc, fun c hmem => ?_, fun c hsome hmem => (hmem ?_).elim⟩
        · rw [← hsame]
          exact t.mem_names.1 hmem
        · rw [t.mem_names, hsame]
          exact hsome
      refine Act.each_wp (fun rest w' => Working K S T m w.fs rest w'.fs) ?_
        (fun c rest w' h => ?_) (t.names S) _ hstart
      · intro w' h
        exact ⟨rfl, hmay, .of_children hnd hopen fun c hsome => h.works c hsome (by simp)⟩
      have hsrc : ∀ r, w'.fs.get (S ++ r) = w.fs.get (S ++ r) := fun r =>
        h.copying.grows.outside _ (hapart.not_below r)
      have hsrc' : ∀ r, w'.fs.get (S ++ [c] ++ r) = w.fs.get (S ++ [c] ++ r) := fun r => by
        rw [List.append_assoc]
        exact hsrc _
      have hchild := ih ⟨S, srcRoot.path ++ srcName.rel⟩ c ⟨T, dest.path ++ destName.rel⟩ c w'
        (hapart.child c c) (h.copying.todo c List.mem_cons_self)
        (w'.fs.isBranch_iff.2 ⟨_, h.copying.top, rfl⟩) ?_ ((hread.congr hsrc).child c) ?_ ?_
      · refine Act.wp_mono (Act.wp_and (Act.wp_and ((copyNode_adds _ _ _ _ _).wp w')
          (copyNode_spec _ _ c _ c (hapart.child c c) (h.copying.todo c List.mem_cons_self)))
          hchild) ?_ ?_
        · rintro flow w'' ⟨⟨hadds, hmirror, -⟩, rfl, hmayT, hworks⟩
          rw [if_pos rfl]
          exact h.next hnd hapart hadds (hmirror rfl) hmayT ((copyWorks_congr hsrc').1 hworks)
        · rintro e w'' ⟨-, hno⟩ hw
          have hc' := h.names c List.mem_cons_self
          refine hno ⟨h.copying.may_top.trans ((hw.2 [] m u ?_).2 ⟨c, ?_⟩), ?_⟩
          · rw [List.append_nil, hnd]
          · rw [List.append_nil]
            exact hc'
          · exact (copyWorks_congr hsrc').2 (hw.2.child c)
      · show w'.fs.may S 1 = true
        have := hsrc []
        rw [List.append_nil] at this
        rw [Tree.may, this, hnd]
        have h5 : (Node.dir m u).may 5 = true :=
          hread.may [] (.dir m u) (by rw [List.append_nil]; exact hnd)
        exact may_mono (by decide) h5
      · have := hsrc [c]
        rw [this]
        exact h.names c List.mem_cons_self
      · intro r hr
        have hcons : S ++ [c] ++ r = S ++ (c :: r) := by simp
        have hlen := hdepth (c :: r) (by rw [← hcons, ← hsrc']; exact hr)
        simpa using hlen

end Aurade.Ops
