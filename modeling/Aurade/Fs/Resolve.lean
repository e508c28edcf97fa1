import Aurade.Fs.Kernel

/-!
# Following paths

What is known of the place that `Kernel.resolve` answers with, without following the walk itself:

* it is in the tree (`resolve_isSome`);
* a path is followed by following its first part and then the rest (`resolveWith_append`), so that
  the last name of a path that is no link is found in the directory the rest names
  (`resolve_join`);
* it leads to one place in two trees that nowhere have different nodes (`resolve_agree`), so that a
  path that can still be followed leads where it led.
-/

namespace Aurade.Fs.Kernel

variable {k : Kernel} {t t' u : Tree}

section Walk

variable {follow follow' followU : Path → PathBuf → Except Errno Path}

/-- One step of a walk that ends well. -/
theorem walk_normal_iff {cur e : Path} {b : Bytes} {rest : PathBuf} :
    k.walk t follow cur (.normal b :: rest) = .ok e ↔
      ∃ n, toName? b = some n ∧ t.isBranch cur = true ∧ (t.get cur).any (k.search cur) = true ∧
        ((∃ target, t.get (cur ++ [n]) = some (.symlink target) ∧
            follow cur (Fs.components target ++ rest) = .ok e) ∨
          (∃ nd, t.get (cur ++ [n]) = some nd ∧ nd.isSymlink = false ∧
            k.walk t follow (cur ++ [n]) rest = .ok e)) := by
  rw [walk]
  cases hb : t.isBranch cur <;> cases hs : (t.get cur).any (k.search cur) <;> cases hn : toName? b <;>
    simp only [Bool.not_true, Bool.not_false, if_true, Bool.false_eq_true, if_false, reduceCtorEq,
      false_and, and_false, true_and, exists_false, Option.some.injEq, exists_eq_left']
  next n =>
  cases hget : t.get (cur ++ [n]) with
  | none => simp
  | some nd => cases nd <;> simp [Node.isSymlink]

/-- Every directory above the place may be searched. -/
def Searchable (k : Kernel) (t : Tree) (d : Path) : Prop :=
  ∀ p n, p ++ [n] <+: d → (t.get p).any (k.search p) = true

theorem Searchable.nil : k.Searchable t [] := fun p n h => by simp at h

theorem Searchable.concat {d : Path} {n : Name} (h : k.Searchable t d)
    (hd : (t.get d).any (k.search d) = true) : k.Searchable t (d ++ [n]) := by
  intro p m hp
  rcases List.prefix_concat_iff.1 hp with heq | hp
  · rwa [(List.append_inj' heq rfl).1]
  · exact h p m hp

theorem Searchable.dropLast {d : Path} (h : k.Searchable t d) : k.Searchable t d.dropLast :=
  fun p n hp => h p n (hp.trans (List.dropLast_prefix d))

theorem walk_search (hfollow : ∀ cur p d, k.Searchable t cur → follow cur p = .ok d →
      k.Searchable t d) :
    ∀ (p : PathBuf) (cur d : Path), k.Searchable t cur → k.walk t follow cur p = .ok d →
      k.Searchable t d := by
  intro p
  induction p with
  | nil =>
    intro cur d hcur h
    rw [walk] at h
    exact Except.ok.inj h ▸ hcur
  | cons c p ih =>
    intro cur d hcur h
    cases c with
    | rootDir => exact ih [] d .nil (by simpa [walk] using h)
    | curDir =>
      rw [walk] at h
      split at h
      · exact ih cur d hcur h
      · simp at h
    | parentDir =>
      rw [walk] at h
      split at h
      · exact ih cur.dropLast d hcur.dropLast h
      · simp at h
    | normal b =>
      obtain ⟨n, -, -, hs, ⟨target, -, h⟩ | ⟨nd, -, -, h⟩⟩ := walk_normal_iff.1 h
      · exact hfollow _ _ _ hcur h
      · exact ih _ d (hcur.concat hs) h

theorem walk_isSome (hfollow : ∀ cur p d, (t.get cur).isSome → follow cur p = .ok d →
      (t.get d).isSome) :
    ∀ (p : PathBuf) (cur d : Path), (t.get cur).isSome → k.walk t follow cur p = .ok d →
      (t.get d).isSome := by
  intro p
  induction p with
  | nil =>
    intro cur d hcur h
    rw [walk] at h
    exact Except.ok.inj h ▸ hcur
  | cons c p ih =>
    intro cur d hcur h
    cases c with
    | rootDir => exact ih [] d (t.isSome_of_isBranch t.isBranch_root) (by simpa [walk] using h)
    | curDir =>
      rw [walk] at h
      split at h
      · exact ih cur d hcur h
      · simp at h
    | parentDir =>
      rw [walk] at h
      split at h
      · refine ih cur.dropLast d ?_ h
        rcases List.eq_nil_or_concat cur with rfl | ⟨cur, n, rfl⟩
        · exact hcur
        · rw [List.concat_eq_append] at hcur ⊢
          rw [List.dropLast_concat]
          exact t.isSome_of_append hcur
      · simp at h
    | normal b =>
      obtain ⟨n, -, -, -, ⟨target, -, h⟩ | ⟨nd, hget, -, h⟩⟩ := walk_normal_iff.1 h
      · exact hfollow _ _ _ hcur h
      · exact ih _ d (by simp [hget]) h

/-- Two walks that both end well end at one place, and so does a walk in a tree that has the nodes
of both. -/
theorem walk_agree (hagree : t.Agree t')
    (hu : ∀ x nd, t.get x = some nd → t'.get x = some nd → u.get x = some nd)
    (hfollow : ∀ cur p d d', (t.get cur).isSome → (t'.get cur).isSome → follow cur p = .ok d →
      follow' cur p = .ok d' → d' = d ∧ followU cur p = .ok d) :
    ∀ (p : PathBuf) (cur d d' : Path), (t.get cur).isSome → (t'.get cur).isSome →
      k.walk t follow cur p = .ok d → k.walk t' follow' cur p = .ok d' →
      d' = d ∧ k.walk u followU cur p = .ok d := by
  have hroot : ∀ t : Tree, (t.get []).isSome := fun t => t.isSome_of_isBranch t.isBranch_root
  have hboth : ∀ {x}, (t.get x).isSome → (t'.get x).isSome →
      ∃ nd, t.get x = some nd ∧ t'.get x = some nd ∧ u.get x = some nd := by
    intro x hx hx'
    obtain ⟨nd, hnd⟩ := Option.isSome_iff_exists.1 hx
    obtain ⟨nd', hnd'⟩ := Option.isSome_iff_exists.1 hx'
    obtain rfl := hagree x nd nd' hnd hnd'
    exact ⟨nd', hnd, hnd', hu x nd' hnd hnd'⟩
  have hbranch : ∀ {x}, (t.get x).isSome → (t'.get x).isSome → t.isBranch x = true →
      u.isBranch x = true := by
    intro x hx hx' hb
    obtain ⟨nd, hnd, -, hndu⟩ := hboth hx hx'
    obtain ⟨nd', hnd', hdir⟩ := t.isBranch_iff.1 hb
    exact u.isBranch_iff.2 ⟨nd, hndu, by rwa [Option.some.inj (hnd.symm.trans hnd')]⟩
  intro p
  induction p with
  | nil =>
    intro cur d d' _ _ h h'
    rw [walk] at h h'
    rw [← Except.ok.inj h, ← Except.ok.inj h']
    exact ⟨rfl, rfl⟩
  | cons c p ih =>
    intro cur d d' hcur hcur' h h'
    cases c with
    | rootDir =>
      rw [walk] at h h' ⊢
      exact ih [] d d' (hroot t) (hroot t') h h'
    | curDir =>
      rw [walk] at h h' ⊢
      split at h
      · next hb =>
        split at h'
        · rw [if_pos (hbranch hcur hcur' hb)]
          exact ih _ _ _ hcur hcur' h h'
        · simp at h'
      · simp at h
    | parentDir =>
      have hdrop : ∀ {t : Tree}, (t.get cur).isSome → (t.get cur.dropLast).isSome := by
        intro t hs
        rcases List.eq_nil_or_concat cur with rfl | ⟨cur, n, rfl⟩
        · exact hs
        · rw [List.concat_eq_append] at hs ⊢
          rw [List.dropLast_concat]
          exact t.isSome_of_append hs
      rw [walk] at h h' ⊢
      split at h
      · next hb =>
        split at h'
        · rw [if_pos (hbranch hcur hcur' hb)]
          exact ih _ _ _ (hdrop hcur) (hdrop hcur') h h'
        · simp at h'
      · simp at h
    | normal b =>
      obtain ⟨n, hn, hb, hs, h⟩ := walk_normal_iff.1 h
      obtain ⟨n', hn', -, -, h'⟩ := walk_normal_iff.1 h'
      obtain rfl : n = n' := Option.some.inj (hn.symm.trans hn')
      have hsu : (u.get cur).any (k.search cur) = true := by
        obtain ⟨nd, hnd, -, hndu⟩ := hboth hcur hcur'
        rwa [hndu, ← hnd]
      -- what is at the next place in both trees is one node
      rcases h with ⟨target, hget, h⟩ | ⟨nd, hget, hsym, h⟩ <;>
        rcases h' with ⟨target', hget', h'⟩ | ⟨nd', hget', hsym', h'⟩ <;>
        have hsame := hagree _ _ _ hget hget'
      · obtain rfl : target' = target := by simpa using hsame
        obtain ⟨hd, hfu⟩ := hfollow _ _ _ _ hcur hcur' h h'
        exact ⟨hd, walk_normal_iff.2 ⟨n, hn, hbranch hcur hcur' hb, hsu,
          Or.inl ⟨target', hu _ _ hget hget', hfu⟩⟩⟩
      · rw [hsame] at hsym'
        simp [Node.isSymlink] at hsym'
      · rw [← hsame] at hsym
        simp [Node.isSymlink] at hsym
      · subst hsame
        obtain ⟨hd, hwu⟩ := ih _ _ _ (by simp [hget]) (by simp [hget']) h h'
        exact ⟨hd, walk_normal_iff.2 ⟨n, hn, hbranch hcur hcur' hb, hsu,
          Or.inr ⟨nd', hu _ _ hget hget', hsym', hwu⟩⟩⟩

theorem walk_append {R : Path → PathBuf → Path → Prop}
    (hfollow : ∀ cur p q e, follow cur (p ++ q) = .ok e → ∃ d, follow cur p = .ok d ∧ R d q e)
    (hwalk : ∀ d q e, k.walk t follow d q = .ok e → R d q e) (q : PathBuf) (e : Path) :
    ∀ (p : PathBuf) (cur : Path), k.walk t follow cur (p ++ q) = .ok e →
      ∃ d, k.walk t follow cur p = .ok d ∧ R d q e := by
  intro p
  induction p with
  | nil => exact fun cur h => ⟨cur, rfl, hwalk _ _ _ h⟩
  | cons c p ih =>
    intro cur h
    rw [List.cons_append] at h
    cases c with
    | rootDir => simpa [walk] using ih [] (by simpa [walk] using h)
    | curDir =>
      rw [walk] at h ⊢
      split at h
      · next hb => simpa [hb] using ih cur h
      · simp at h
    | parentDir =>
      rw [walk] at h ⊢
      split at h
      · next hb => simpa [hb] using ih cur.dropLast h
      · simp at h
    | normal b =>
      obtain ⟨n, hn, hb, hs, ⟨target, hget, h⟩ | ⟨nd, hget, hsym, h⟩⟩ := walk_normal_iff.1 h
      · rw [← List.append_assoc] at h
        obtain ⟨d, hd, hR⟩ := hfollow _ _ _ _ h
        exact ⟨d, walk_normal_iff.2 ⟨n, hn, hb, hs, Or.inl ⟨target, hget, hd⟩⟩, hR⟩
      · obtain ⟨d, hd, hR⟩ := ih _ h
        exact ⟨d, walk_normal_iff.2 ⟨n, hn, hb, hs, Or.inr ⟨nd, hget, hsym, hd⟩⟩, hR⟩

end Walk

theorem resolveWith_isSome (links : ℕ) (cur : Path) (p : PathBuf) {d : Path}
    (hcur : (t.get cur).isSome) (h : k.resolveWith t links cur p = .ok d) : (t.get d).isSome := by
  induction links generalizing cur p d with
  | zero => exact walk_isSome (fun _ _ _ _ h => by simp at h) p cur d hcur h
  | succ links ih => exact walk_isSome (fun _ _ _ hcur h => ih _ _ hcur h) p cur d hcur h

/-- Every directory on the way to a place that a path names may be searched. -/
theorem resolve_search {path : PathBuf} {d : Path} (h : k.resolve t path = .ok d) :
    k.Searchable t d := by
  have hwith : ∀ (links : ℕ) (cur : Path) (p : PathBuf) (d : Path), k.Searchable t cur →
      k.resolveWith t links cur p = .ok d → k.Searchable t d := by
    intro links
    induction links with
    | zero => exact fun cur p d hcur h => walk_search (fun _ _ _ _ h => by simp at h) p cur d hcur h
    | succ links ih => exact fun cur p d hcur h => walk_search ih p cur d hcur h
  unfold resolve at h
  split at h
  · simp at h
  · exact hwith 40 [] path d .nil h

/-- The place that a path names is in the tree. -/
theorem resolve_isSome {path : PathBuf} {d : Path} (h : k.resolve t path = .ok d) :
    (t.get d).isSome := by
  unfold resolve at h
  split at h
  · simp at h
  · exact resolveWith_isSome 40 [] path (t.isSome_of_isBranch t.isBranch_root) h

theorem resolveWith_agree (hagree : t.Agree t')
    (hu : ∀ x nd, t.get x = some nd → t'.get x = some nd → u.get x = some nd) (links : ℕ) :
    ∀ cur p d d', (t.get cur).isSome → (t'.get cur).isSome →
      k.resolveWith t links cur p = .ok d → k.resolveWith t' links cur p = .ok d' →
      d' = d ∧ k.resolveWith u links cur p = .ok d := by
  induction links with
  | zero => exact fun cur p d d' => walk_agree hagree hu (by simp) p cur d d'
  | succ links ih => exact fun cur p d d' => walk_agree hagree hu ih p cur d d'

/-- **A path that can be followed in two trees leads to one place**, when there is no place at which
they have different nodes; and then it leads there in every tree that has the nodes of both. -/
theorem resolve_agree (hagree : t.Agree t')
    (hu : ∀ x nd, t.get x = some nd → t'.get x = some nd → u.get x = some nd) {path : PathBuf}
    {d d' : Path} (h : k.resolve t path = .ok d) (h' : k.resolve t' path = .ok d') :
    d' = d ∧ k.resolve u path = .ok d := by
  have hroot : ∀ t : Tree, (t.get []).isSome := fun t => t.isSome_of_isBranch t.isBranch_root
  unfold resolve at h h' ⊢
  split at h
  · simp at h
  · next hp =>
    rw [if_neg hp] at h' ⊢
    exact resolveWith_agree hagree hu 40 [] path d d' (hroot t) (hroot t') h h'

/-- More nodes elsewhere do not change where a path leads. -/
theorem resolve_mono (hu : ∀ x nd, t.get x = some nd → u.get x = some nd) {path : PathBuf}
    {d : Path} (h : k.resolve t path = .ok d) : k.resolve u path = .ok d :=
  (resolve_agree (fun _ _ _ h h' => Option.some.inj (h'.symm.trans h)) (fun x nd h _ => hu x nd h)
    h h).2

/-- To follow a path is to follow its first part and then the rest, with the links that are left. -/
theorem resolveWith_append (links : ℕ) (cur : Path) (p q : PathBuf) {e : Path}
    (h : k.resolveWith t links cur (p ++ q) = .ok e) :
    ∃ d, k.resolveWith t links cur p = .ok d ∧ ∃ links', k.resolveWith t links' d q = .ok e := by
  induction links generalizing cur p e q with
  | zero =>
    exact walk_append (R := fun d q e => ∃ links', k.resolveWith t links' d q = .ok e)
      (by simp) (fun d q e h => ⟨0, h⟩) q e p cur h
  | succ links ih =>
    exact walk_append (R := fun d q e => ∃ links', k.resolveWith t links' d q = .ok e)
      (fun cur p q e h => ih cur p q h) (fun d q e h => ⟨links + 1, h⟩) q e p cur h

/-- The last name of a path, where it is no link, is looked up in the directory that the rest
names. -/
theorem resolve_join {path : PathBuf} (hp : path ≠ []) {e : Path} {n : Name}
    (h : k.resolve t (path.join n) = .ok e) :
    ∃ d, k.resolve t path = .ok d ∧
      ((∀ target, t.get (d ++ [n]) ≠ some (.symlink target)) → e = d ++ [n]) := by
  unfold resolve at h ⊢
  rw [if_neg (by simp [PathBuf.join])] at h
  rw [if_neg hp]
  obtain ⟨d, hd, links, h⟩ := resolveWith_append 40 [] path [.normal n.val] h
  refine ⟨d, hd, fun hsym => ?_⟩
  have hstep : ∀ {follow}, k.walk t follow d [.normal n.val] = .ok e → e = d ++ [n] := by
    intro follow h
    obtain ⟨m, hm, -, -, ⟨target, hget, -⟩ | ⟨nd, -, -, h⟩⟩ := walk_normal_iff.1 h
    · rw [toName?_val] at hm
      exact absurd (Option.some.inj hm ▸ hget) (hsym target)
    · rw [toName?_val] at hm
      rw [walk, ← Option.some.inj hm] at h
      exact (Except.ok.inj h).symm
  cases links with
  | zero => exact hstep h
  | succ links => exact hstep h

theorem resolve_ne_nil {path : PathBuf} {d : Path} (h : k.resolve t path = .ok d) : path ≠ [] := by
  rintro rfl
  simp [resolve] at h

/-- The place of a path of a directory and a name. -/
theorem place_join {path : PathBuf} {n : Name} {p : Path} (h : k.place t (path.join n) = some p) :
    ∃ d, k.resolve t path = .ok d ∧ p = d ++ [n] := by
  simp only [place, parent_join, fileName_join, toName?_val] at h
  split at h
  · next d m hd hm =>
    obtain rfl := Option.some.inj hm
    exact ⟨d, hd, (Option.some.inj h).symm⟩
  · simp at h

/-- A path with a place ends in a name. -/
theorem place_eq_some {path : PathBuf} {d : Path} {n : Name}
    (h : k.place t path = some (d ++ [n])) :
    ∃ parent : PathBuf, path = parent.join n ∧ k.resolve t parent = .ok d := by
  unfold place at h
  split at h
  · next parent name hparent hname =>
    split at h
    · next d' m hd hm =>
      obtain ⟨rfl, hmn⟩ := List.append_inj' (Option.some.inj h) rfl
      obtain rfl : m = n := List.singleton_inj.1 hmn
      obtain rfl := toName?_eq_some hm
      refine ⟨parent, ?_, hd⟩
      unfold PathBuf.parent at hparent
      unfold PathBuf.fileName at hname
      rcases List.eq_nil_or_concat path with rfl | ⟨q, c, rfl⟩
      · simp at hname
      · simp only [List.concat_eq_append, List.getLast?_concat, List.dropLast_concat] at hparent hname
        cases c with
        | normal b =>
          obtain rfl : b = m.val := by simpa using hname
          obtain rfl : q = parent := by simpa using hparent
          rw [List.concat_eq_append]
          rfl
        | _ => simp at hname
    · simp at h
  · simp at h

theorem walk_concat {follow : Path → PathBuf → Except Errno Path} {d : Path} {n : Name} {nd : Node}
    (hfollow : ∀ cur p, follow cur p = .ok d → follow cur (p ++ [.normal n.val]) = .ok (d ++ [n]))
    (hb : t.isBranch d = true) (hs : (t.get d).any (k.search d) = true)
    (hnd : t.get (d ++ [n]) = some nd) (hsym : nd.isSymlink = false) :
    ∀ (p : PathBuf) (cur : Path), k.walk t follow cur p = .ok d →
      k.walk t follow cur (p ++ [.normal n.val]) = .ok (d ++ [n]) := by
  intro p
  induction p with
  | nil =>
    intro cur h
    obtain rfl := Except.ok.inj h
    exact walk_normal_iff.2 ⟨n, toName?_val n, hb, hs, Or.inr ⟨nd, hnd, hsym, rfl⟩⟩
  | cons c p ih =>
    intro cur h
    rw [List.cons_append]
    cases c with
    | rootDir => exact ih [] h
    | curDir =>
      rw [walk] at h ⊢
      split at h
      · next hcur => simpa [hcur] using ih cur h
      · simp at h
    | parentDir =>
      rw [walk] at h ⊢
      split at h
      · next hcur => simpa [hcur] using ih cur.dropLast h
      · simp at h
    | normal b =>
      obtain ⟨m, hm, hcur, hscur, ⟨target, hget, h⟩ | ⟨md, hget, hsymm, h⟩⟩ := walk_normal_iff.1 h
      · have hlink := hfollow _ _ h
        rw [List.append_assoc] at hlink
        exact walk_normal_iff.2 ⟨m, hm, hcur, hscur, Or.inl ⟨target, hget, hlink⟩⟩
      · exact walk_normal_iff.2 ⟨m, hm, hcur, hscur, Or.inr ⟨md, hget, hsymm, ih _ h⟩⟩

/-- A name in a directory that may be searched, where it is no link, is where the path leads. -/
theorem resolve_concat {path : PathBuf} {d : Path} {n : Name} {nd : Node}
    (h : k.resolve t path = .ok d) (hb : t.isBranch d = true)
    (hs : (t.get d).any (k.search d) = true) (hnd : t.get (d ++ [n]) = some nd)
    (hsym : nd.isSymlink = false) : k.resolve t (path.join n) = .ok (d ++ [n]) := by
  have hall : ∀ links cur p, k.resolveWith t links cur p = .ok d →
      k.resolveWith t links cur (p ++ [.normal n.val]) = .ok (d ++ [n]) := by
    intro links
    induction links with
    | zero =>
      intro cur p hp
      exact walk_concat (fun cur p h => by cases h) hb hs hnd hsym p cur hp
    | succ links ih =>
      intro cur p hp
      exact walk_concat ih hb hs hnd hsym p cur hp
  have hne := resolve_ne_nil h
  rw [resolve, if_neg hne] at h
  rw [resolve, if_neg (by simp [PathBuf.join])]
  exact hall 40 [] path h

theorem place_of_resolve {path : PathBuf} {n : Name} {d : Path} (h : k.resolve t path = .ok d) :
    k.place t (path.join n) = some (d ++ [n]) := by
  simp only [place, parent_join, fileName_join, toName?_val, h]

end Aurade.Fs.Kernel
