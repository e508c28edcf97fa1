import Mathlib
import Aurade.Fs.Std

/-!
# A tree that grows below a place

`Grown` says what may have become of a tree by calls on paths that go on from one path with plain names:
below its place, under some names, there are new directories and files and other contents. Elsewhere nothing
changed; nothing is gone; below the place there is no link; no node has a bit beside the nine permissions
that was not there before, and no node is of a special kind that was not.

Each call by path keeps to it, because the paths keep leading below the place (`createFile_wp`,
`createDirAll_wp`, `setPermissions_wp`, `write_wp`), and the same lemmas say what a call that returns did at
its own place. The directories on the way to the place are never made again: they are there (`site_above`).
-/

namespace Aurade.Fs.Kernel

/-- The bits of a mode beside the permissions: setuid, setgid and sticky. -/
def Special (nd : Node) : ℕ := nd.stat.mode &&& 0o7000

/-- What may have become of a tree, below `d` and under the names in `tops`. -/
structure Grown (tops : Name → Prop) (d : Path) (t₀ t : Tree) : Prop where
  outside : ∀ x, (∀ n r, tops n → x ≠ d ++ n :: r) → t.get x = t₀.get x
  stays : ∀ x, (t₀.get x).isSome → (t.get x).isSome
  links : NoLinks t d
  modes : ∀ x nd, t.get x = some nd → Special nd = 0 ∨ ∃ nd₀, t₀.get x = some nd₀ ∧ Special nd₀ = Special nd
  specials : ∀ x nd, t.get x = some nd → nd.isSpecial = true → t₀.get x = some nd

theorem special_of_permissions (mode : ℕ) : mode &&& 0o777 &&& 0o7000 = 0 := by
  rw [Nat.and_assoc]
  exact Nat.and_zero mode

theorem special_and (a b c : ℕ) (h : a &&& 0o7000 = 0) : a &&& b &&& c &&& 0o7000 = 0 := by
  rw [Nat.and_assoc, Nat.and_assoc, Nat.and_comm, Nat.and_assoc, Nat.and_assoc, Nat.and_comm 0o7000 a, h]
  simp

section

variable {k : Kernel} {tops : Name → Prop} {d : Path} {t₀ t t' : Tree}

theorem Grown.refl (hno : NoLinks t₀ d) : Grown tops d t₀ t₀ :=
  ⟨fun _ _ => rfl, fun _ h => h, hno, fun _ nd h => Or.inr ⟨nd, h, rfl⟩, fun _ _ h _ => h⟩

/-- A node that is put below. -/
theorem Grown.put (h : Grown tops d t₀ t) {n : Name} {r : Path} (hn : tops n) {nd : Node}
    (hsym : nd.isSymlink = false)
    (hmode : Special nd = 0 ∨ ∃ old, t.get (d ++ n :: r) = some old ∧ Special old = Special nd)
    (hspecial : nd.isSpecial = true → t.get (d ++ n :: r) = some nd)
    (ht : ∀ x, t'.get x = if x = d ++ n :: r then some nd else t.get x) : Grown tops d t₀ t' := by
  refine ⟨fun x hx => ?_, fun x hx => ?_, fun y target hy => ?_, fun x nd' hx => ?_, fun x nd' hx hs => ?_⟩
  · rw [ht, if_neg (hx n r hn)]
    exact h.outside x hx
  · rw [ht]
    split_ifs
    · rfl
    · exact h.stays x hx
  · rw [ht]
    split_ifs
    · rintro heq
      rw [Option.some.inj heq] at hsym
      cases hsym
    · exact h.links y target hy
  · rw [ht] at hx
    split_ifs at hx with hxe
    · obtain rfl := Option.some.inj hx
      rcases hmode with h0 | ⟨old, hold, hs⟩
      · exact Or.inl h0
      · rw [← hs, hxe]
        exact h.modes _ old hold
    · exact h.modes x nd' hx
  · rw [ht] at hx
    split_ifs at hx with hxe
    · obtain rfl := Option.some.inj hx
      rw [hxe]
      exact h.specials _ _ (hspecial hs) hs
    · exact h.specials x nd' hx hs

/-- A change of the node that is there. -/
theorem Grown.modify (h : Grown tops d t₀ t) {n : Name} {r : Path} (hn : tops n) {f : Node → Node}
    (hsym : ∀ nd, (f nd).isSymlink = nd.isSymlink)
    (hmode : ∀ nd, Special (f nd) = 0 ∨ Special (f nd) = Special nd)
    (hspecial : ∀ nd, (f nd).isSpecial = true → f nd = nd)
    (ht : ∀ x, t'.get x = if x = d ++ n :: r then (t.get x).map f else t.get x) :
    Grown tops d t₀ t' := by
  cases hold : t.get (d ++ n :: r) with
  | none =>
    have hsame : ∀ x, t'.get x = t.get x := fun x => by
      rw [ht]
      split_ifs with hx
      · rw [hx, hold]
        rfl
      · rfl
    refine ⟨fun x hx => (hsame x).trans (h.outside x hx), fun x hx => hsame x ▸ h.stays x hx,
      fun y target hy => hsame _ ▸ h.links y target hy, fun x nd hx => h.modes x nd (hsame x ▸ hx),
      fun x nd hx => h.specials x nd (hsame x ▸ hx)⟩
  | some old =>
    refine @Grown.put _ _ _ _ _ h n r hn (f old) ?_ ((hmode old).imp_right fun hs => ⟨old, hold, hs.symm⟩)
      (fun hs => by rw [hspecial old hs, hold]) fun x => ?_
    · rw [hsym]
      cases old with
      | symlink target => exact absurd hold (h.links _ target (by simp))
      | _ => rfl
    · rw [ht]
      split_ifs with hx
      · rw [hx, hold]
        rfl
      · rfl

theorem Grown.sameLinks (h : Grown tops d t₀ t) (hno : NoLinks t₀ d) : SameLinks t₀ t := by
  intro x nd nd' hnd hnd' target
  by_cases hx : ∃ r, r ≠ [] ∧ x = d ++ r
  · obtain ⟨r, hr, rfl⟩ := hx
    constructor
    · rintro rfl
      exact absurd hnd (hno r target hr)
    · rintro rfl
      exact absurd hnd' (h.links r target hr)
  · have hsame := h.outside x fun n r _ heq => hx ⟨n :: r, by simp, heq⟩
    rw [hsame, hnd] at hnd'
    rw [Option.some.inj hnd']

/-- What was there is as it was. -/
def Extends (t t' : Tree) : Prop := ∀ x, (t.get x).isSome → t'.get x = t.get x

theorem Extends.refl (t : Tree) : Extends t t := fun _ _ => rfl

theorem Extends.trans {t'' : Tree} (h : Extends t t') (h' : Extends t' t'') : Extends t t'' := fun x hx =>
  (h' x (by rw [h x hx]; exact hx)).trans (h x hx)

/-- The last component of a path is the name that is made. -/
theorem site_ok {path : PathBuf} {p : Path} {n : Name} (h : k.site t path = .ok (p, n)) :
    ∃ b init, toName? b = some n ∧ path = init ++ [.normal b] ∧ k.resolveWith t 40 [] init = .ok p := by
  rw [Kernel.site] at h
  split at h
  · next b hlast =>
    obtain ⟨p', hres, h⟩ := Act.except_bind_eq_ok.1 h
    split_ifs at h
    split at h
    · cases h
    · next m hm =>
      cases h
      exact ⟨b, path.dropLast, hm, (List.dropLast_append_getLast? _ hlast).symm, hres⟩
  · cases h
  · obtain ⟨_, -, h⟩ := Act.except_bind_eq_ok.1 h
    cases h

/-! ## The calls -/

variable {τ : PathBuf} {w : World}

/-- A path on the way to the place, or one that goes on from it under the names. -/
def Reaches (tops : Name → Prop) (τ path : PathBuf) : Prop :=
  (∃ ρ, τ = path ++ ρ) ∨
    ∃ b bs, path = τ ++ (b :: bs).map .normal ∧ ∀ n : Name, n.val = b → tops n

theorem Reaches.dropLast {path : PathBuf} {c : Component} (h : Reaches tops τ (path ++ [c])) :
    Reaches tops τ path := by
  rcases h with ⟨ρ, rfl⟩ | ⟨b, bs, heq, hb⟩
  · exact Or.inl ⟨c :: ρ, by simp⟩
  · rcases List.eq_nil_or_concat bs with rfl | ⟨init, last, rfl⟩
    · exact Or.inl ⟨[], by simpa using (List.append_inj_left' heq rfl).symm⟩
    · refine Or.inr ⟨b, init, ?_, hb⟩
      have heq : path ++ [c] = (τ ++ (b :: init).map .normal) ++ [.normal last] := by simpa using heq
      exact List.append_inj_left' heq rfl

section

variable (hno : NoLinks t₀ d) (hτ : k.resolveWith t₀ 40 [] τ = .ok d)

include hno hτ

theorem Grown.leads (h : Grown tops d t₀ t) : ∀ d', k.resolveWith t 40 [] τ = .ok d' → d' = d :=
  fun _ h' => resolve_links (h.sameLinks hno) 40 [] τ hτ h'

/-- What is on the way to the place is there. -/
theorem site_above (h : Grown tops d t₀ t) {path ρ : PathBuf} (hpath : τ = path ++ ρ) {p : Path} {n : Name}
    (hsite : k.site t path = .ok (p, n)) : (t.get (p ++ [n])).isSome := by
  obtain ⟨b, init, hb, rfl, hres⟩ := site_ok hsite
  rw [hpath, List.append_assoc] at hτ
  obtain ⟨p₀, hp₀, links, hon⟩ := resolveWith_append 40 [] init _ hτ
  obtain rfl := resolve_links (h.sameLinks hno) 40 [] init hp₀ hres
  have hthere : ∀ {follow}, k.walk t₀ follow p (.normal b :: ρ) = .ok d →
      (t₀.get (p ++ [n])).isSome := by
    intro follow hon
    obtain ⟨m, hm, -, -, hon⟩ := walk_normal_iff.1 hon
    obtain rfl : n = m := Option.some.inj (hb.symm.trans hm)
    rcases hon with ⟨target, hget, -⟩ | ⟨nd, hget, -⟩ <;> rw [hget] <;> rfl
  refine h.stays _ ?_
  cases links with
  | zero => exact hthere hon
  | succ links => exact hthere hon

/-- What is made by a path that goes on from the place is made below it. -/
theorem site_below (h : Grown tops d t₀ t) {bs : List Bytes} (hbs : bs ≠ []) {p : Path} {n : Name}
    (hsite : k.site t (τ ++ bs.map .normal) = .ok (p, n)) :
    ∃ ns : List Name, ns.map Subtype.val = bs ∧ p ++ [n] = d ++ ns := by
  obtain ⟨b, init, hb, heq, hres⟩ := site_ok hsite
  obtain ⟨below, last, rfl⟩ := (List.eq_nil_or_concat bs).resolve_left hbs
  have heq : (τ ++ below.map .normal) ++ [.normal last] = init ++ [.normal b] := by simpa using heq
  obtain ⟨rfl, hlast⟩ := List.append_inj' heq rfl
  obtain rfl : last = b := by simpa using hlast
  obtain ⟨ns, rfl, rfl⟩ := resolveWith_append_below (h.leads hno hτ) h.links hres
  exact ⟨ns ++ [n], by simp [toName?_eq_some hb], by simp⟩

/-- A file that is made or emptied below. -/
theorem createFile_wp (h : Grown tops d t₀ w.fs) {b : Bytes} {bs : List Bytes}
    (hb : ∀ n : Name, n.val = b → tops n) :
    (k.createFile (τ ++ (b :: bs).map .normal)).wp
      (fun p w' => Grown tops d t₀ w'.fs ∧ ∃ n r nd, n.val :: r.map Subtype.val = b :: bs ∧
        p = d ++ n :: r ∧ w.fs.isBranch p = false ∧ (nd.content = .file [] ∨ nd.isSpecial = true) ∧
        ∀ x, w'.fs.get x = if x = p then some nd else w.fs.get x)
      (fun _ w' => Grown tops d t₀ w'.fs) w := by
  have hfile : ∀ mode, Special (.file (k.fileMode 0o666) .owner mode) = 0 := fun _ =>
    special_and _ _ _ (by decide)
  rw [createFile, checkPath, Act.wp_bind, Act.wp_ite]
  refine ⟨fun _ => h, fun _ => ?_⟩
  rw [Act.wp_pure, Act.wp_bind, Act.wp_get, Act.wp_bind]
  cases hres : k.resolveNew w.fs (τ ++ (b :: bs).map .normal) with
  | error e => exact h
  | ok p =>
    obtain ⟨ns, hns, rfl⟩ := resolveNew_below (h.leads hno hτ) h.links (by simp) hres
    obtain ⟨n, r, rfl, hval, hr⟩ := List.map_eq_cons_iff.1 hns
    rw [Act.lift_ok, Act.wp_pure]
    split
    · exact h
    · next last hlast =>
      rw [Act.wp_bind]
      have hp : (d ++ n :: r).dropLast ++ [last] = d ++ n :: r :=
        List.dropLast_append_getLast? last hlast
      refine Act.wp_mono (createTrunc_spec _ last 0o666 w) ?_ ?_
      · rintro _ w' ⟨t, nd, rfl, -, hnd, ht⟩
        rw [hp] at hnd ht
        refine ⟨@Grown.put _ _ _ _ _ h n r (hb n hval) nd ?_ ?_ ?_ ht, n, r, nd, by rw [hval, hr], rfl, ?_, ?_, ht⟩
        · rcases hnd with ⟨-, rfl⟩ | ⟨old, -, -, hsym, rfl⟩
          · rfl
          · cases old <;> first | rfl | exact hsym
        · rcases hnd with ⟨-, rfl⟩ | ⟨old, hold, -, -, rfl⟩
          · exact Or.inl (hfile _)
          · exact Or.inr ⟨old, hold, by cases old <;> rfl⟩
        · intro hspecial
          rcases hnd with ⟨-, rfl⟩ | ⟨old, hold, -, -, rfl⟩
          · cases hspecial
          · cases old with
            | special s => exact hold
            | _ => cases hspecial
        · rw [Bool.eq_false_iff]
          intro hbranch
          obtain ⟨old', hold', hdir'⟩ := (PathTree.isBranch_iff _).1 hbranch
          rcases hnd with ⟨hnone, -⟩ | ⟨old, hold, hdir, -, -⟩
          · rw [hnone] at hold'
            cases hold'
          · rw [hold] at hold'
            obtain rfl := Option.some.inj hold'
            rw [hdir] at hdir'
            cases hdir'
        · rcases hnd with ⟨-, rfl⟩ | ⟨old, -, hdir, hsym, rfl⟩
          · exact Or.inl rfl
          · cases old with
            | dir m u => cases hdir
            | symlink target => cases hsym
            | file m u c => exact Or.inl rfl
            | special s => exact Or.inr rfl
      · rintro e w' rfl
        exact h

/-- The mode of a file below. -/
theorem setPermissions_wp (h : Grown tops d t₀ w.fs) {b : Bytes} {bs : List Bytes}
    (hb : ∀ n : Name, n.val = b → tops n) (mode : ℕ) :
    (k.setPermissions (τ ++ (b :: bs).map .normal) (mode &&& 0o777)).wp
      (fun _ w' => Grown tops d t₀ w'.fs ∧ ∃ ns : List Name, ns.map Subtype.val = b :: bs ∧
        ∀ x, w'.fs.get x =
          if x = d ++ ns then (w.fs.get x).map (Node.setMode (mode &&& 0o777)) else w.fs.get x)
      (fun _ w' => Grown tops d t₀ w'.fs) w := by
  rw [setPermissions, checkPath, Act.wp_bind, Act.wp_ite]
  refine ⟨fun _ => h, fun _ => ?_⟩
  rw [Act.wp_pure, Act.wp_bind, Act.wp_get, Act.wp_bind]
  cases hres : k.resolve w.fs (τ ++ (b :: bs).map .normal) with
  | error e => exact h
  | ok p =>
    rw [resolve, if_neg (by simp)] at hres
    obtain ⟨ns, hns, rfl⟩ := resolveWith_append_below (h.leads hno hτ) h.links hres
    obtain ⟨n, r, rfl, hval, -⟩ := List.map_eq_cons_iff.1 hns
    rw [Act.lift_ok, Act.wp_pure]
    refine Act.wp_mono (chmod_spec _ _ w) ?_ ?_
    · rintro _ w' ⟨t, rfl, ht⟩
      refine ⟨h.modify (hb n hval) (f := Node.setMode (mode &&& 0o777)) ?_ ?_ ?_ ht, n :: r, hns, ht⟩
      · rintro (_ | _ | _ | _) <;> rfl
      · rintro (_ | _ | _ | _)
        · exact Or.inl (special_of_permissions mode)
        · exact Or.inl (special_of_permissions mode)
        · exact Or.inr rfl
        · exact Or.inr rfl
      · rintro (_ | _ | _ | _) hs
        · cases hs
        · cases hs
        · cases hs
        · rfl
    · rintro e w' rfl
      exact h

theorem createDir_wp (h : Grown tops d t₀ w.fs) {path : PathBuf} (hpath : Reaches tops τ path) :
    (k.createDir path).wp
      (fun _ w' => Grown tops d t₀ w'.fs ∧ Extends w.fs w'.fs ∧ ∀ bs, bs ≠ [] → path = τ ++ bs.map .normal →
        ∃ ns : List Name, ns.map Subtype.val = bs ∧ w'.fs.isBranch (d ++ ns) = true)
      (fun _ w' => w'.fs = w.fs) w := by
  rw [createDir, checkPath, Act.wp_bind, Act.wp_ite]
  refine ⟨fun _ => rfl, fun _ => ?_⟩
  rw [Act.wp_pure, Act.wp_bind, Act.wp_get, Act.wp_bind]
  cases hsite : k.site w.fs path with
  | error e => rfl
  | ok place =>
    obtain ⟨p, n⟩ := place
    rw [Act.lift_ok, Act.wp_pure]
    refine Act.wp_mono (mkdir_spec p n 0o777 w) ?_ fun e w' h' => by rw [h'.1]; rfl
    rintro _ w' ⟨t, rfl, -, hfree, ht⟩
    rcases hpath with ⟨ρ, hρ⟩ | ⟨b, bs, rfl, hb⟩
    · have hsome := site_above hno hτ h hρ hsite
      rw [hfree] at hsome
      cases hsome
    obtain ⟨ns, hns, heq⟩ := site_below hno hτ h (by simp) hsite
    obtain ⟨m, r, rfl, hval, -⟩ := List.map_eq_cons_iff.1 hns
    rw [heq] at hfree ht
    refine ⟨h.put (hb m hval) rfl (Or.inl (special_and _ _ _ (by decide))) (fun hs => by cases hs) ht,
      fun x hx => ?_,
      fun bs' _ hbs' => ⟨m :: r, ?_, ?_⟩⟩
    · rw [World.turn_fs, ht, if_neg]
      rintro rfl
      rw [hfree] at hx
      cases hx
    · have hinj := List.append_cancel_left hbs'
      exact hns.trans ((List.map_injective_iff.2 fun _ _ h => Component.normal.inj h) hinj)
    · exact (PathTree.isBranch_iff _).2 ⟨_, (ht _).trans (if_pos rfl), rfl⟩

theorem pathIsDir_wp (h : Grown tops d t₀ w.fs) (path : PathBuf) :
    (k.pathIsDir path).wp
      (fun dir w' => w'.fs = w.fs ∧ (dir = true → ∀ bs, bs ≠ [] → path = τ ++ bs.map .normal →
        ∃ ns : List Name, ns.map Subtype.val = bs ∧ w.fs.isBranch (d ++ ns) = true))
      (fun _ w' => w'.fs = w.fs) w := by
  rw [pathIsDir, Act.wp_bind, Act.wp_get]
  split
  · exact ⟨rfl, fun h => by cases h⟩
  · next p hres =>
    rw [Act.wp_bind, Act.wp_attempt]
    refine Act.wp_mono (k.query_spec _ _ w) ?_ fun _ _ h => ⟨by rw [h.1]; rfl, fun h => by cases h⟩
    rintro dir w' ⟨rfl, hdir⟩
    refine ⟨rfl, fun hd bs hbs hpath => ?_⟩
    split_ifs at hres
    subst hpath
    rw [resolve, if_neg (by simp [hbs])] at hres
    obtain ⟨ns, hns, rfl⟩ := resolveWith_append_below (h.leads hno hτ) h.links hres
    exact ⟨ns, hns, (Except.ok.inj hdir).trans hd⟩

/-- The directories on the way to a path, and the path. -/
theorem createDirAll_wp (h : Grown tops d t₀ w.fs) {path : PathBuf} (hpath : Reaches tops τ path) :
    (k.createDirAll path).wp
      (fun _ w' => Grown tops d t₀ w'.fs ∧ Extends w.fs w'.fs ∧ ∀ bs, bs ≠ [] → path = τ ++ bs.map .normal →
        ∃ ns : List Name, ns.map Subtype.val = bs ∧ w'.fs.isBranch (d ++ ns) = true)
      (fun _ w' => Grown tops d t₀ w'.fs) w := by
  let Q : Tree → PathBuf → Unit → World → Prop := fun t path _ w' =>
    Grown tops d t₀ w'.fs ∧ Extends t w'.fs ∧ ∀ bs, bs ≠ [] → path = τ ++ bs.map .normal →
      ∃ ns : List Name, ns.map Subtype.val = bs ∧ w'.fs.isBranch (d ++ ns) = true
  -- what a call that failed asks last
  have hdir : ∀ (path : PathBuf) (e : Errno) (t : Tree) (w : World), Grown tops d t₀ w.fs →
      Extends t w.fs → (do if ← k.pathIsDir path then pure () else Act.fail e : Act World Errno Unit).wp
        (Q t path) (fun _ w' => Grown tops d t₀ w'.fs) w := by
    intro path e t w h hadd
    rw [Act.wp_bind]
    refine Act.wp_mono (pathIsDir_wp hno hτ h path) ?_ fun _ _ h' => by rw [h']; exact h
    rintro dir w' ⟨h', hd⟩
    rw [Act.wp_ite]
    refine ⟨fun htrue => ?_, fun _ => by rw [Act.wp_fail, h']; exact h⟩
    rw [Act.wp_pure]
    exact ⟨by rwa [h'], by rwa [h'], by rw [h']; exact hd htrue⟩
  have hrev : ∀ (rev : PathBuf) (w : World), Grown tops d t₀ w.fs → Reaches tops τ rev.reverse →
      (k.createDirAllRev rev).wp (Q w.fs rev.reverse) (fun _ w' => Grown tops d t₀ w'.fs) w := by
    intro rev
    induction rev with
    | nil => exact fun w h _ => ⟨h, Extends.refl _, fun bs hbs heq => absurd heq.symm (by simp [hbs])⟩
    | cons c above ih =>
      intro w h hreach
      have habove : Reaches tops τ above.reverse := by
        rw [List.reverse_cons] at hreach
        exact hreach.dropLast
      rw [createDirAllRev, Act.wp_bind, Act.wp_attempt]
      refine Act.wp_mono (createDir_wp hno hτ h hreach) (fun _ w' h' => h') ?_
      intro e w' h'
      have hg' : Grown tops d t₀ w'.fs := h'.symm ▸ h
      have hadd : Extends w.fs w'.fs := h'.symm ▸ Extends.refl _
      dsimp only
      rw [Act.wp_ite]
      refine ⟨fun _ => ?_, fun _ => hdir _ _ _ _ hg' hadd⟩
      split
      · exact hg'
      · rw [Act.wp_bind]
        refine Act.wp_mono (ih w' hg' habove) ?_ fun _ _ h => h
        rintro _ w'' ⟨hg'', hadd', -⟩
        rw [Act.wp_bind, Act.wp_attempt]
        refine Act.wp_mono (createDir_wp hno hτ hg'' hreach)
          (fun _ _ h => ⟨h.1, (hadd.trans hadd').trans h.2.1, h.2.2⟩) fun e w₃ h₃ => ?_
        have hsame : w''.fs = w₃.fs := h₃.symm
        exact hdir _ _ _ _ (hsame ▸ hg'') (hsame ▸ hadd.trans hadd')
  have := hrev path.reverse w h (by rwa [List.reverse_reverse])
  rwa [List.reverse_reverse] at this

end

/-- The contents of a file below. -/
theorem write_wp (h : Grown tops d t₀ w.fs) {n : Name} {r : Path} (hn : tops n) (new : Bytes) :
    (k.write (d ++ n :: r) new).wp
      (fun _ w' => Grown tops d t₀ w'.fs ∧ ∀ x, w'.fs.get x =
        if x = d ++ n :: r then (w.fs.get x).map (Node.append new) else w.fs.get x)
      (fun _ w' => Grown tops d t₀ w'.fs) w := by
  have hmodify : ∀ {t : Tree} {part : Bytes}, (∀ x, t.get x = if x = d ++ n :: r then
      (w.fs.get x).map (Node.append part) else w.fs.get x) → Grown tops d t₀ t := fun ht =>
    h.modify hn (by rintro (_ | _ | _ | _) <;> rfl) (by rintro (_ | _ | _ | _) <;> exact Or.inr rfl)
      (by rintro (_ | _ | _ | _) hs <;> first | rfl | cases hs) ht
  refine Act.wp_mono (k.write_spec _ new w) ?_ ?_
  · rintro _ w' ⟨t, rfl, -, ht⟩
    exact ⟨hmodify ht, ht⟩
  · rintro e w' ⟨t, part, rfl, ht⟩
    exact hmodify ht

end

end Aurade.Fs.Kernel
