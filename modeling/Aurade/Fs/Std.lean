import Mathlib
import Aurade.Fs.Resolve

/-!
# Calls by path

The functions of `std::fs` that take a path. Each of them follows the path again, in the tree it finds, and
then makes the call on the place it comes to; a path with a null in it is refused before any call. What a
function does is therefore what the call does, at the place where the path leads at that moment.

`resolveNew` is where an open that may create leads: as `resolve`, with links followed to the end, except that
the last name may be free.

A path that goes on from `p` with plain names leads below the place of `p`, as long as nothing below is a
link (`resolveNew_below`); and where `p` leads does not change while the links stay (`resolve_links`).
-/

namespace Aurade.Fs.Kernel

variable (k : Kernel)

/-! ## Following a path to a name that may be free -/

/-- `walk`, where the last name may be free. -/
def walkNew (t : Tree) (follow : Path → PathBuf → Except Errno Path) :
    Path → PathBuf → Except Errno Path
  | cur, [] => .ok cur
  | _, .rootDir :: rest => walkNew t follow [] rest
  | cur, .curDir :: rest => if t.isBranch cur then walkNew t follow cur rest else .error .notdir
  | cur, .parentDir :: rest =>
    if t.isBranch cur then walkNew t follow cur.dropLast rest else .error .notdir
  | cur, .normal b :: rest =>
    if !t.isBranch cur then .error .notdir
    else if !(t.get cur).any (k.search cur) then .error .acces
    else match toName? b with
    | none => .error .inval
    | some n =>
      match t.get (cur ++ [n]) with
      | none => if rest = [] then .ok (cur ++ [n]) else .error .noent
      | some (.symlink target) => follow cur (components target ++ rest)
      | some _ => walkNew t follow (cur ++ [n]) rest

def resolveNewWith (t : Tree) : ℕ → Path → PathBuf → Except Errno Path
  | 0 => k.walkNew t fun _ _ => .error .loop
  | links + 1 => k.walkNew t (resolveNewWith t links)

/-- Where an open that may create leads. -/
def resolveNew (t : Tree) (path : PathBuf) : Except Errno Path :=
  if path = [] then .error .noent else k.resolveNewWith t 40 [] path

/-- The directory and the name that a path ends in; the name is not followed. -/
def site (t : Tree) (path : PathBuf) : Except Errno (Path × Name) :=
  match path.getLast? with
  | some (.normal b) => do
    let p ← k.resolveWith t 40 [] path.dropLast
    if !t.isBranch p then .error .notdir
    else if !(t.get p).any (k.search p) then .error .acces
    else
      match toName? b with
      | none => .error .inval
      | some n => .ok (p, n)
  | none => .error .noent
  | some _ => do
    let _ ← k.resolve t path
    .error .exist

/-! ## The functions -/

/-- The path has a null in it. -/
def hasNull (path : PathBuf) : Bool :=
  path.any fun c => match c with
    | .normal b => decide (0 ∈ b)
    | _ => false

/-- What is asked of every path. -/
def checkPath (path : PathBuf) : Act World Errno Unit :=
  if hasNull path then Act.fail .inval else pure ()

/-- `mkdir` -/
def createDir (path : PathBuf) : Act World Errno Unit := do
  checkPath path
  let w ← Act.get
  let (p, n) ← Act.lift (k.site w.fs path)
  k.mkdir p n 0o777

/-- `Path::is_dir`: a failure is a no. -/
def pathIsDir (path : PathBuf) : Act World Errno Bool := do
  let w ← Act.get
  match if hasNull path then .error .inval else k.resolve w.fs path with
  | .error _ => pure false
  | .ok p =>
    match ← (k.query (.stat p) fun t => .ok (t.isBranch p)).attempt with
    | .ok dir => pure dir
    | .error _ => pure false

/-- `create_dir_all`, of the components of a path from its end. -/
def createDirAllRev : PathBuf → Act World Errno Unit
  | [] => pure ()
  | c :: above => do
    let path := (c :: above).reverse
    match ← (k.createDir path).attempt with
    | .ok () => pure ()
    | .error e =>
      if e = .noent then
        match PathBuf.parent path with
        | none => Act.fail .noent
        | some _ => do
          createDirAllRev above
          match ← (k.createDir path).attempt with
          | .ok () => pure ()
          | .error e => do
            if ← k.pathIsDir path then pure () else Act.fail e
      else do
        if ← k.pathIsDir path then pure () else Act.fail e

/-- `create_dir_all` -/
def createDirAll (path : PathBuf) : Act World Errno Unit := k.createDirAllRev path.reverse

/-- `File::create`: the place of the file that is open. -/
def createFile (path : PathBuf) : Act World Errno Path := do
  checkPath path
  let w ← Act.get
  let p ← Act.lift (k.resolveNew w.fs path)
  match p.getLast? with
  | none => Act.fail .isdir
  | some n => do
    k.createTrunc p.dropLast n 0o666
    pure p

/-- `set_permissions` -/
def setPermissions (path : PathBuf) (mode : ℕ) : Act World Errno Unit := do
  checkPath path
  let w ← Act.get
  let p ← Act.lift (k.resolve w.fs path)
  k.chmod p mode

/-! ## Where the paths lead -/

section

variable {k} {t t' : Tree}

/-- Where both trees have a node, both have the same link or neither has one. -/
def SameLinks (t t' : Tree) : Prop :=
  ∀ x nd nd', t.get x = some nd → t'.get x = some nd' →
    ∀ target, nd = .symlink target ↔ nd' = .symlink target

theorem walk_links {follow follow' : Path → PathBuf → Except Errno Path} (hlinks : SameLinks t t')
    (hfollow : ∀ cur p d d', follow cur p = .ok d → follow' cur p = .ok d' → d' = d) :
    ∀ (p : PathBuf) (cur d d' : Path), k.walk t follow cur p = .ok d →
      k.walk t' follow' cur p = .ok d' → d' = d := by
  intro p
  induction p with
  | nil =>
    intro cur d d' h h'
    rw [← Except.ok.inj h, ← Except.ok.inj h']
  | cons c p ih =>
    intro cur d d' h h'
    cases c with
    | rootDir => exact ih [] d d' h h'
    | curDir =>
      rw [walk] at h h'
      split at h
      · split at h'
        · exact ih _ _ _ h h'
        · cases h'
      · cases h
    | parentDir =>
      rw [walk] at h h'
      split at h
      · split at h'
        · exact ih _ _ _ h h'
        · cases h'
      · cases h
    | normal b =>
      obtain ⟨n, hn, -, -, h⟩ := walk_normal_iff.1 h
      obtain ⟨n', hn', -, -, h'⟩ := walk_normal_iff.1 h'
      obtain rfl : n = n' := Option.some.inj (hn.symm.trans hn')
      rcases h with ⟨target, hget, h⟩ | ⟨nd, hget, hsym, h⟩ <;>
        rcases h' with ⟨target', hget', h'⟩ | ⟨nd', hget', hsym', h'⟩ <;>
        have hsame := hlinks _ _ _ hget hget'
      · obtain rfl : target' = target := by simpa using (hsame target).1 rfl
        exact hfollow _ _ _ _ h h'
      · rw [(hsame target).1 rfl] at hsym'
        cases hsym'
      · rw [(hsame target').2 rfl] at hsym
        cases hsym
      · exact ih _ _ _ h h'

/-- **Where a path leads does not change while the links stay.** -/
theorem resolve_links (hlinks : SameLinks t t') (links : ℕ) (cur : Path) (p : PathBuf) {d d' : Path}
    (h : k.resolveWith t links cur p = .ok d) (h' : k.resolveWith t' links cur p = .ok d') : d' = d := by
  induction links generalizing cur p d d' with
  | zero => exact walk_links hlinks (fun _ _ _ _ h _ => by cases h) p cur d d' h h'
  | succ links ih => exact walk_links hlinks (fun _ _ _ _ h h' => ih _ _ h h') p cur d d' h h'

/-- One step of a walk to a name that may be free. -/
theorem walkNew_normal {follow : Path → PathBuf → Except Errno Path} {cur e : Path} {b : Bytes}
    {rest : PathBuf} (h : k.walkNew t follow cur (.normal b :: rest) = .ok e) :
    ∃ n, toName? b = some n ∧ t.isBranch cur = true ∧ (t.get cur).any (k.search cur) = true ∧
      ((t.get (cur ++ [n]) = none ∧ rest = [] ∧ e = cur ++ [n]) ∨
        (∃ target, t.get (cur ++ [n]) = some (.symlink target) ∧
          follow cur (Fs.components target ++ rest) = .ok e) ∨
        (∃ nd, t.get (cur ++ [n]) = some nd ∧ nd.isSymlink = false ∧
          k.walkNew t follow (cur ++ [n]) rest = .ok e)) := by
  rw [walkNew] at h
  cases hb : t.isBranch cur <;> cases hs : (t.get cur).any (k.search cur) <;> cases hn : toName? b <;>
    simp only [hb, hs, hn, Bool.not_true, Bool.not_false, if_true, Bool.false_eq_true, if_false,
      reduceCtorEq] at h
  next n =>
  refine ⟨n, rfl, rfl, rfl, ?_⟩
  cases hget : t.get (cur ++ [n]) with
  | none =>
    simp only [hget] at h
    split_ifs at h with hrest
    exact Or.inl ⟨rfl, hrest, (Except.ok.inj h).symm⟩
  | some nd =>
    simp only [hget] at h
    cases nd with
    | symlink target => exact Or.inr (Or.inl ⟨target, rfl, h⟩)
    | dir m u => exact Or.inr (Or.inr ⟨_, rfl, rfl, h⟩)
    | file m u c => exact Or.inr (Or.inr ⟨_, rfl, rfl, h⟩)
    | special s => exact Or.inr (Or.inr ⟨_, rfl, rfl, h⟩)

theorem walkNew_append {follow follow' : Path → PathBuf → Except Errno Path}
    {R : Path → PathBuf → Path → Prop} {q : PathBuf} (hq : q ≠ [])
    (hfollow : ∀ cur p e, follow' cur (p ++ q) = .ok e → ∃ d, follow cur p = .ok d ∧ R d q e)
    (hwalk : ∀ d e, k.walkNew t follow' d q = .ok e → R d q e) (e : Path) :
    ∀ (p : PathBuf) (cur : Path), k.walkNew t follow' cur (p ++ q) = .ok e →
      ∃ d, k.walk t follow cur p = .ok d ∧ R d q e := by
  intro p
  induction p with
  | nil => exact fun cur h => ⟨cur, rfl, hwalk _ _ h⟩
  | cons c p ih =>
    intro cur h
    rw [List.cons_append] at h
    cases c with
    | rootDir => exact ih [] h
    | curDir =>
      rw [walkNew] at h
      rw [walk]
      split at h
      · next hb => simpa [hb] using ih cur h
      · cases h
    | parentDir =>
      rw [walkNew] at h
      rw [walk]
      split at h
      · next hb => simpa [hb] using ih cur.dropLast h
      · cases h
    | normal b =>
      obtain ⟨n, hn, hb, hs, ⟨-, hrest, -⟩ | ⟨target, hget, h⟩ | ⟨nd, hget, hsym, h⟩⟩ := walkNew_normal h
      · exact absurd hrest (by simp [hq])
      · rw [← List.append_assoc] at h
        obtain ⟨d, hd, hR⟩ := hfollow _ _ _ h
        exact ⟨d, walk_normal_iff.2 ⟨n, hn, hb, hs, Or.inl ⟨target, hget, hd⟩⟩, hR⟩
      · obtain ⟨d, hd, hR⟩ := ih _ h
        exact ⟨d, walk_normal_iff.2 ⟨n, hn, hb, hs, Or.inr ⟨nd, hget, hsym, hd⟩⟩, hR⟩

theorem resolveNewWith_append (links : ℕ) (cur : Path) (p : PathBuf) {q : PathBuf} (hq : q ≠ [])
    {e : Path} (h : k.resolveNewWith t links cur (p ++ q) = .ok e) :
    ∃ d, k.resolveWith t links cur p = .ok d ∧ ∃ links', k.resolveNewWith t links' d q = .ok e := by
  induction links generalizing cur p e with
  | zero =>
    exact walkNew_append (R := fun d q e => ∃ links', k.resolveNewWith t links' d q = .ok e) hq
      (fun cur p e h => by cases h) (fun d e h => ⟨0, h⟩) e p cur h
  | succ links ih =>
    exact walkNew_append (R := fun d q e => ∃ links', k.resolveNewWith t links' d q = .ok e) hq
      (fun cur p e h => ih cur p h) (fun d e h => ⟨links + 1, h⟩) e p cur h

/-- Nothing below the place is a link. -/
def NoLinks (t : Tree) (d : Path) : Prop := ∀ r target, r ≠ [] → t.get (d ++ r) ≠ some (.symlink target)

theorem noLinks_of_all (h : t.entries.all (fun e => !e.2.isSymlink) = true) (d : Path) : NoLinks t d := by
  intro r target _ hget
  have := List.all_eq_true.1 h _ (t.get_eq_some_iff.1 hget)
  simp [Node.isSymlink] at this

/-- Plain names lead below the place they start from. -/
theorem resolveNewWith_below (links : ℕ) {d : Path} (hno : NoLinks t d) (bs : List Bytes) {r e : Path}
    (h : k.resolveNewWith t links (d ++ r) (bs.map .normal) = .ok e) :
    ∃ ns : List Name, ns.map Subtype.val = bs ∧ e = d ++ r ++ ns := by
  have hwalk : ∀ {follow} (bs : List Bytes) (r : Path),
      k.walkNew t follow (d ++ r) (bs.map .normal) = .ok e →
        ∃ ns : List Name, ns.map Subtype.val = bs ∧ e = d ++ r ++ ns := by
    intro follow bs
    induction bs with
    | nil => exact fun r h => ⟨[], rfl, by simpa using (Except.ok.inj h).symm⟩
    | cons b bs ih =>
      intro r h
      obtain ⟨n, hn, -, -, ⟨-, hrest, rfl⟩ | ⟨target, hget, -⟩ | ⟨nd, -, -, h⟩⟩ := walkNew_normal h
      · obtain rfl : bs = [] := by simpa using hrest
        exact ⟨[n], by simp [toName?_eq_some hn], rfl⟩
      · rw [List.append_assoc] at hget
        exact absurd hget (hno _ target (by simp))
      · rw [List.append_assoc] at h
        obtain ⟨ns, hns, rfl⟩ := ih _ h
        exact ⟨n :: ns, by simp [hns, toName?_eq_some hn], by simp⟩
  cases links with
  | zero => exact hwalk bs r h
  | succ links => exact hwalk bs r h

theorem resolveWith_below (links : ℕ) {d : Path} (hno : NoLinks t d) (bs : List Bytes) {r e : Path}
    (h : k.resolveWith t links (d ++ r) (bs.map .normal) = .ok e) :
    ∃ ns : List Name, ns.map Subtype.val = bs ∧ e = d ++ r ++ ns := by
  have hwalk : ∀ {follow} (bs : List Bytes) (r : Path),
      k.walk t follow (d ++ r) (bs.map .normal) = .ok e →
        ∃ ns : List Name, ns.map Subtype.val = bs ∧ e = d ++ r ++ ns := by
    intro follow bs
    induction bs with
    | nil => exact fun r h => ⟨[], rfl, by simpa using (Except.ok.inj h).symm⟩
    | cons b bs ih =>
      intro r h
      obtain ⟨n, hn, -, -, ⟨target, hget, -⟩ | ⟨nd, -, -, h⟩⟩ := walk_normal_iff.1 h
      · rw [List.append_assoc] at hget
        exact absurd hget (hno _ target (by simp))
      · rw [List.append_assoc] at h
        obtain ⟨ns, hns, rfl⟩ := ih _ h
        exact ⟨n :: ns, by simp [hns, toName?_eq_some hn], by simp⟩
  cases links with
  | zero => exact hwalk bs r h
  | succ links => exact hwalk bs r h

/-- A path that goes on from the path of a place leads below the place, with no links there. -/
theorem resolveNew_below {p : PathBuf} {d : Path} (hp : ∀ d', k.resolveWith t 40 [] p = .ok d' → d' = d)
    (hno : NoLinks t d) {bs : List Bytes} (hbs : bs ≠ []) {e : Path}
    (h : k.resolveNew t (p ++ bs.map .normal) = .ok e) :
    ∃ ns : List Name, ns.map Subtype.val = bs ∧ e = d ++ ns := by
  rw [resolveNew, if_neg (by simp [hbs])] at h
  obtain ⟨d', hd', links, h⟩ := resolveNewWith_append 40 [] p (by simpa using hbs) h
  obtain rfl := hp d' hd'
  simpa using resolveNewWith_below (r := []) links hno bs (by simpa using h)

theorem resolveWith_append_below {p : PathBuf} {d : Path}
    (hp : ∀ d', k.resolveWith t 40 [] p = .ok d' → d' = d) (hno : NoLinks t d) {bs : List Bytes}
    {e : Path} (h : k.resolveWith t 40 [] (p ++ bs.map .normal) = .ok e) :
    ∃ ns : List Name, ns.map Subtype.val = bs ∧ e = d ++ ns := by
  obtain ⟨d', hd', links, h⟩ := resolveWith_append 40 [] p _ h
  obtain rfl := hp d' hd'
  simpa using resolveWith_below (r := []) links hno bs (by simpa using h)

end

end Aurade.Fs.Kernel
