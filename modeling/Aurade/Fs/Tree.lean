import Aurade.Foundations.PathTree
import Aurade.Fs.Path

/-!
# The file tree

The tree a process sees: directories, regular files, symlinks and the nodes that are none of these.
A `Tree` is a `PathTree` of nodes, so a state in which something lies below a file, or a directory
holds one name twice, cannot be built. The functions here are what the calls of the kernel do to it
when they are let through: each answers with the errno of the manual page or the new tree, and comes
with one lemma saying what a success means at every path (`add_ok`, `remove_ok`, `rename_ok`,
`modify_ok`).
-/

namespace Aurade.Fs

/-- The numbers a failed call can answer with, by name. -/
inductive Errno
  | perm | noent | io | acces | exist | xdev | notdir | isdir | inval | mfile | nospc | rofs
  | nametoolong | notempty | loop
  deriving DecidableEq

/-- Which of the three permission triples of a node applies to the user the program runs as. -/
inductive Who
  | owner | group | other
  deriving DecidableEq

/-- The nodes that are neither directory, regular file nor symlink. -/
inductive Special
  | fifo | socket | charDevice | blockDevice
  deriving DecidableEq

/-- A node. The target of a symlink is stored as it was given. -/
inductive Node
  | dir (mode : ℕ) (who : Who)
  | file (mode : ℕ) (who : Who) (bytes : Bytes)
  | symlink (target : Bytes)
  | special (kind : Special)
  deriving DecidableEq

namespace Node

def isDir : Node → Bool
  | dir .. => true
  | _ => false

def isSymlink : Node → Bool
  | symlink _ => true
  | _ => false

def isSpecial : Node → Bool
  | special _ => true
  | _ => false

/-- Regular files and symlinks. -/
def isLeaf : Node → Bool
  | file .. | symlink _ => true
  | _ => false

/-- What of a node does not depend on its permissions: its kind, and its contents or target. -/
inductive Content
  | dir
  | file (bytes : Bytes)
  | symlink (target : Bytes)
  | special (kind : Special)
  deriving DecidableEq

def content : Node → Content
  | dir .. => .dir
  | file _ _ b => .file b
  | symlink t => .symlink t
  | special k => .special k

/-- The node with bytes written at the end of it, where it is a regular file. -/
def append (new : Bytes) : Node → Node
  | file m w b => file m w (b ++ new)
  | n => n

/-- The regular file with its contents replaced. -/
def setBytes (new : Bytes) : Node → Node
  | file m w _ => file m w new
  | n => n

/-- The directory or file with its permission bits replaced. -/
def setMode (m : ℕ) : Node → Node
  | dir _ w => dir m w
  | file _ w b => file m w b
  | n => n

@[simp] theorem isDir_append (new : Bytes) (n : Node) : (n.append new).isDir = n.isDir := by
  cases n <;> rfl

@[simp] theorem isDir_setBytes (new : Bytes) (n : Node) : (n.setBytes new).isDir = n.isDir := by
  cases n <;> rfl

@[simp] theorem isDir_setMode (m : ℕ) (n : Node) : (n.setMode m).isDir = n.isDir := by
  cases n <;> rfl

@[simp] theorem content_setMode (m : ℕ) (n : Node) : (n.setMode m).content = n.content := by
  cases n <;> rfl

end Node

/-- `FileType::from_raw_mode`, as far as the program tells types apart. -/
inductive FileType
  | directory | regular | symlink | other
  deriving DecidableEq

/-- What `statat` answers. -/
structure Stat where
  type : FileType
  mode : ℕ
  size : ℕ
  deriving DecidableEq

/-- The answer of `statat` about a node. A symlink has all its permission bits, and its target's
length as size. -/
def Node.stat : Node → Stat
  | dir m _ => ⟨.directory, m, 0⟩
  | file m _ b => ⟨.regular, m, b.length⟩
  | symlink t => ⟨.symlink, 0o777, t.length⟩
  | special _ => ⟨.other, 0o644, 0⟩

/-- The tree a process sees. -/
abbrev Tree := PathTree Name Node Node.isDir

namespace Tree

variable {t t' : Tree}

/-- There is no place at which both trees have a node and the nodes differ. -/
def Agree (t t' : Tree) : Prop := ∀ x nd nd', t.get x = some nd → t'.get x = some nd' → nd' = nd

/-- `mkdirat`, `symlinkat` and an exclusive create: a new node under a name that is free. -/
def add (t : Tree) (p : Path) (n : Name) (node : Node) : Except Errno Tree :=
  if hp : t.isBranch p = true then
    if hfree : t.get (p ++ [n]) = none then .ok (t.insert p n node hp hfree)
    else .error .exist
  else if t.get p = none then .error .noent
  else .error .notdir

/-- `unlinkat`, of an empty directory when `dir` is set and of anything else when it is not. -/
def remove (t : Tree) (p : Path) (n : Name) (dir : Bool) : Except Errno Tree :=
  match t.get (p ++ [n]) with
  | none => .error .noent
  | some node =>
    if node.isDir = true ∧ dir = false then .error .isdir
    else if node.isDir = false ∧ dir = true then .error .notdir
    else if h : t.names (p ++ [n]) = [] then .ok (t.erase (p ++ [n]) (by simp) h)
    else .error .notempty

/-- Take the subtree at `p` to `q ++ [m]`, where that place is free. -/
def place (t : Tree) (p : Path) (q : Path) (m : Name) : Except Errno Tree :=
  if h : p ≠ [] ∧ t.isBranch q = true ∧ t.get (q ++ [m]) = none ∧ ¬ p <+: q then
    .ok (t.move p q m h.1 h.2.1 h.2.2.1 h.2.2.2)
  else .error .inval

/-- `renameat`: a node that is in the way is replaced without a word, when it is no directory and
neither is the node that moves, or when both are directories and it is empty. -/
def rename (t : Tree) (p : Path) (n : Name) (q : Path) (m : Name) : Except Errno Tree :=
  match t.get (p ++ [n]) with
  | none => .error .noent
  | some node =>
    if t.isBranch q = false then .error (if t.get q = none then .noent else .notdir)
    else if p ++ [n] = q ++ [m] then .ok t
    else if p ++ [n] <+: q then .error .inval
    else match t.get (q ++ [m]) with
    | none => t.place (p ++ [n]) q m
    | some old =>
      if node.isDir = true ∧ old.isDir = false then .error .notdir
      else if node.isDir = false ∧ old.isDir = true then .error .isdir
      else if h : t.names (q ++ [m]) = [] then
        place (t.erase (q ++ [m]) (by simp) h) (p ++ [n]) q m
      else .error .notempty

/-- A change to one node that leaves directories directories. -/
def modify (t : Tree) (p : Path) (f : Node → Node) (hf : ∀ n, (f n).isDir = n.isDir) :
    Except Errno Tree :=
  if (t.get p).isSome then .ok (t.update p f hf) else .error .noent

/-- The tree of these nodes, each listed after the directory it is in; what cannot be added is
left out. -/
def ofList (nodes : List (Path × Node)) : Tree :=
  nodes.foldl (fun t e =>
    match e.1.getLast? with
    | some n => (t.add e.1.dropLast n e.2).toOption.getD t
    | none => t) (PathTree.single (.dir 0o755 .owner) rfl)

theorem add_ok {p : Path} {n : Name} {node : Node} (h : t.add p n node = .ok t') :
    t.isBranch p = true ∧ t.get (p ++ [n]) = none ∧
      ∀ x, t'.get x = if x = p ++ [n] then some node else t.get x := by
  unfold add at h
  split at h
  · next hp =>
    split at h
    · next hfree =>
      obtain rfl := Except.ok.inj h
      exact ⟨hp, hfree, t.get_insert hp hfree⟩
    · simp at h
  · split at h <;> simp at h

theorem remove_ok {p : Path} {n : Name} {dir : Bool} (h : t.remove p n dir = .ok t') :
    (∃ node, t.get (p ++ [n]) = some node ∧ node.isDir = dir) ∧ t.names (p ++ [n]) = [] ∧
      ∀ x, t'.get x = if x = p ++ [n] then none else t.get x := by
  unfold remove at h
  split at h
  · simp at h
  · next node hget =>
    split at h
    · simp at h
    · next h1 =>
      split at h
      · simp at h
      · next h2 =>
        split at h
        · next hleaf =>
          obtain rfl := Except.ok.inj h
          refine ⟨⟨node, hget, ?_⟩, hleaf, t.get_erase _ hleaf⟩
          cases hd : node.isDir <;> cases dir <;> simp_all
        · simp at h

theorem place_ok {p q : Path} {m : Name} (h : t.place p q m = .ok t') :
    t.isBranch q = true ∧ t.get (q ++ [m]) = none ∧ ¬ p <+: q ∧
      ∀ x, t'.get x = if q ++ [m] <+: x then t.get (p ++ x.drop (q ++ [m]).length)
        else if p <+: x then none else t.get x := by
  unfold place at h
  split at h
  · next hc =>
    obtain rfl := Except.ok.inj h
    obtain ⟨hp, hq, hfree, hpq⟩ := hc
    refine ⟨hq, hfree, hpq, fun x => ?_⟩
    split
    · next hx =>
      obtain ⟨r, rfl⟩ := hx
      rw [PathTree.get_move_append, List.drop_left]
    · next hx =>
      split
      · next hx' => exact t.get_move_below hp hq hfree hpq hx' hx
      · next hx' => exact t.get_move_outside hp hq hfree hpq hx' hx
  · simp at h

/-- **What a successful `renameat` did**: nothing, when both paths are one; otherwise the subtree is
at its new place, on which there was nothing or one node of its own sort with nothing below. -/
theorem rename_ok {p q : Path} {n m : Name} (h : t.rename p n q m = .ok t') :
    (∃ node, t.get (p ++ [n]) = some node ∧
      ∀ old, t.get (q ++ [m]) = some old → old.isDir = node.isDir) ∧ t.isBranch q = true ∧
    (p ++ [n] = q ++ [m] ∧ t' = t ∨
      ¬ p ++ [n] <+: q ++ [m] ∧ t.names (q ++ [m]) = [] ∧
      ∀ x, t'.get x = if q ++ [m] <+: x then t.get (p ++ [n] ++ x.drop (q ++ [m]).length)
        else if p ++ [n] <+: x then none else t.get x) := by
  unfold rename at h
  split at h
  · simp at h
  next node hget =>
  split at h
  · simp at h
  next hq =>
  have hq : t.isBranch q = true := by simpa using hq
  split at h
  · next heq =>
    refine ⟨⟨node, hget, fun old ho => ?_⟩, hq, Or.inl ⟨heq, (Except.ok.inj h).symm⟩⟩
    rw [← heq, hget] at ho
    rw [Option.some.inj ho]
  next hne =>
  split at h
  · simp at h
  next hpq =>
  have hnot : ¬ p ++ [n] <+: q ++ [m] := by
    intro hpre
    rcases List.prefix_concat_iff.1 hpre with heq | hpre
    · exact hne heq
    · exact hpq hpre
  split at h
  · next hfree =>
    obtain ⟨-, -, -, hx⟩ := place_ok h
    refine ⟨⟨node, hget, by simp [hfree]⟩, hq, Or.inr ⟨hnot, ?_, hx⟩⟩
    exact t.names_eq_nil_iff.2 fun r _ => t.get_append_of_none hfree r
  next old hold =>
  split at h
  · simp at h
  next h1 =>
  split at h
  · simp at h
  next h2 =>
  split at h
  · next hleaf =>
    obtain ⟨-, -, -, hx⟩ := place_ok h
    have hsort : old.isDir = node.isDir := by
      cases hd : node.isDir <;> cases ho : old.isDir <;> simp_all
    refine ⟨⟨node, hget, fun old' ho => ?_⟩, hq, Or.inr ⟨hnot, hleaf, fun x => ?_⟩⟩
    · rw [hold] at ho
      rw [← Option.some.inj ho, hsort]
    · -- the node in the way is not in the subtree that moves, nor above it
      rw [hx]
      have herase : ∀ y, y ≠ q ++ [m] →
          (t.erase (q ++ [m]) (by simp) hleaf).get y = t.get y := fun y hy => by
        rw [PathTree.get_erase, if_neg hy]
      split
      · refine herase _ fun hy => hnot ⟨_, hy⟩
      · next hx' =>
        split
        · rfl
        · exact herase _ fun hy => hx' (hy ▸ List.prefix_rfl)
  · simp at h

/-- A removed node is no longer listed, and the listings keep their order. -/
theorem names_remove {p : Path} {n : Name} {dir : Bool} (h : t.remove p n dir = .ok t') (q : Path) :
    t'.names q = (t.names q).filter fun c => q ++ [c] ≠ p ++ [n] := by
  unfold remove at h
  split at h
  · simp at h
  · split at h
    · simp at h
    · split at h
      · simp at h
      · split at h
        · next hleaf =>
          obtain rfl := Except.ok.inj h
          exact t.names_erase _ hleaf q
        · simp at h

/-- What no directory is and goes to a free name is no longer listed where it was, and all listings
but the one it comes to keep their order. -/
theorem names_rename {p q : Path} {n m : Name} (h : t.rename p n q m = .ok t')
    (hfree : t.get (q ++ [m]) = none) (hleaf : t.isBranch (p ++ [n]) = false) {r : Path}
    (hr : r ≠ q) : t'.names r = (t.names r).filter fun c => r ++ [c] ≠ p ++ [n] := by
  unfold rename at h
  split at h
  · simp at h
  next node hget =>
  split at h
  · simp at h
  split at h
  · next heq =>
    rw [heq, hfree] at hget
    simp at hget
  split at h
  · simp at h
  rw [hfree] at h
  simp only [place] at h
  split at h
  · next hc =>
    obtain rfl := Except.ok.inj h
    exact t.names_move hc.1 hc.2.1 hc.2.2.1 hc.2.2.2 hleaf hr
  · simp at h

/-- No rename within one tree answers EXDEV. -/
theorem rename_ne_xdev {p q : Path} {n m : Name} : t.rename p n q m ≠ .error .xdev := by
  have hplace : ∀ (u : Tree) (x : Path), u.place x q m ≠ .error .xdev := by
    intro u x
    unfold place
    split <;> simp
  unfold rename
  split
  · simp
  · split
    · split <;> simp
    · split
      · simp
      · split
        · simp
        · split
          · exact hplace _ _
          · split
            · simp
            · split
              · simp
              · split
                · exact hplace _ _
                · simp

theorem modify_ok {p : Path} {f : Node → Node} {hf : ∀ n, (f n).isDir = n.isDir}
    (h : t.modify p f hf = .ok t') :
    (t.get p).isSome ∧ ∀ x, t'.get x = if x = p then (t.get x).map f else t.get x := by
  unfold modify at h
  split at h
  · next hp =>
    obtain rfl := Except.ok.inj h
    exact ⟨hp, t.get_update p f hf⟩
  · simp at h

/-! ## When the calls succeed -/

theorem add_eq_ok {p : Path} {n : Name} (node : Node) (hp : t.isBranch p = true)
    (hfree : t.get (p ++ [n]) = none) : ∃ t', t.add p n node = .ok t' :=
  ⟨_, by rw [add, dif_pos hp, dif_pos hfree]⟩

theorem remove_eq_ok {p : Path} {n : Name} {node : Node} (hget : t.get (p ++ [n]) = some node)
    (hleaf : t.names (p ++ [n]) = []) : ∃ t', t.remove p n node.isDir = .ok t' := by
  refine ⟨t.erase (p ++ [n]) (by simp) hleaf, ?_⟩
  rw [remove, hget]
  simp only [hleaf, dite_true]
  cases node.isDir <;> simp

theorem modify_eq_ok {p : Path} {f : Node → Node} (hf : ∀ n, (f n).isDir = n.isDir)
    (hp : (t.get p).isSome) : ∃ t', t.modify p f hf = .ok t' :=
  ⟨_, by rw [modify, if_pos hp]⟩

/-- A free place outside the subtree can be renamed to. -/
theorem rename_eq_ok {p q : Path} {n m : Name} (hget : (t.get (p ++ [n])).isSome)
    (hq : t.isBranch q = true) (hfree : t.get (q ++ [m]) = none) (hpq : ¬ p ++ [n] <+: q) :
    ∃ t', t.rename p n q m = .ok t' := by
  obtain ⟨node, hnode⟩ := Option.isSome_iff_exists.1 hget
  have hne : p ++ [n] ≠ q ++ [m] := fun h => by rw [h, hfree] at hnode; simp at hnode
  refine ⟨t.move (p ++ [n]) q m (by simp) hq hfree hpq, ?_⟩
  rw [rename, hnode]
  simp only [hq, if_neg hne, if_neg hpq, hfree, Bool.true_eq_false, if_false]
  rw [place, dif_pos ⟨by simp, hq, hfree, hpq⟩]

end Tree

end Aurade.Fs
