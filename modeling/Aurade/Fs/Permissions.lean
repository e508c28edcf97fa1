import Aurade.Fs.Resolve

/-!
# A kernel that goes by the modes

`Kernel.byModes` refuses a call exactly where the permission bits of the nodes do: to reach a name
its directory must be searchable, to open a node it must be readable, to make or unlink a name the
directory must be writable as well, and a mode is changed by the owner only. It fails in no other
way. Which renames cross a file system, which files can be cloned and the mask are parameters.
-/

namespace Aurade.Fs

/-- Where the triple of bits that applies to the user stands in a mode. -/
def Who.shift : Who → ℕ
  | .owner => 6
  | .group => 3
  | .other => 0

/-- Whether the mode grants the user all of these bits: 4 to read, 2 to write, 1 to search. -/
def Node.may (bits : ℕ) : Node → Bool
  | .dir m u | .file m u _ => decide ((m >>> u.shift) &&& bits = bits)
  | .symlink _ | .special _ => true

/-- The permission bits of a node. -/
def Node.perm : Node → ℕ
  | .dir m _ | .file m _ _ => m &&& 0o7777
  | .symlink _ | .special _ => 0o777

/-- What a faithful copy keeps of a node: its kind and contents, and its permission bits. -/
def Node.likeness (nd : Node) : Node.Content × ℕ := (nd.content, nd.perm)

namespace Tree

/-- Whether the node at the place grants the bits. Where there is none, nothing is in the way. -/
def may (t : Tree) (p : Path) (bits : ℕ) : Bool := (t.get p).all (Node.may bits)

/-- The same of the directory that holds the place. -/
def mayIn (t : Tree) (p : Path) (bits : ℕ) : Bool := p == [] || t.may p.dropLast bits

end Tree

namespace Kernel

/-- What the modes let through. -/
def allows (t : Tree) : Op → Bool
  | .stat p | .readlink p => t.mayIn p 1
  | .open p => t.mayIn p 1 && t.may p 4
  | .list p => t.may p 5
  | .create p | .mkdir p | .symlink p => t.mayIn p (if (t.get p).isSome then 1 else 3)
  | .unlink p | .rmdir p => t.mayIn p 3
  | .rename p q => t.mayIn p 3 && t.mayIn q 3
  | .chmod p =>
    match t.get p with
    | some (.dir _ u) | some (.file _ u _) => u == .owner
    | _ => true
  | .read _ | .write _ | .clone _ _ => true

/-- The kernel that refuses what the modes do not let through, and nothing else. -/
def byModes (umask levels : ℕ) (crosses clones : Path → Path → Bool) : Kernel where
  refuse _ op t := if allows t op then none else some .acces
  refuse_ne_xdev _ op t := by split <;> simp
  search _ nd := nd.may 1
  crosses := crosses
  clones := clones
  wrote _ := 0
  umask := umask
  usage _ _ := none
  levels := levels

variable {umask levels : ℕ} {crosses clones : Path → Path → Bool}

@[simp] theorem byModes_refuse_eq_none {c : ℕ} {op : Op} {t : Tree} :
    (byModes umask levels crosses clones).refuse c op t = none ↔ allows t op = true := by
  simp [byModes]

theorem mayIn_concat (t : Tree) (p : Path) (n : Name) (bits : ℕ) :
    t.mayIn (p ++ [n]) bits = t.may p bits := by
  simp [Tree.mayIn]

theorem may_mono {nd : Node} {bits bits' : ℕ} (hb : bits &&& bits' = bits')
    (h : nd.may bits = true) : nd.may bits' = true := by
  have hand : ∀ m : ℕ, m &&& bits = bits → m &&& bits' = bits' := by
    intro m hm
    rw [← hb, ← Nat.and_assoc, hm]
  cases nd with
  | dir m u => exact decide_eq_true (hand _ (of_decide_eq_true h))
  | file m u b => exact decide_eq_true (hand _ (of_decide_eq_true h))
  | symlink target => rfl
  | special kind => rfl

theorem tree_may_mono {t : Tree} {p : Path} {bits bits' : ℕ} (hb : bits &&& bits' = bits')
    (h : t.may p bits = true) : t.may p bits' = true := by
  unfold Tree.may at h ⊢
  cases hget : t.get p with
  | none => rfl
  | some nd =>
    rw [hget] at h
    exact may_mono hb h

theorem may_of_searchable {t : Tree} {d : Path}
    (h : (byModes umask levels crosses clones).Searchable t d) : t.mayIn d 1 = true := by
  rcases List.eq_nil_or_concat d with rfl | ⟨p, n, rfl⟩
  · rfl
  · have := h p n (by rw [List.concat_eq_append])
    rw [List.concat_eq_append, mayIn_concat, Tree.may]
    cases hget : t.get p with
    | none => rfl
    | some nd => simpa [hget, byModes] using this

end Kernel

end Aurade.Fs
