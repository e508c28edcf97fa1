import Mathlib.Data.List.Basic
import Mathlib.Data.Set.Basic
import Mathlib.Logic.Relation

/-!
# Directories by number

A file system as a list of nodes: a directory holds names with the numbers of other nodes, and a node
keeps its number as long as somebody has it open, whatever happens to the names it was reached by.
`Below fs r d` is a chain of directories from `r` down to `d`.

`Change roots` is what another process may do at any moment, as long as it takes no directory out from
under a root. What is below a root stays below it or is removed (`Change.held`); a directory that was
removed stays so.
-/

namespace Aurade

/-- A node: a directory with its entries, something else, or a directory that was removed. -/
inductive Inode (ν κ : Type)
  | dir (content : κ) (entries : List (ν × ℕ))
  | leaf (content : κ)
  | gone
  deriving DecidableEq

namespace Inode

variable {ν κ : Type}

/-- The directory with one more name. -/
def link (n : ν) (i : ℕ) : Inode ν κ → Inode ν κ
  | dir c es => dir c ((n, i) :: es)
  | x => x

def isDir : Inode ν κ → Bool
  | dir .. => true
  | _ => false

@[simp] theorem isDir_link (n : ν) (i : ℕ) (x : Inode ν κ) : (x.link n i).isDir = x.isDir := by
  cases x <;> rfl

variable [DecidableEq ν]

/-- The directory without a name. -/
def unlink (n : ν) : Inode ν κ → Inode ν κ
  | dir c es => dir c (es.filter fun e => e.1 ≠ n)
  | x => x

/-- What a name stands for. -/
def entry (n : ν) : Inode ν κ → Option ℕ
  | dir _ es => es.lookup n
  | _ => none

/-- A node as it is made: there, and without entries. -/
def IsNew (x : Inode ν κ) : Prop := x ≠ gone ∧ ∀ n, x.entry n = none

@[simp] theorem isDir_unlink (n : ν) (x : Inode ν κ) : (x.unlink n).isDir = x.isDir := by
  cases x <;> rfl

theorem mem_of_entry {n : ν} {i : ℕ} {c : κ} {es : List (ν × ℕ)}
    (h : (dir c es).entry n = some i) : (n, i) ∈ es := by
  rw [entry] at h
  induction es with
  | nil => exact nomatch h
  | cons e es ih =>
    rw [List.lookup_cons] at h
    split at h
    · next heq =>
      rw [eq_of_beq heq, ← Option.some.inj h]
      exact List.mem_cons_self
    · exact List.mem_cons_of_mem e (ih h)

theorem entry_link (n m : ν) (i : ℕ) (x : Inode ν κ) :
    (x.link n i).entry m = if x.isDir ∧ m = n then some i else x.entry m := by
  cases x with
  | dir c es =>
    rw [link, entry, List.lookup_cons]
    by_cases h : m = n
    · simp [h, isDir]
    · simp [h, isDir, entry, beq_false_of_ne h]
  | leaf c => rfl
  | gone => rfl

theorem entry_unlink (n m : ν) (x : Inode ν κ) :
    (x.unlink n).entry m = if m = n then none else x.entry m := by
  cases x with
  | dir c es =>
    rw [unlink, entry, entry]
    induction es with
    | nil => simp
    | cons e es ih =>
      obtain ⟨k, i⟩ := e
      rw [List.filter_cons]
      by_cases hk : k = n
      · rw [if_neg (by simp [hk]), ih, List.lookup_cons]
        by_cases hm : m = n
        · rw [if_pos hm, if_pos hm]
        · have hne : (m == k) = false := beq_false_of_ne fun heq => hm (heq.trans hk)
          rw [if_neg hm, if_neg hm, hne]
      · rw [if_pos (by simpa using hk), List.lookup_cons, ih, List.lookup_cons]
        by_cases hm : m = n
        · have hne : (m == k) = false := beq_false_of_ne fun heq => hk (heq.symm.trans hm)
          rw [if_pos hm, if_pos hm, hne]
        · rw [if_neg hm, if_neg hm]
  | leaf c => exact (ite_self none).symm
  | gone => exact (ite_self none).symm

end Inode

/-- The nodes of a file system, by number. -/
abbrev Inodes (ν κ : Type) : Type := List (Inode ν κ)

namespace Inodes

variable {ν κ : Type} {fs fs' : Inodes ν κ} {d e i x : ℕ}

def isDir (fs : Inodes ν κ) (i : ℕ) : Bool := fs[i]?.any Inode.isDir

/-- A directory that was removed, of which only descriptors are left. -/
def Gone (fs : Inodes ν κ) (i : ℕ) : Prop := fs[i]? = some .gone

theorem isDir_modify {f : Inode ν κ → Inode ν κ} (hf : ∀ x, (f x).isDir = x.isDir) :
    isDir (fs.modify d f) i = fs.isDir i := by
  rw [isDir, isDir, List.getElem?_modify]
  cases fs[i]? with
  | none => rfl
  | some x =>
    by_cases h : d = i
    · simp [h, hf]
    · simp [h]

theorem not_isDir_of_gone (h : fs.Gone i) : fs.isDir i = false := by
  rw [isDir, show fs[i]? = some .gone from h]
  rfl

theorem gone_modify {f : Inode ν κ → Inode ν κ} (hf : f .gone = .gone) (h : fs.Gone i) :
    Gone (fs.modify d f) i := by
  rw [Gone, List.getElem?_modify, show fs[i]? = some .gone from h]
  by_cases hd : d = i
  · simp [hd, hf]
  · simp [hd]

variable [DecidableEq ν] {n m : ν}

/-- What a name in a directory stands for. -/
def entry (fs : Inodes ν κ) (d : ℕ) (n : ν) : Option ℕ := fs[d]?.bind (Inode.entry n)

/-- A directory has an entry for another. -/
def Child (fs : Inodes ν κ) (d c : ℕ) : Prop := (∃ n, fs.entry d n = some c) ∧ fs.isDir c = true

/-- **A chain of directories**, each with an entry for the next. -/
def Below (fs : Inodes ν κ) : ℕ → ℕ → Prop := Relation.ReflTransGen fs.Child

/-- A descriptor of a directory below another, or of one that was removed. -/
def Held (fs : Inodes ν κ) (r d : ℕ) : Prop := fs.Below r d ∨ fs.Gone d

/-! ## What becomes of the entries -/

theorem entry_modify (f : Inode ν κ → Inode ν κ) :
    entry (fs.modify d f) e m = if e = d then fs[d]?.bind fun x => (f x).entry m else fs.entry e m := by
  rw [entry, List.getElem?_modify]
  by_cases h : e = d
  · subst h
    cases fs[e]? <;> simp
  · rw [if_neg h, entry]
    cases fs[e]? with
    | none => rfl
    | some x => simp [Ne.symm h]

theorem entry_link : entry (fs.modify d (.link n i)) e m =
    if e = d ∧ m = n ∧ fs.isDir d then some i else fs.entry e m := by
  rw [entry_modify]
  by_cases h : e = d
  · subst h
    rw [if_pos rfl, entry, isDir]
    cases fs[e]? with
    | none => simp
    | some x => simp [Inode.entry_link, and_comm]
  · rw [if_neg h, if_neg fun hand => h hand.1]

theorem entry_unlink : entry (fs.modify d (.unlink n)) e m =
    if e = d ∧ m = n then none else fs.entry e m := by
  rw [entry_modify]
  by_cases h : e = d
  · subst h
    rw [if_pos rfl, entry]
    cases fs[e]? with
    | none => simp
    | some x => simp [Inode.entry_unlink]
  · rw [if_neg h, if_neg fun hand => h hand.1]

/-- Only a directory has entries. -/
theorem isDir_of_entry (h : fs.entry d n = some i) : fs.isDir d = true := by
  rw [entry, Option.bind_eq_some_iff] at h
  obtain ⟨y, hy, hentry⟩ := h
  rw [isDir, hy]
  cases y with
  | dir c es => rfl
  | leaf c => exact nomatch hentry
  | gone => exact nomatch hentry

/-! ## What other processes do -/

/-- One change of the file system that takes no directory out from under a root: something is made, a
node gets another name or another content, a name or an empty directory is taken away, or a node gets
another place. -/
inductive Change (roots : Set ℕ) : Inodes ν κ → Inodes ν κ → Prop
  | create {fs : Inodes ν κ} {d : ℕ} {n : ν} {x : Inode ν κ} : fs.entry d n = none → x.IsNew →
    Change roots fs ((fs ++ [x]).modify d (.link n fs.length))
  | link {fs : Inodes ν κ} {d i : ℕ} {n : ν} {c : κ} : fs.entry d n = none →
    fs[i]? = some (.leaf c) → Change roots fs (fs.modify d (.link n i))
  | write {fs : Inodes ν κ} {i : ℕ} {c c' : κ} : fs[i]? = some (.leaf c) →
    Change roots fs (fs.set i (.leaf c'))
  | chmod {fs : Inodes ν κ} {i : ℕ} {c c' : κ} {es : List (ν × ℕ)} : fs[i]? = some (.dir c es) →
    Change roots fs (fs.set i (.dir c' es))
  | unlink {fs : Inodes ν κ} {d i : ℕ} {n : ν} {c : κ} : fs.entry d n = some i →
    fs[i]? = some (.leaf c) → Change roots fs (fs.modify d (.unlink n))
  | rmdir {fs : Inodes ν κ} {d i : ℕ} {n : ν} {c : κ} : fs.entry d n = some i →
    fs[i]? = some (.dir c []) → Change roots fs ((fs.modify d (.unlink n)).set i .gone)
  | rename {fs : Inodes ν κ} {d i d' : ℕ} {n m : ν} : fs.entry d n = some i →
    fs.entry d' m = none → fs.isDir d' = true → ¬fs.Below i d' →
    (fs.isDir i = true → ∀ r ∈ roots, fs.Below r d → fs.Below r d') →
    Change roots fs ((fs.modify d (.unlink n)).modify d' (.link m i))

/-- What other processes may have done between two calls. -/
abbrev Changes (roots : Set ℕ) : Inodes ν κ → Inodes ν κ → Prop := Relation.ReflTransGen (Change roots)

section

variable {roots : Set ℕ} {r : ℕ}

/-- Where every entry for a directory stays, what is below another stays so. -/
theorem Below.mono (h : ∀ d c, fs.Child d c → fs'.Child d c) (hx : fs.Below r x) : fs'.Below r x :=
  Relation.ReflTransGen.mono h r x hx

/-- What the entries do not lead out of, nothing below it is outside of. -/
theorem Below.closed {P : ℕ → Prop} (h : ∀ d, P d → ∀ n c, fs.entry d n = some c → P c) (hr : P r)
    (hx : fs.Below r x) : P x := by
  induction hx with
  | refl => exact hr
  | @tail y z _ hchild ih =>
    obtain ⟨⟨n, hn⟩, -⟩ := hchild
    exact h y ih n z hn

/-- An entry is kept that another is put beside. -/
theorem Child.link {d c e : ℕ} {i : ℕ} (hfree : fs.entry e n = none) (h : fs.Child d c) :
    Child (fs.modify e (.link n i)) d c := by
  obtain ⟨⟨m, hm⟩, hc⟩ := h
  refine ⟨⟨m, ?_⟩, by rw [isDir_modify (Inode.isDir_link n i)]; exact hc⟩
  rw [entry_link, if_neg, hm]
  intro hand
  rw [hand.1, hand.2.1, hfree] at hm
  exact nomatch hm

theorem Child.append {d c : ℕ} (x : Inode ν κ) (h : fs.Child d c) : Child (fs ++ [x]) d c := by
  obtain ⟨⟨m, hm⟩, hc⟩ := h
  have hd : d < fs.length := by
    rw [entry, Option.bind_eq_some_iff] at hm
    obtain ⟨y, hy, -⟩ := hm
    exact (List.getElem?_eq_some_iff.1 hy).1
  have hi : c < fs.length := by
    rw [isDir, Option.any_eq_true] at hc
    obtain ⟨y, hy, -⟩ := hc
    exact (List.getElem?_eq_some_iff.1 hy).1
  exact ⟨⟨m, by rw [entry, List.getElem?_append_left hd]; exact hm⟩,
    by rw [isDir, List.getElem?_append_left hi]; exact hc⟩

/-- A new node takes no name in a directory that has it free. -/
theorem entry_append_new {y : Inode ν κ} (hfree : fs.entry d n = none) (hnew : y.IsNew) :
    entry (fs ++ [y]) d n = none := by
  rw [entry, List.getElem?_append]
  split
  · exact hfree
  · cases hlast : [y][d - fs.length]? with
    | none => rfl
    | some z =>
      have hz := List.mem_of_getElem? hlast
      rw [List.mem_singleton.1 hz]
      exact hnew.2 n

/-- An entry is kept where a node gets another content. -/
theorem Child.set {d c i : ℕ} {y y' : Inode ν κ} (hi : fs[i]? = some y)
    (hentry : ∀ n : ν, y'.entry n = y.entry n) (hdir : y'.isDir = y.isDir) (h : fs.Child d c) :
    Child (fs.set i y') d c := by
  obtain ⟨⟨m, hm⟩, hc⟩ := h
  have hlen : i < fs.length := (List.getElem?_eq_some_iff.1 hi).1
  refine ⟨⟨m, ?_⟩, ?_⟩
  · rw [entry, List.getElem?_set]
    by_cases hd : i = d
    · rw [← hd, entry, hi] at hm
      rw [if_pos hd, if_pos (hd ▸ hlen)]
      exact (hentry m).trans hm
    · rw [if_neg hd]
      exact hm
  · rw [isDir, List.getElem?_set]
    by_cases hd : i = c
    · rw [← hd, isDir, hi] at hc
      rw [if_pos hd, if_pos (hd ▸ hlen)]
      exact hdir.trans hc
    · rw [if_neg hd]
      exact hc

/-- An entry is kept that another is taken from beside. -/
theorem Child.unlink {d c e i : ℕ} (hentry : fs.entry e n = some i) (hne : c ≠ i) (h : fs.Child d c) :
    Child (fs.modify e (.unlink n)) d c := by
  obtain ⟨⟨m, hm⟩, hc⟩ := h
  refine ⟨⟨m, ?_⟩, by rw [isDir_modify (Inode.isDir_unlink n)]; exact hc⟩
  rw [entry_unlink, if_neg, hm]
  intro hand
  rw [hand.1, hand.2, hentry] at hm
  exact hne (Option.some.inj hm).symm

/-- A removed directory stays removed. -/
theorem Change.gone (h : Change roots fs fs') (hx : fs.Gone x) : fs'.Gone x := by
  cases h with
  | create =>
    refine gone_modify rfl ?_
    rw [Gone, List.getElem?_append_left (List.getElem?_eq_some_iff.1 hx).1]
    exact hx
  | link => exact gone_modify rfl hx
  | write hi =>
    rw [Gone, List.getElem?_set_ne]
    · exact hx
    · intro heq
      rw [heq, show fs[x]? = some .gone from hx] at hi
      exact nomatch hi
  | chmod hi =>
    rw [Gone, List.getElem?_set_ne]
    · exact hx
    · intro heq
      rw [heq, show fs[x]? = some .gone from hx] at hi
      exact nomatch hi
  | unlink => exact gone_modify rfl hx
  | rmdir _ hi =>
    rw [Gone, List.getElem?_set_ne]
    · exact gone_modify rfl hx
    · intro heq
      rw [heq, show fs[x]? = some .gone from hx] at hi
      exact nomatch hi
  | rename => exact gone_modify rfl (gone_modify rfl hx)

/-- A directory without entries has nothing below it. -/
theorem not_child_of_empty {c : κ} (hi : fs[i]? = some (.dir c [])) (e : ℕ) : ¬fs.Child i e := by
  intro h
  obtain ⟨⟨m, hm⟩, -⟩ := h
  rw [entry, hi] at hm
  exact nomatch hm

/-- Beside an empty directory that is removed, all that is below another stays so. -/
theorem below_rmdir {c : κ} (hentry : fs.entry d n = some i) (hi : fs[i]? = some (.dir c []))
    (hx : fs.Below r x) (hne : x ≠ i) : Below ((fs.modify d (.unlink n)).set i .gone) r x := by
  induction hx with
  | refl => exact Relation.ReflTransGen.refl
  | @tail y x _ hchild ih =>
    have hy : y ≠ i := fun heq => not_child_of_empty hi x (heq ▸ hchild)
    obtain ⟨⟨m, hm⟩, hdir⟩ := hchild.unlink hentry hne
    refine (ih hy).tail ⟨⟨m, ?_⟩, ?_⟩
    · rw [entry, List.getElem?_set_ne (Ne.symm hy)]
      exact hm
    · rw [isDir, List.getElem?_set_ne (Ne.symm hne)]
      exact hdir

/-- **A directory that gets another place takes along what is below it**; where it was below a root,
so is its new place, and all of it is below that root still. -/
theorem below_rename {d' : ℕ} (hentry : fs.entry d n = some i) (hfree : fs.entry d' m = none)
    (hdir : fs.isDir d' = true) (hloop : ¬fs.Below i d')
    (hin : fs.isDir i = true → fs.Below r d → fs.Below r d') (hx : fs.Below r x) :
    Below ((fs.modify d (.unlink n)).modify d' (.link m i)) r x := by
  have hfree' : entry (fs.modify d (.unlink n)) d' m = none := by
    rw [entry_unlink, hfree, ite_self]
  -- all but the one entry for the node itself is kept
  have hkeep : ∀ y z, z ≠ i → fs.Child y z →
      Child ((fs.modify d (.unlink n)).modify d' (.link m i)) y z := fun y z hne hchild =>
    (hchild.unlink hentry hne).link hfree'
  have hbeside : ∀ y, ¬fs.Below i y → fs.Below r y →
      Below ((fs.modify d (.unlink n)).modify d' (.link m i)) r y := by
    intro y hy hbelow
    induction hbelow with
    | refl => exact Relation.ReflTransGen.refl
    | @tail y z _ hchild ih =>
      have hne : z ≠ i := fun heq => hy (heq ▸ Relation.ReflTransGen.refl)
      exact (ih fun hi => hy (hi.tail hchild)).tail (hkeep y z hne hchild)
  induction hx with
  | refl => exact Relation.ReflTransGen.refl
  | @tail y z hbelow hchild ih =>
    by_cases hz : z = i
    · subst hz
      obtain ⟨⟨k, hk⟩, hz⟩ := hchild
      have hz' : isDir (fs.modify d (.unlink n)) z = true := by
        rw [isDir_modify (Inode.isDir_unlink n)]
        exact hz
      by_cases hsame : y = d ∧ k = n
      · -- the entry that went: the node is where it was put, which is beside what is below it
        rw [hsame.1] at hbelow
        refine (hbeside d' hloop (hin hz hbelow)).tail ⟨⟨m, ?_⟩, ?_⟩
        · rw [entry_link, if_pos ⟨rfl, rfl, by rw [isDir_modify (Inode.isDir_unlink n)]; exact hdir⟩]
        · rw [isDir_modify (Inode.isDir_link m z)]
          exact hz'
      · have hold : Child (fs.modify d (.unlink n)) y z :=
          ⟨⟨k, by rw [entry_unlink, if_neg hsame]; exact hk⟩, hz'⟩
        exact ih.tail (hold.link hfree')
    · exact ih.tail (hkeep y z hz hchild)

/-- **What a change leaves of a root**: what is below it stays below it, or is removed. -/
theorem Change.held (h : Change roots fs fs') (hr : r ∈ roots) (hx : fs.Held r x) : fs'.Held r x := by
  rcases hx with hx | hx
  · cases h with
    | create hfree hnew =>
      exact Or.inl (hx.mono fun d c hchild => (hchild.append _).link (entry_append_new hfree hnew))
    | link hfree _ => exact Or.inl (hx.mono fun d c hchild => hchild.link hfree)
    | write hi => exact Or.inl (hx.mono fun d c hchild => hchild.set hi (fun _ => rfl) rfl)
    | chmod hi => exact Or.inl (hx.mono fun d c hchild => hchild.set hi (fun _ => rfl) rfl)
    | unlink hentry hi =>
      refine Or.inl (hx.mono fun d c hchild => hchild.unlink hentry ?_)
      intro heq
      have hdir := hchild.2
      rw [heq, isDir, hi] at hdir
      exact nomatch hdir
    | @rmdir d i n c hentry hi =>
      by_cases hne : x = i
      · refine Or.inr ?_
        have hlen : i < fs.length := (List.getElem?_eq_some_iff.1 hi).1
        rw [hne, Gone, List.getElem?_set_self (by rwa [List.length_modify])]
      · exact Or.inl (below_rmdir hentry hi hx hne)
    | rename hentry hfree hdir hloop hin =>
      exact Or.inl (below_rename hentry hfree hdir hloop (fun hi => hin hi r hr) hx)
  · exact Or.inr (h.gone hx)

/-- The same of all that is done between two calls. -/
theorem Changes.held (h : Changes roots fs fs') (hr : r ∈ roots) (hx : fs.Held r x) :
    fs'.Held r x := by
  induction h with
  | refl => exact hx
  | tail _ hstep ih => exact hstep.held hr ih

/-- What is held and there is below the root. -/
theorem Held.below_of_isDir (h : fs.Held r d) (hdir : fs.isDir d = true) : fs.Below r d := by
  rcases h with h | h
  · exact h
  · rw [not_isDir_of_gone h] at hdir
    exact nomatch hdir

end

end Inodes

end Aurade
