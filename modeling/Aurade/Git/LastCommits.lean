import Mathlib
import Aurade.Fs.Error

/-!
# Last commits

`lastCommit` walks the history for one path and stops at the first commit where what the path names is
not what it was in the commit before. `lastCommits` answers for every child of a folder in one walk: at
each commit it looks at the children that are not resolved yet, in the folder's tree here and in the
commit before, and skips the commit where the two trees are one.

What the two ask at a commit comes to the same, since a name in the folder's tree is what the whole path
names (`idIn_eq`), so the walks agree (`lastCommits_agree`).
-/

namespace Aurade.Git

open Fs

/-! ## What git2 answers -/

/-- An error of git2. -/
inductive GitError
  | notFound (message : Bytes)
  | other (message : Bytes)

/-- Its message. -/
def GitError.message : GitError → Bytes
  | notFound m => m
  | other m => m

/-- An entry of a tree. -/
structure TreeEntry (ω : Type) where
  id : ω
  isTree : Bool

/-- A tree: its id and its entries. -/
structure Tree (ω : Type) where
  id : ω
  entries : List (Bytes × TreeEntry ω)

/-- A commit as it is stored. -/
structure CommitObject (ω : Type) where
  tree : ω
  parents : List ω
  summary : Option Bytes
  author : Option Bytes
  email : Option Bytes
  time : ℤ

/-- A repository: its working tree, its objects, and what a walk from HEAD gives by time. -/
structure Repo (ω : Type) where
  workdir : Option PathBuf
  findTree : ω → Except GitError (Tree ω)
  findCommit : ω → Except GitError (CommitObject ω)
  hex : ω → Bytes
  revwalk : Except GitError Unit := .ok ()
  pushHead : Except GitError Unit
  setSorting : Except GitError Unit := .ok ()
  walk : List (Except GitError ω)

/-- What the last commit that touched a path said. -/
structure Commit where
  sha : Bytes
  shortSha : Bytes
  summary : Bytes
  author : Bytes
  email : Bytes
  time : ℤ
  deriving DecidableEq

/-- `tool`. -/
def tool (e : GitError) : Error := .tool [.str "git"] [.name e.message]

def WALK_LIMIT : ℕ := 4096

section

variable {ω : Type}

/-- `Tree::get_name`. -/
def Tree.getName (t : Tree ω) (name : Bytes) : Option (TreeEntry ω) := t.entries.lookup name

/-- `Tree::get_path`: every name but the last has to be a tree. -/
def Repo.getPath (repo : Repo ω) : Tree ω → PathBuf → Option (TreeEntry ω)
  | t, [.normal name] => t.getName name
  | t, .normal name :: rest => do
    let e ← t.getName name
    if e.isTree then
      match repo.findTree e.id with
      | .ok t' => repo.getPath t' rest
      | .error _ => none
    else none
  | _, _ => none

/-- `Path::strip_prefix`. -/
def stripPrefix (base path : PathBuf) : Option PathBuf :=
  if base <+: path then some (path.drop base.length) else none

/-- The commit as it is told. -/
def commitOf (repo : Repo ω) (oid : ω) (commit : CommitObject ω) : Commit where
  sha := repo.hex oid
  shortSha := (repo.hex oid).take 7
  summary := commit.summary.getD []
  author := commit.author.getD []
  email := commit.email.getD []
  time := commit.time

/-- `commit.parent(0)` and its tree, where there are both. -/
def Repo.parentTree (repo : Repo ω) (commit : CommitObject ω) : Option (Tree ω) := do
  let id ← commit.parents.head?
  let parent ← (repo.findCommit id).toOption
  (repo.findTree parent.tree).toOption

variable [DecidableEq ω]

/-! ## One path -/

/-- The loop of `last_commit`, after `seen` commits. -/
def walkOne (repo : Repo ω) (rel : PathBuf) :
    ℕ → List (Except GitError ω) → Except Error (Option Commit)
  | _, [] => .ok none
  | seen, next :: rest =>
    if WALK_LIMIT ≤ seen then .ok none
    else do
      let oid ← next.mapError tool
      let commit ← (repo.findCommit oid).mapError tool
      let tree ← (repo.findTree commit.tree).mapError tool
      let here := (repo.getPath tree rel).map TreeEntry.id
      -- The first commit has no parent, so anything in it is new.
      let there := (repo.parentTree commit).bind fun t => (repo.getPath t rel).map TreeEntry.id
      if here ≠ there then .ok (some (commitOf repo oid commit)) else walkOne repo rel (seen + 1) rest

/-- `last_commit`. -/
def lastCommit (discover : Except GitError (Repo ω)) (path : PathBuf) : Except Error (Option Commit) := do
  let repo ← discover.mapError tool
  match repo.workdir with
  | none => .ok none
  | some workdir =>
    let rel := (stripPrefix workdir path).getD path
    repo.revwalk.mapError tool
    repo.pushHead.mapError tool
    repo.setSorting.mapError tool
    walkOne repo rel 0 repo.walk

/-! ## A folder -/

/-- The folder's own subtree in a commit, or none when the folder was not there yet. -/
def Repo.subtree (repo : Repo ω) (rel : PathBuf) (tree : Tree ω) : Option ω :=
  if rel = [] then some tree.id else (repo.getPath tree rel).map TreeEntry.id

/-- The tree of this id, where it is one. -/
def Repo.treeOf (repo : Repo ω) (id : Option ω) : Option (Tree ω) :=
  id.bind fun id => (repo.findTree id).toOption

/-- `id_in`. -/
def idIn (t : Option (Tree ω)) (name : Bytes) : Option ω :=
  t.bind fun t => (t.getName name).map TreeEntry.id

/-- The loop of `last_commits`, after `seen` commits, with the children that are not resolved yet. -/
def walkAll (repo : Repo ω) (rel : PathBuf) :
    ℕ → List (Except GitError ω) → List Bytes → Std.ExtTreeMap Bytes Commit →
      Except Error (Std.ExtTreeMap Bytes Commit)
  | _, [], _, out => .ok out
  | seen, next :: rest, pending, out =>
    if WALK_LIMIT ≤ seen ∨ pending = [] then .ok out
    else do
      let oid ← next.mapError tool
      let commit ← (repo.findCommit oid).mapError tool
      let tree ← (repo.findTree commit.tree).mapError tool
      let here := repo.subtree rel tree
      let there := (repo.parentTree commit).bind (repo.subtree rel)
      if here = there then walkAll repo rel (seen + 1) rest pending out
      else
        let touched := pending.filter fun name =>
          idIn (repo.treeOf here) name ≠ idIn (repo.treeOf there) name
        walkAll repo rel (seen + 1) rest (pending.filter (· ∉ touched))
          (touched.foldl (fun out name => out.insert name (commitOf repo oid commit)) out)

/-- `last_commits`, where the folder lists as it does. -/
def lastCommits (discover : Except GitError (Repo ω)) (dir : PathBuf)
    (readDir : Except Errno (List (Except Errno Bytes))) :
    Except Error (Option (Std.ExtTreeMap Bytes Commit)) :=
  match discover with
  | .error (.notFound _) => .ok none
  | .error e => .error (tool e)
  | .ok repo =>
    match repo.workdir with
    | none => .ok none
    | some workdir =>
      match stripPrefix workdir dir with
      | none => .ok none
      | some rel => do
        let entries ← readDir.mapError (.ofErrno [.path dir])
        let pending := ((entries.filterMap Except.toOption).map Utf8.lossy).filter (· ≠ text ".git")
        if pending = [] then .ok (some ∅)
        else do
          repo.revwalk.mapError tool
          match repo.pushHead with
          -- No commits yet: nothing has touched anything.
          | .error _ => .ok (some ∅)
          | .ok () => do
            repo.setSorting.mapError tool
            let out ← walkAll repo rel 0 repo.walk pending ∅
            .ok (some out)

end

/-! ## What the two walks look at -/

section

variable {ω : Type}

/-- git2 returns trees and ids faithfully: a tree has the id it was found under, what an entry calls no tree
is found as none, and everything on the walk is there. -/
structure Repo.Faithful (repo : Repo ω) : Prop where
  id_findTree : ∀ id t, repo.findTree id = .ok t → t.id = id
  isTree : ∀ id t name e, repo.findTree id = .ok t → t.getName name = some e → e.isTree = false →
    ∃ err, repo.findTree e.id = .error err
  revwalk : repo.revwalk = .ok ()
  setSorting : repo.setSorting = .ok ()
  walk : ∀ next ∈ repo.walk, ∃ oid commit tree, next = .ok oid ∧ repo.findCommit oid = .ok commit ∧
    repo.findTree commit.tree = .ok tree

theorem getPath_cons (repo : Repo ω) (t : Tree ω) (name : Bytes) {rest : PathBuf} (hrest : rest ≠ []) :
    repo.getPath t (.normal name :: rest) = (t.getName name).bind fun e =>
      if e.isTree then (repo.findTree e.id).toOption.bind fun t' => repo.getPath t' rest else none := by
  cases rest with
  | nil => exact absurd rfl hrest
  | cons c rest =>
    rw [Repo.getPath]
    · congr 1
      funext e
      split
      · cases repo.findTree e.id <;> rfl
      · rfl
    · simp

/-- The entry of the folder under its first name, where the name is no tree. -/
theorem idIn_first_error {repo : Repo ω} {t : Tree ω} {m : Bytes} {e : TreeEntry ω} {err : GitError}
    (he : t.getName m = some e) (herr : repo.findTree e.id = .error err) (rest : List Bytes) (name : Bytes) :
    idIn (repo.treeOf (repo.subtree ((m :: rest).map .normal) t)) name = none := by
  cases rest with
  | nil => simp [Repo.subtree, Repo.getPath, he, Repo.treeOf, herr, Except.toOption, idIn]
  | cons k rest =>
    have hne : (k :: rest).map Component.normal ≠ [] := by simp
    have hpath := getPath_cons repo t m hne
    rw [he, Option.bind_some, herr] at hpath
    rw [List.map_cons, Repo.subtree, if_neg (by simp), hpath]
    cases e.isTree <;> rfl

/-- What a name is in the folder's tree is what the whole path is. -/
theorem idIn_eq {repo : Repo ω} (h : repo.Faithful) (rel : List Bytes) (name : Bytes) {id : ω} {t : Tree ω}
    (ht : repo.findTree id = .ok t) :
    idIn (repo.treeOf (repo.subtree (rel.map .normal) t)) name =
      (repo.getPath t (rel.map .normal ++ [.normal name])).map TreeEntry.id := by
  induction rel generalizing id t with
  | nil =>
    have hself : repo.findTree t.id = .ok t := by rw [h.id_findTree id t ht, ht]
    simp [Repo.subtree, Repo.treeOf, hself, Except.toOption, idIn, Repo.getPath]
  | cons m rest ih =>
    rw [List.map_cons, List.cons_append, getPath_cons repo t m (by simp), ← List.map_cons]
    cases he : t.getName m with
    | none =>
      have hnone : repo.getPath t ((m :: rest).map .normal) = none := by
        cases rest with
        | nil => exact he
        | cons k rest => rw [List.map_cons, getPath_cons repo t m (by simp), he, Option.bind_none]
      rw [Repo.subtree, if_neg (by simp), hnone]
      rfl
    | some e =>
      rw [Option.bind_some]
      cases htree : e.isTree with
      | false =>
        obtain ⟨err, herr⟩ := h.isTree id t m e ht he htree
        rw [idIn_first_error he herr]
        rfl
      | true =>
        cases hf : repo.findTree e.id with
        | error err =>
          rw [idIn_first_error he hf]
          rfl
        | ok t' =>
          have hsub : repo.subtree ((m :: rest).map .normal) t = repo.subtree (rest.map .normal) t' := by
            rw [Repo.subtree, if_neg (by simp), Repo.subtree]
            cases rest with
            | nil => simp [Repo.getPath, he, h.id_findTree e.id t' hf]
            | cons k rest =>
              rw [List.map_cons, getPath_cons repo t m (by simp), he, Option.bind_some, if_pos htree, hf,
                if_neg (by simp)]
              rfl
          rw [hsub, ih hf]
          rfl

/-- What a name was in the folder's tree, in the commit before. -/
theorem idIn_parent {repo : Repo ω} (h : repo.Faithful) (rel : List Bytes) (name : Bytes)
    (commit : CommitObject ω) :
    idIn (repo.treeOf ((repo.parentTree commit).bind (repo.subtree (rel.map .normal)))) name =
      (repo.parentTree commit).bind fun t =>
        (repo.getPath t (rel.map .normal ++ [.normal name])).map TreeEntry.id := by
  cases ht : repo.parentTree commit with
  | none => rfl
  | some t =>
    obtain ⟨id, -, hparent⟩ := Option.bind_eq_some_iff.1 ht
    obtain ⟨parent, -, htree⟩ := Option.bind_eq_some_iff.1 hparent
    have hfind : repo.findTree parent.tree = .ok t := by
      cases hf : repo.findTree parent.tree with
      | error err => rw [hf] at htree; cases htree
      | ok t' => rw [hf] at htree; cases htree; rfl
    exact idIn_eq h rel name hfind

/-- Putting one commit under many names. -/
theorem getElem?_foldl_insert (names : List Bytes) (c : Commit) (out : Std.ExtTreeMap Bytes Commit)
    (k : Bytes) :
    (names.foldl (fun out name => out.insert name c) out)[k]? = if k ∈ names then some c else out[k]? := by
  induction names generalizing out with
  | nil => simp
  | cons name names ih =>
    rw [List.foldl_cons, ih, Std.ExtTreeMap.getElem?_insert]
    by_cases hk : k ∈ names
    · simp [hk]
    · by_cases hname : name = k
      · simp [hname]
      · have hne : compare name k ≠ .eq := fun hc => hname (Std.LawfulEqCmp.eq_of_compare hc)
        simp [hk, hne, Ne.symm hname]

/-! ## The two walks agree -/

variable [DecidableEq ω]

/-- A step of the walk for one child, told by what the walk for all of them looks at. -/
theorem walkOne_cons {repo : Repo ω} (h : repo.Faithful) (rel : List Bytes) (n : Bytes) {seen : ℕ}
    (hseen : ¬WALK_LIMIT ≤ seen) {oid : ω} {commit : CommitObject ω} {tree : Tree ω}
    (hcommit : repo.findCommit oid = .ok commit) (htree : repo.findTree commit.tree = .ok tree)
    (rest : List (Except GitError ω)) :
    walkOne repo (rel.map .normal ++ [.normal n]) seen (.ok oid :: rest) =
      if idIn (repo.treeOf (repo.subtree (rel.map .normal) tree)) n ≠
          idIn (repo.treeOf ((repo.parentTree commit).bind (repo.subtree (rel.map .normal)))) n then
        .ok (some (commitOf repo oid commit))
      else walkOne repo (rel.map .normal ++ [.normal n]) (seen + 1) rest := by
  rw [walkOne, if_neg hseen, idIn_eq h rel n htree, idIn_parent h rel n commit]
  simp only [Except.mapError, hcommit, htree, bind, Except.bind]

/-- **One walk finds for every child what the walk for it alone finds.** -/
theorem walkAll_spec {repo : Repo ω} (h : repo.Faithful) (rel : List Bytes) (seen : ℕ)
    {walk : List (Except GitError ω)} (hwalk : ∀ next ∈ walk, next ∈ repo.walk) (pending : List Bytes)
    (out : Std.ExtTreeMap Bytes Commit) (hout : ∀ n ∈ pending, out[n]? = none) :
    ∃ m, walkAll repo (rel.map .normal) seen walk pending out = .ok m ∧
      (∀ n ∈ pending, walkOne repo (rel.map .normal ++ [.normal n]) seen walk = .ok m[n]?) ∧
      ∀ n ∉ pending, m[n]? = out[n]? := by
  induction walk generalizing seen pending out with
  | nil =>
    refine ⟨out, rfl, fun n hn => ?_, fun n _ => rfl⟩
    rw [walkOne, hout n hn]
  | cons next rest ih =>
    obtain ⟨oid, commit, tree, rfl, hcommit, htree⟩ := h.walk next (hwalk next List.mem_cons_self)
    have hrest (next : Except GitError ω) (hn : next ∈ rest) : next ∈ repo.walk :=
      hwalk next (List.mem_cons_of_mem _ hn)
    rw [walkAll]
    split
    case isTrue hstop =>
      refine ⟨out, rfl, fun n hn => ?_, fun n _ => rfl⟩
      have hseen : WALK_LIMIT ≤ seen := hstop.resolve_right (List.ne_nil_of_mem hn)
      rw [walkOne, if_pos hseen, hout n hn]
    case isFalse hstop =>
      have hseen : ¬WALK_LIMIT ≤ seen := fun hs => hstop (.inl hs)
      simp only [Except.mapError, hcommit, htree, bind, Except.bind]
      have hone (n : Bytes) := walkOne_cons h rel n hseen hcommit htree rest
      generalize repo.subtree (rel.map .normal) tree = here at hone ⊢
      generalize (repo.parentTree commit).bind (repo.subtree (rel.map .normal)) = there at hone ⊢
      split
      case isTrue hsame =>
        -- The commit left the folder alone, so it left every child alone.
        obtain ⟨m, hm, hpending, hrestOut⟩ := ih (seen + 1) hrest pending out hout
        refine ⟨m, hm, fun n hn => ?_, hrestOut⟩
        rw [hone, hsame, if_neg (by simp)]
        exact hpending n hn
      case isFalse =>
        set touched := pending.filter fun name =>
          idIn (repo.treeOf here) name ≠ idIn (repo.treeOf there) name with htouched
        have hmem (n : Bytes) : n ∈ touched ↔
            n ∈ pending ∧ idIn (repo.treeOf here) n ≠ idIn (repo.treeOf there) n := by
          simp [htouched]
        obtain ⟨m, hm, hpending, hrestOut⟩ := ih (seen + 1) hrest (pending.filter (· ∉ touched))
          (touched.foldl (fun out name => out.insert name (commitOf repo oid commit)) out) fun n hn => by
            have hn' := List.mem_filter.1 hn
            rw [getElem?_foldl_insert, if_neg (by simpa using hn'.2), hout n hn'.1]
        refine ⟨m, hm, fun n hn => ?_, fun n hn => ?_⟩
        · rw [hone]
          split
          case isTrue hne =>
            have htouch : n ∈ touched := (hmem n).2 ⟨hn, hne⟩
            rw [hrestOut n (by simp [htouch]), getElem?_foldl_insert, if_pos htouch]
          case isFalse heq =>
            have huntouched : n ∉ touched := fun ht => heq ((hmem n).1 ht).2
            exact hpending n (List.mem_filter.2 ⟨hn, by simpa using huntouched⟩)
        · have huntouched : n ∉ touched := fun ht => hn ((hmem n).1 ht).1
          rw [hrestOut n fun hf => hn (List.mem_filter.1 hf).1, getElem?_foldl_insert, if_neg huntouched]

theorem stripPrefix_append (base path : PathBuf) : stripPrefix base (base ++ path) = some path := by
  rw [stripPrefix, if_pos (List.prefix_append _ _), List.drop_left]

/-- What is left of the listing of a folder. -/
theorem mem_pending {children : List Bytes} (hutf8 : ∀ n ∈ children, Utf8.valid n = true) (n : Bytes) :
    n ∈ ((((children.map Except.ok : List (Except Errno Bytes)).filterMap Except.toOption).map
      Utf8.lossy).filter (· ≠ text ".git")) ↔ n ∈ children ∧ n ≠ text ".git" := by
  have hok : (children.map Except.ok : List (Except Errno Bytes)).filterMap Except.toOption = children := by
    rw [List.filterMap_map]
    exact List.filterMap_some
  have hlossy : children.map Utf8.lossy = children :=
    (List.map_congr_left fun c hc => Utf8.lossy_eq_self_iff.2 (hutf8 c hc)).trans (List.map_id children)
  rw [hok, hlossy, List.mem_filter, decide_eq_true_eq]

/-- **One walk gives the same last commits as a walk for each row**, in a repository that has a commit: every
child of a folder of the work tree but `.git` is mapped to the commit that `lastCommit` gives, and left out
where it gives none. -/
theorem lastCommits_agree {repo : Repo ω} (h : repo.Faithful) (hhead : repo.pushHead = .ok ())
    {workdir : PathBuf} (hw : repo.workdir = some workdir) (rel : List Bytes) {children : List Bytes}
    (hutf8 : ∀ n ∈ children, Utf8.valid n = true) :
    ∃ m, lastCommits (.ok repo) (workdir ++ rel.map .normal) (.ok (children.map .ok)) = .ok (some m) ∧
      (∀ n ∈ children, n ≠ text ".git" →
        lastCommit (.ok repo) (workdir ++ rel.map .normal ++ [.normal n]) = .ok m[n]?) ∧
      ∀ n, ¬(n ∈ children ∧ n ≠ text ".git") → m[n]? = none := by
  have hmem := mem_pending hutf8
  have hone (n : Bytes) : lastCommit (.ok repo) (workdir ++ rel.map .normal ++ [.normal n]) =
      walkOne repo (rel.map .normal ++ [.normal n]) 0 repo.walk := by
    rw [lastCommit, List.append_assoc]
    simp only [Except.mapError, bind, Except.bind, hw, stripPrefix_append, h.revwalk, hhead, h.setSorting,
      Option.getD_some]
  simp only [lastCommits, hw, stripPrefix_append, Except.mapError, bind, Except.bind, h.revwalk, hhead,
    h.setSorting]
  generalize ((((children.map Except.ok : List (Except Errno Bytes)).filterMap Except.toOption).map
    Utf8.lossy).filter (· ≠ text ".git")) = pending at hmem ⊢
  obtain ⟨m, hm, hpending, hrest⟩ :=
    walkAll_spec h rel 0 (fun _ hn => hn) pending ∅ fun _ _ => Std.ExtTreeMap.getElem?_empty
  split
  case isTrue hnil =>
    refine ⟨∅, rfl, fun n hn hgit => ?_, fun _ _ => Std.ExtTreeMap.getElem?_empty⟩
    exact absurd ((hmem n).2 ⟨hn, hgit⟩) (hnil ▸ List.not_mem_nil)
  case isFalse =>
    refine ⟨m, by rw [hm], fun n hn hgit => ?_, fun n hn => ?_⟩
    · rw [hone]
      exact hpending n ((hmem n).2 ⟨hn, hgit⟩)
    · rw [hrest n fun hp => hn ((hmem n).1 hp)]
      exact Std.ExtTreeMap.getElem?_empty

/-- A repository of one commit, whose tree has two files, one of them called `.git`. -/
def oneCommit : Repo ℕ where
  workdir := some [.rootDir, .normal (text "w")]
  findTree id :=
    if id = 1 then .ok ⟨1, [(text "a", ⟨2, false⟩), (text ".git", ⟨3, false⟩)]⟩ else .error (.notFound [])
  findCommit id :=
    if id = 0 then .ok ⟨1, [], some (text "first"), some (text "x"), some (text "y"), 0⟩
    else .error (.notFound [])
  hex _ := text "0123456789"
  pushHead := .ok ()
  walk := [.ok 0]

theorem oneCommit_faithful : oneCommit.Faithful where
  id_findTree id t ht := by
    simp only [oneCommit] at ht
    split at ht
    case isTrue hid =>
      cases ht
      exact hid.symm
    case isFalse => cases ht
  isTree id t name e ht he _ := by
    simp only [oneCommit] at ht
    split at ht
    case isTrue =>
      cases ht
      obtain ⟨l₁, l₂, hl, -⟩ := List.lookup_eq_some_iff.1 he
      have hmem : (name, e) ∈ [(text "a", (⟨2, false⟩ : TreeEntry ℕ)), (text ".git", ⟨3, false⟩)] := by
        rw [show [(text "a", (⟨2, false⟩ : TreeEntry ℕ)), (text ".git", ⟨3, false⟩)] = _ from hl]
        exact List.mem_append_right _ List.mem_cons_self
      refine ⟨.notFound [], ?_⟩
      rcases List.mem_cons.1 hmem with heq | hmem
      · obtain rfl := (Prod.mk.inj heq).2
        rfl
      · obtain rfl := (Prod.mk.inj (List.mem_singleton.1 hmem)).2
        rfl
    case isFalse => cases ht
  revwalk := rfl
  setSorting := rfl
  walk := by
    intro next hnext
    obtain rfl := List.mem_singleton.1 hnext
    exact ⟨0, _, _, rfl, rfl, rfl⟩

theorem lastCommits_agree_one :
    ∃ m, lastCommits (.ok oneCommit) [.rootDir, .normal (text "w")] (.ok [.ok (text "a")]) =
      .ok (some m) ∧
      lastCommit (.ok oneCommit) [.rootDir, .normal (text "w"), .normal (text "a")] =
        .ok m[text "a"]? := by
  have hutf8 : ∀ n ∈ [text "a"], Utf8.valid n = true := by simp; decide
  obtain ⟨m, hm, hone, -⟩ := lastCommits_agree oneCommit_faithful rfl rfl [] hutf8
  exact ⟨m, hm, hone _ (List.mem_singleton_self _) (by decide)⟩

/-- Where there is no commit, one walk leaves a child out and a walk for it alone fails; and `.git` is left
out though a commit touched an entry of that name. -/
theorem lastCommits_differ :
    (∃ m e, lastCommits (.ok { oneCommit with pushHead := .error (.other []), walk := [] })
        [.rootDir, .normal (text "w")] (.ok [.ok (text "a")]) = .ok (some m) ∧
      m[text "a"]? = none ∧
      lastCommit (.ok { oneCommit with pushHead := .error (.other []), walk := [] })
        [.rootDir, .normal (text "w"), .normal (text "a")] = .error e) ∧
      ∃ m c, lastCommits (.ok oneCommit) [.rootDir, .normal (text "w")] (.ok [.ok (text ".git")]) =
          .ok (some m) ∧
        m[text ".git"]? = none ∧
        lastCommit (.ok oneCommit) [.rootDir, .normal (text "w"), .normal (text ".git")] =
          .ok (some c) :=
  ⟨⟨∅, _, by decide, Std.ExtTreeMap.getElem?_empty, rfl⟩,
    ⟨∅, _, by decide, Std.ExtTreeMap.getElem?_empty, rfl⟩⟩

end

end Aurade.Git
