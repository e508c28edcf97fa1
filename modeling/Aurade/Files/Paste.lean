import Aurade.Foundations.Chars
import Mathlib.Data.List.Induction
import Mathlib.Data.List.Nodup
import Mathlib.Logic.Function.Basic

/-!
# Pasting

`paste` of the Files page's `__liveOp`, against any folder, any answers of the person and any course
of the jobs. Names the folder is seen to hold are asked about; the items are then grouped by the
answers, and every group is one request and one job.

`Asks`, `Once`, `Stops` and `Clears` are what a paste should keep to. The second always holds. The
others hold exactly as long as the folder could be read and no two items meet, no job is cancelled
with another to come, and none goes wrong half way.
-/

namespace Aurade.Files.Paste

/-! ## The data -/

/-- `FSOP_CHOICES`. -/
inductive Choice
  | keepBoth | replace | skip
  deriving DecidableEq

/-- A row of the dialog: what was chosen, and the name typed, if any. -/
structure Row where
  choice : Choice
  name : Option Str

structure Clip where
  moving : Bool
  paths : List Str
  deriving DecidableEq

/-- The items with one answer, in the order of the clipboard. -/
structure Group where
  mode : Option Choice
  paths : List Str
  deriving DecidableEq

/-- The body of `/api/move` or `/api/copy`. -/
structure Request where
  moving : Bool
  dest : Str
  paths : List Str
  conflict : Option Choice
  names : List (Str × Str)
  deriving DecidableEq

/-- How `runJob` ends. -/
inductive End
  | finished
  /-- It returns, the job having been cancelled. -/
  | cancelled
  /-- It throws. -/
  | failed
  deriving DecidableEq

structure Outcome where
  ended : End
  /-- The items that were moved or copied. -/
  done : List Str

/-- What a paste meets. -/
structure Setting where
  /-- The names in the folder. -/
  entries : List Str
  /-- `/api/list` answers in time. -/
  listed : Bool
  /-- What the person answers, asked about these names and told how many others there are. -/
  dialog : List Str → ℕ → Option (List Row)
  /-- The course of each request's job; no two requests of a paste are the same. -/
  job : Request → Outcome

/-- What a paste comes to. -/
structure Pasted where
  sent : List (Request × Outcome)
  clip : Option Clip

/-! ## The paste -/

/-- `p.split('/').pop()` -/
def leaf (p : Str) : Str := (p.splitOn '/').getLast?.getD []

def namesIn (s : Setting) : List Str := if s.listed then s.entries else []

/-- `modeOf` and `nameOf`. -/
structure Answers where
  modeOf : Str → Option Choice
  nameOf : Str → Option Str

def Answers.none : Answers := ⟨fun _ => .none, fun _ => .none⟩

/-- A row read into the answers: a name counts where there is one. -/
def Answers.add (a : Answers) (p : Str) (row : Row) : Answers where
  modeOf := Function.update a.modeOf p (some row.choice)
  nameOf := if row.name.any (· ≠ []) then Function.update a.nameOf p row.name else a.nameOf

def answers (clashing : List Str) (rows : List Row) : Answers :=
  (clashing.zip rows).foldl (fun a r => a.add r.1 r.2) .none

/-- An item put with the others of its mode. -/
def put (mode : Option Choice) (p : Str) : List Group → List Group
  | [] => [⟨mode, [p]⟩]
  | g :: gs => if g.mode = mode then ⟨mode, g.paths ++ [p]⟩ :: gs else g :: put mode p gs

def groups (a : Answers) (paths : List Str) : List Group :=
  paths.foldl (fun gs p =>
    if a.modeOf p = some .skip then gs else put (a.modeOf p) p gs) []

def request (c : Clip) (dir : Str) (a : Answers) (g : Group) : Request where
  moving := c.moving
  dest := dir
  paths := g.paths
  conflict := g.mode
  names := g.paths.filterMap fun p => (a.nameOf p).map (p, ·)

/-- The jobs one after another, until one throws. -/
def runJobs (job : Request → Outcome) : List Request → List (Request × Outcome) × Bool
  | [] => ([], true)
  | r :: rs =>
    if (job r).ended = .failed then ([(r, job r)], false)
    else ((r, job r) :: (runJobs job rs).1, (runJobs job rs).2)

/-- The answers that the paste goes by, unless there is nothing to paste or the dialog is closed. -/
def ask (s : Setting) (c : Clip) : Option Answers :=
  if c.paths = [] then none else
  let taken := namesIn s
  let clashing := c.paths.filter (taken.contains <| leaf ·)
  if clashing = [] then some .none else
  (s.dialog (clashing.map leaf) (c.paths.length - clashing.length)).map (answers clashing)

def requests (c : Clip) (dir : Str) (a : Answers) : List Request :=
  (groups a c.paths).map (request c dir a)

/-- `__liveOp('paste')`. -/
def paste (s : Setting) (dir : Str) (clip : Option Clip) : Pasted :=
  match clip with
  | none => ⟨[], none⟩
  | some c =>
    match ask s c with
    | none => ⟨[], some c⟩
    | some a =>
      let (sent, all) := runJobs s.job (requests c dir a)
      ⟨sent, if all then none else some c⟩

/-! ## The groups -/

section

variable {mode k : Option Choice} {p q : Str} {gs : List Group}

theorem mem_put : (∃ g ∈ put mode p gs, g.mode = k ∧ q ∈ g.paths) ↔
    (∃ g ∈ gs, g.mode = k ∧ q ∈ g.paths) ∨ k = mode ∧ q = p := by
  induction gs with
  | nil => simp [put, eq_comm]
  | cons g gs ih =>
    rw [put]
    split_ifs with h
    · subst h
      simp only [List.exists_mem_cons_iff, List.mem_append, List.mem_singleton]
      grind
    · rw [List.exists_mem_cons_iff, List.exists_mem_cons_iff, ih, or_assoc]

theorem modes_put : (put mode p gs).map (·.mode) =
    if mode ∈ gs.map (·.mode) then gs.map (·.mode) else gs.map (·.mode) ++ [mode] := by
  induction gs with
  | nil => rfl
  | cons g gs ih =>
    rw [put]
    by_cases h : g.mode = mode
    · simp [h]
    · rw [if_neg h, List.map_cons, ih, List.map_cons]
      have hmem : mode ∈ g.mode :: gs.map (·.mode) ↔ mode ∈ gs.map (·.mode) := by
        rw [List.mem_cons, or_iff_right (Ne.symm h)]
      split_ifs with h₁ h₂ h₂
      · rfl
      · exact absurd (hmem.2 h₁) h₂
      · exact absurd (hmem.1 h₂) h₁
      · rfl

theorem nodup_put (h : (gs.map (·.mode)).Nodup) : ((put mode p gs).map (·.mode)).Nodup := by
  rw [modes_put]
  split_ifs with hmem
  · exact h
  · exact List.concat_eq_append ▸ List.Nodup.concat hmem h

/-- The groups hold every item that is not skipped under its answer, and no answer has two. -/
theorem groups_spec (a : Answers) (paths : List Str) :
    (∀ k q, (∃ g ∈ groups a paths, g.mode = k ∧ q ∈ g.paths) ↔
      q ∈ paths ∧ a.modeOf q = k ∧ k ≠ some .skip) ∧
    ((groups a paths).map (·.mode)).Nodup := by
  induction paths using List.reverseRecOn with
  | nil => simp [groups]
  | append_singleton paths p ih =>
    rw [groups, List.foldl_append, ← groups, List.foldl_cons, List.foldl_nil]
    split_ifs with hskip
    · refine ⟨fun k q => ?_, ih.2⟩
      rw [ih.1, List.mem_append, List.mem_singleton]
      grind
    · refine ⟨fun k q => ?_, nodup_put ih.2⟩
      rw [mem_put, ih.1, List.mem_append, List.mem_singleton]
      grind

end

/-! ## The jobs -/

section

variable {job : Request → Outcome} {rs : List Request}

/-- The requests that are made: up to the first whose job throws. -/
def reached (job : Request → Outcome) : List Request → List Request
  | [] => []
  | r :: rs => if (job r).ended = .failed then [r] else r :: reached job rs

theorem runJobs_fst : (runJobs job rs).1 = (reached job rs).map fun r => (r, job r) := by
  induction rs with
  | nil => rfl
  | cons r rs ih =>
    rw [runJobs, reached]
    split_ifs
    · rfl
    · rw [List.map_cons, ih]

theorem runJobs_snd : (runJobs job rs).2 = true ↔ ∀ r ∈ rs, (job r).ended ≠ .failed := by
  induction rs with
  | nil => simp [runJobs]
  | cons r rs ih =>
    rw [runJobs, List.forall_mem_cons]
    split_ifs with h
    · simp [h]
    · simp [h, ih]

theorem reached_of_ok (h : ∀ r ∈ rs, (job r).ended ≠ .failed) : reached job rs = rs := by
  induction rs with
  | nil => rfl
  | cons r rs ih =>
    rw [List.forall_mem_cons] at h
    rw [reached, if_neg h.1, ih h.2]

theorem reached_append {before after : List Request}
    (h : ∀ r ∈ before, (job r).ended ≠ .failed) :
    reached job (before ++ after) = before ++ reached job after := by
  induction before with
  | nil => rfl
  | cons r before ih =>
    rw [List.forall_mem_cons] at h
    rw [List.cons_append, reached, if_neg h.1, ih h.2, List.cons_append]

variable (job rs) in
theorem reached_prefix : ∃ rest, rs = reached job rs ++ rest := by
  induction rs with
  | nil => exact ⟨[], rfl⟩
  | cons r rs ih =>
    obtain ⟨rest, hrest⟩ := ih
    rw [reached]
    split_ifs
    · exact ⟨rs, rfl⟩
    · exact ⟨rest, by rw [List.cons_append, ← hrest]⟩

/-- The requests made are the first of them, and only the last of those made can have failed. -/
theorem reached_split {before after : List Request} {r : Request}
    (h : reached job rs = before ++ r :: after) :
    (∀ x ∈ before, (job x).ended ≠ .failed) ∧ ∃ rest, rs = before ++ r :: (after ++ rest) := by
  induction rs generalizing before with
  | nil => cases before <;> cases h
  | cons x rs ih =>
    rw [reached] at h
    split_ifs at h with hx
    · cases before with
      | nil =>
        obtain ⟨rfl, rfl⟩ := List.cons.inj h
        exact ⟨fun _ h => (by cases h), rs, rfl⟩
      | cons y before => cases before <;> cases (List.cons.inj h).2
    · cases before with
      | nil =>
        obtain ⟨rfl, rfl⟩ := List.cons.inj h
        obtain ⟨rest, hrest⟩ := reached_prefix job rs
        exact ⟨fun _ h => (by cases h), rest, by rw [List.nil_append, ← hrest]⟩
      | cons y before =>
        obtain ⟨rfl, htail⟩ := List.cons.inj h
        obtain ⟨hbefore, rest, hrest⟩ := ih htail
        exact ⟨List.forall_mem_cons.2 ⟨hx, hbefore⟩, rest, by rw [hrest]; rfl⟩

theorem exists_failed : (∃ r ∈ reached job rs, (job r).ended = .failed) ↔
    ∃ r ∈ rs, (job r).ended = .failed := by
  induction rs with
  | nil => rfl
  | cons r rs ih =>
    rw [reached, List.exists_mem_cons_iff]
    split_ifs with h
    · simp [h]
    · rw [List.exists_mem_cons_iff, ih]

end

/-! ## What a paste should keep to -/

/-- The name an item lands under, its own or the typed one. -/
def Answers.lands (a : Answers) (p : Str) : Str := (a.nameOf p).getD (leaf p)

/-- The name is free for the item: no entry has it, and no other item that is sent lands there. -/
def Free (s : Setting) (c : Clip) (a : Answers) (p : Str) : Prop :=
  a.lands p ∉ s.entries ∧ ∀ q ∈ c.paths, q ≠ p → a.modeOf q ≠ some .skip → a.lands q ≠ a.lands p

/-- The item has been moved or copied. -/
def Done (sent : List (Request × Outcome)) (p : Str) : Prop :=
  ∃ e ∈ sent, p ∈ e.1.paths ∧ p ∈ e.2.done

/-- No taken name without an answer, no item twice, no request after a cancelled job, and the
clipboard left with what there is still to do. -/
structure Careful (s : Setting) (c : Clip) (a : Answers) (r : Pasted) : Prop where
  asks : ∀ e ∈ r.sent, ∀ p ∈ e.1.paths, a.modeOf p = none → Free s c a p
  skips : ∀ e ∈ r.sent, ∀ p ∈ e.1.paths, a.modeOf p ≠ some .skip
  once : r.sent.Pairwise fun e e' => ∀ p ∈ e.1.paths, p ∉ e'.1.paths
  stops : ∀ before e after, r.sent = before ++ e :: after → e.2.ended = .cancelled → after = []
  clears : (∃ e ∈ r.sent, e.2.ended ≠ .finished) →
    ∀ p, (∃ c', r.clip = some c' ∧ p ∈ c'.paths) ↔ p ∈ c.paths ∧ ¬ Done r.sent p

/-- No unanswered item that is sent meets an entry or another item, no job is cancelled with another
to come, nothing has been done when a job fails, and everything when one is cancelled. -/
structure Smooth (s : Setting) (c : Clip) (a : Answers) (rs : List Request) : Prop where
  free : ∀ r ∈ reached s.job rs, r.conflict = none → ∀ p ∈ c.paths, a.modeOf p = none → Free s c a p
  last : ∀ before r after, rs = before ++ r :: after → (∀ x ∈ before, (s.job x).ended ≠ .failed) →
    (s.job r).ended = .cancelled → after = []
  unspent : (∃ r ∈ rs, (s.job r).ended = .failed) →
    ∀ r ∈ reached s.job rs, ∀ p ∈ r.paths, p ∉ (s.job r).done
  spent : (∀ r ∈ rs, (s.job r).ended ≠ .failed) → (∃ r ∈ rs, (s.job r).ended = .cancelled) →
    ∀ p ∈ c.paths, ∃ r ∈ rs, p ∈ r.paths ∧ p ∈ (s.job r).done

section

variable {s : Setting} {dir : Str} {c : Clip} {a : Answers}

theorem mem_group {paths : List Str} {g : Group} (hg : g ∈ groups a paths) {p : Str} :
    p ∈ g.paths ↔ p ∈ paths ∧ a.modeOf p = g.mode ∧ g.mode ≠ some .skip := by
  obtain ⟨hmem, hnodup⟩ := groups_spec a paths
  rw [← hmem]
  constructor
  · exact fun hp => ⟨g, hg, rfl, hp⟩
  · rintro ⟨g', hg', hmode, hp⟩
    rwa [List.inj_on_of_nodup_map hnodup hg' hg hmode] at hp

theorem mem_request {r : Request} (hr : r ∈ requests c dir a) {p : Str} :
    p ∈ r.paths ↔ p ∈ c.paths ∧ a.modeOf p = r.conflict ∧ r.conflict ≠ some .skip := by
  obtain ⟨g, hg, rfl⟩ := List.mem_map.1 hr
  exact mem_group hg

variable (c dir a) in
theorem requests_pairwise :
    (requests c dir a).Pairwise fun r r' => ∀ p ∈ r.paths, p ∉ r'.paths := by
  have hmodes : (groups a c.paths).Pairwise fun g g' => g.mode ≠ g'.mode :=
    List.pairwise_map.1 (groups_spec a c.paths).2
  refine List.pairwise_map.2 (hmodes.imp_of_mem fun hg hg' hne p hp hp' => hne ?_)
  exact ((mem_group hg).1 hp).2.1.symm.trans ((mem_group hg').1 hp').2.1

theorem mem_reached {job : Request → Outcome} {rs : List Request} {r : Request}
    (h : r ∈ reached job rs) : r ∈ rs := by
  obtain ⟨rest, hrest⟩ := reached_prefix job rs
  rw [hrest]
  exact List.mem_append_left rest h

variable (dir) in
theorem paste_sent (h : ask s c = some a) : (paste s dir (some c)).sent =
    (reached s.job (requests c dir a)).map fun r => (r, s.job r) := by
  rw [← runJobs_fst]
  simp only [paste, h]

theorem paste_clip (h : ask s c = some a) : (paste s dir (some c)).clip =
    if ∃ r ∈ requests c dir a, (s.job r).ended = .failed then some c else none := by
  have hall : (runJobs s.job (requests c dir a)).2 = true ↔
      ¬ ∃ r ∈ requests c dir a, (s.job r).ended = .failed := by
    rw [runJobs_snd]
    simp only [not_exists, not_and, ne_eq]
  simp only [paste, h]
  split_ifs with h₁ h₂ h₂
  · exact absurd h₂ (hall.1 h₁)
  · rfl
  · rfl
  · exact absurd (hall.2 h₂) h₁

theorem done_iff {sent : List Request} {p : Str} :
    Done (sent.map fun r => (r, s.job r)) p ↔ ∃ r ∈ sent, p ∈ r.paths ∧ p ∈ (s.job r).done := by
  simp [Done]

theorem stops_iff {rs : List Request} :
    (∀ before e after, ((reached s.job rs).map fun r => (r, s.job r)) = before ++ e :: after →
      e.2.ended = .cancelled → after = []) ↔
    ∀ before r after, rs = before ++ r :: after → (∀ x ∈ before, (s.job x).ended ≠ .failed) →
      (s.job r).ended = .cancelled → after = [] := by
  constructor
  · rintro h before r after rfl hbefore hr
    have hnot : (s.job r).ended ≠ .failed := by rw [hr]; decide
    rw [reached_append hbefore, reached, if_neg hnot, List.map_append, List.map_cons] at h
    have hnil := List.map_eq_nil_iff.1 (h _ _ _ rfl hr)
    cases after with
    | nil => rfl
    | cons x after =>
      rw [reached] at hnil
      split_ifs at hnil
  · intro h before e after hsplit he
    obtain ⟨before', tail, hreached, rfl, htail⟩ := List.map_eq_append_iff.1 hsplit
    obtain ⟨r, after', rfl, rfl, rfl⟩ := List.map_eq_cons_iff.1 htail
    obtain ⟨hbefore, rest, hrs⟩ := reached_split hreached
    have hnil := h _ _ _ hrs hbefore he
    rw [(List.append_eq_nil_iff.1 hnil).1, List.map_nil]

theorem asks_iff :
    (∀ r ∈ reached s.job (requests c dir a), ∀ p ∈ r.paths, a.modeOf p = none → Free s c a p) ↔
      ∀ r ∈ reached s.job (requests c dir a), r.conflict = none → ∀ p ∈ c.paths,
        a.modeOf p = none → Free s c a p := by
  refine forall₂_congr fun r hr => ?_
  have hmem := fun p => mem_request (mem_reached hr) (p := p)
  constructor
  · intro h hconf p hp hmode
    exact h p ((hmem p).2 ⟨hp, by rw [hmode, hconf], by rw [hconf]; exact nofun⟩) hmode
  · intro h p hp hmode
    obtain ⟨hp, hconf, -⟩ := (hmem p).1 hp
    exact h (hconf.symm.trans hmode) p hp hmode

theorem clears_iff (h : ask s c = some a) :
    ((∃ r ∈ reached s.job (requests c dir a), (s.job r).ended ≠ .finished) →
      ∀ p, (∃ c', (paste s dir (some c)).clip = some c' ∧ p ∈ c'.paths) ↔ p ∈ c.paths ∧
        ¬ ∃ r ∈ reached s.job (requests c dir a), p ∈ r.paths ∧ p ∈ (s.job r).done) ↔
    ((∃ r ∈ requests c dir a, (s.job r).ended = .failed) →
      ∀ r ∈ reached s.job (requests c dir a), ∀ p ∈ r.paths, p ∉ (s.job r).done) ∧
    ((∀ r ∈ requests c dir a, (s.job r).ended ≠ .failed) →
      (∃ r ∈ requests c dir a, (s.job r).ended = .cancelled) →
      ∀ p ∈ c.paths, ∃ r ∈ requests c dir a, p ∈ r.paths ∧ p ∈ (s.job r).done) := by
  rw [paste_clip h]
  by_cases hfailed : ∃ r ∈ requests c dir a, (s.job r).ended = .failed
  · -- the clipboard stays as it was
    obtain ⟨r₀, hr₀, hended₀⟩ := exists_failed.2 hfailed
    have hbad : ∃ r ∈ reached s.job (requests c dir a), (s.job r).ended ≠ .finished :=
      ⟨r₀, hr₀, by rw [hended₀]; decide⟩
    have hclip : ∀ p, (∃ c', some c = some c' ∧ p ∈ c'.paths) ↔ p ∈ c.paths := fun p => by simp
    rw [if_pos hfailed]
    simp only [hclip, forall_const, hbad, hfailed]
    constructor
    · refine fun hkept => ⟨fun r hr p hp hdone => ?_, fun hnone => ?_⟩
      · have hpaths := ((mem_request (mem_reached hr)).1 hp).1
        exact ((hkept p).1 hpaths).2 ⟨r, hr, hp, hdone⟩
      · obtain ⟨r, hr, hended⟩ := hfailed
        exact absurd hended (hnone r hr)
    · refine fun hun p => ⟨fun hp => ⟨hp, ?_⟩, fun hp => hp.1⟩
      rintro ⟨r, hr, hpr, hdone⟩
      exact hun.1 r hr p hpr hdone
  · -- the clipboard is emptied
    have hok : ∀ r ∈ requests c dir a, (s.job r).ended ≠ .failed := fun r hr he => hfailed ⟨r, hr, he⟩
    have hclip : ∀ p, ¬ ∃ c', (none : Option Clip) = some c' ∧ p ∈ c'.paths := fun p => by simp
    rw [reached_of_ok hok, if_neg hfailed]
    simp only [hclip, false_iff, not_and, not_not, hfailed, IsEmpty.forall_iff,
      true_and]
    refine ⟨fun hkept _ hcan => ?_, fun hspent hbad => hspent hok ?_⟩
    · obtain ⟨r, hr, hended⟩ := hcan
      exact hkept ⟨r, hr, by rw [hended]; decide⟩
    · obtain ⟨r, hr, hended⟩ := hbad
      cases hcases : (s.job r).ended with
      | finished => exact absurd hcases hended
      | cancelled => exact ⟨r, hr, hcases⟩
      | failed => exact absurd hcases (hok r hr)

/-- Nothing is sent and the clipboard stays where there is nothing to paste, or nobody answers. -/
theorem paste_of_ask_none (h : ask s c = none) : paste s dir (some c) = ⟨[], some c⟩ := by
  simp only [paste, h]

end

/-- A folder that cannot be listed and holds `x`, where everything else goes well. -/
def unlisted : Setting where
  entries := ["x".toList]
  listed := false
  dialog := fun _ _ => none
  job := fun r => ⟨.finished, r.paths⟩

end Aurade.Files.Paste
