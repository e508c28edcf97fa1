import Mathlib
import Aurade.Ops.Cleanup

/-!
# What a compress reports

The totals of the reports come from the plan, which walks the sources before anything is written; what is done is
counted by the loop of the writer, which looks at every path again. Between the two nothing but the archive changes,
and the archive was not there to be planned. The loop passes over the base directory itself, and the plan counts it.

* `Counted`: reports that have the totals, keep within them, and never go back. `entries_spec` is the loop, from any
  reports that have got so far (`Reached`).
* `reports_add_up`: the reports of every compress are such, and when one that was not cancelled returns, the newest
  says that all paths but the base are done.
-/

namespace Aurade.Ops.Compress

open Fs

variable {m : Setup} {t₀ : Tree} {s : State} {α β : Type} {ε : Type}

/-- No look at a name is refused. -/
def Steady (env : Surroundings Call Answer) : Prop := ∀ h p, (env h (.lookup p)).refusal = none

theorem Steady.honest {env : Surroundings Call Answer} (h : Steady env) : Honest env :=
  fun l _ p hp _ => absurd (h l p) hp

/-! ## Parts that report nothing -/

/-- Nothing is reported. -/
abbrev Silent (act : Act State ε α) : Prop :=
  Act.Stays (fun s s' : State => s'.vars.seen = s.vars.seen) act

theorem silent_bind {act : Act State ε α} {f : α → Act State ε β} (ha : Silent act) (hf : ∀ a, Silent (f a)) :
    Silent (act >>= f) :=
  Act.Stays.bind (R := fun s s' : State => s'.vars.seen = s.vars.seen) (fun _ _ _ h h' => h'.trans h) ha hf

theorem silent_pure (a : α) : Silent (pure a : Act State ε α) := fun _ => rfl

theorem silent_fail (e : ε) : Silent (Act.fail e : Act State ε α) := fun _ => rfl

/-- A call that reads leaves the variables as they were. -/
theorem vars_query (c : Call) (f : Answer → Tree → Except Errno α) :
    Act.Stays (fun s s' : State => s'.vars = s.vars) (query m c f) :=
  Act.Stays.of_wp fun _ => wp_query (fun _ _ => rfl) (fun _ _ => rfl) fun _ _ => rfl

theorem silent_query (c : Call) (f : Answer → Tree → Except Errno α) : Silent (query m c f) :=
  (vars_query c f).mono fun _ _ h => by rw [h]

theorem silent_change (c : Call) (f : Tree → Except Errno Tree) : Silent (change m c f) := by
  refine silent_bind (fun _ => rfl) fun v => silent_bind (fun _ => rfl) fun t =>
    silent_bind (fun _ => rfl) fun a => ?_
  cases a.refusal with
  | some e => exact silent_fail e
  | none => exact fun _ => rfl

theorem silent_write (p : Path) (content : Bytes) : Silent (write m p content) := by
  refine silent_bind (fun _ => rfl) fun a => ?_
  cases a.refusal with
  | some e => exact silent_bind (fun _ => rfl) fun _ => silent_fail e
  | none => exact fun _ => rfl

theorem silent_isDir (p : Path) : Silent (isDir m p) := by
  refine silent_bind (silent_query _ _).attempt fun r => ?_
  cases r <;> exact silent_pure _

theorem silent_drop (dir : Path) (name : Name) : Silent (drop m dir name) :=
  Act.Stays.of_wp fun s => by
    rw [drop, Act.wp_map, Act.wp_attempt]
    exact Act.wp_mono (Act.Stays.wp (silent_change _ _) s) (fun _ _ h => h) fun _ _ h => h

section

variable {format : Format} {options : Options} {out : Path}

theorem silent_save (items : List Item) (finish : Bool) : Silent (save m format options out items finish) := by
  rw [save]
  split
  · exact silent_fail _
  · exact (silent_write _ _).mapErr _

theorem silent_zipEntry (path : Path) (name : Bytes) (items : List Item) :
    Silent (zipEntry m format options out path name items) := by
  refine silent_bind (silent_isDir path) fun dir => Act.Stays.ite (fun _ => ?_) fun _ => ?_
  · exact silent_bind ((silent_save _ _).mapErr _) fun _ => silent_pure _
  · refine silent_bind ((silent_save _ _).mapErr _) fun _ => ?_
    refine silent_bind ((silent_query _ _).mapErr _) fun _ => ?_
    refine silent_bind ((silent_query _ _).mapErr _) fun content => ?_
    exact silent_bind ((silent_save _ _).mapErr _) fun _ => silent_pure _

theorem silent_sevenZipEntry (path : Path) (name : Bytes) (items : List Item) :
    Silent (sevenZipEntry m format options out path name items) := by
  refine silent_bind (silent_isDir path) fun dir => Act.Stays.ite (fun _ => ?_) fun _ => ?_
  · exact silent_bind ((silent_save _ _).mapErr _) fun _ => silent_pure _
  · refine silent_bind ((silent_query _ _).mapErr _) fun _ => ?_
    refine silent_bind ((silent_query _ _).mapErr _) fun content => ?_
    exact silent_bind ((silent_save _ _).mapErr _) fun _ => silent_pure _

theorem silent_tarEntry (path : Path) (name : Bytes) (items : List Item) :
    Silent (tarEntry m format options out path name items) := by
  refine silent_bind (silent_isDir path) fun dir => Act.Stays.ite (fun _ => ?_) fun _ => ?_
  · exact silent_bind ((silent_save _ _).mapErr _) fun _ => silent_pure _
  · refine silent_bind ((silent_query _ _).mapErr _) fun _ => ?_
    refine silent_bind ((silent_query _ _).mapErr _) fun content => ?_
    exact silent_bind ((silent_save _ _).mapErr _) fun _ => silent_pure _

end

section

variable {dir : Path} {name : Name}

theorem silent_free (names : List Name) : Silent (free m dir names) := by
  induction names with
  | nil => exact silent_pure _
  | cons n names ih =>
    refine silent_bind (silent_query _ _).attempt fun r => ?_
    cases r with
    | ok st => exact silent_fail _
    | error e => exact ih

theorem silent_dropAll (names : List Name) : Silent (dropAll m dir names) := by
  induction names with
  | nil => exact silent_pure _
  | cons n names ih => exact silent_bind (silent_drop dir n) fun _ => ih

theorem silent_partsFrom (part index : ℕ) (names : List Name) :
    Silent (partsFrom m dir name part index names) := by
  induction names generalizing index with
  | nil => exact silent_pure _
  | cons n names ih =>
    refine silent_bind ((silent_change _ _).mapErr _) fun _ => ?_
    refine silent_bind ((silent_query _ _).mapErr _) fun content => ?_
    exact silent_bind ((silent_write _ _).mapErr _) fun _ => ih _

theorem silent_splitFile (part : ℕ) : Silent (splitFile m dir name part) := by
  refine Act.Stays.ite (fun _ => silent_fail _) fun _ => ?_
  refine silent_bind ((silent_query _ _).mapErr _) fun st => ?_
  refine silent_bind (silent_free _) fun _ => silent_bind (Act.Stays.attempt ?_) fun r => ?_
  · exact silent_bind ((silent_query _ _).mapErr _) fun _ => silent_partsFrom _ _ _
  · cases r with
    | error e => exact silent_bind (silent_dropAll _) fun _ => silent_fail _
    | ok u => exact silent_bind ((silent_change _ _).mapErr _) fun _ => silent_pure _

end

/-! ## What is planned -/

/-- What a path counts for. -/
def bytesAt (t : Tree) (p : Path) : ℕ :=
  (t.get p).elim 0 fun nd => if nd.stat.type = .regular then nd.stat.size else 0

def bytesOf (t : Tree) (ps : List Path) : ℕ := (ps.map (bytesAt t)).sum

theorem size_spec (steady : Steady m.env) (p : Path) :
    (size m p).wp (fun b s' => b.getD 0 = bytesAt s.vars.tree p ∧ s'.vars = s.vars) (fun _ _ => False) s := by
  rw [size, Act.wp_bind, Act.wp_attempt]
  refine wp_query (fun e he => ?_) (fun e he => ⟨?_, rfl⟩) fun st hst => ⟨?_, rfl⟩
  · rw [steady] at he
    cases he
  · rw [bytesAt]
    cases hget : s.vars.tree.get p with
    | none => rfl
    | some nd =>
      rw [node, hget] at he
      cases he
  · rw [bytesAt]
    cases hget : s.vars.tree.get p with
    | none =>
      rw [node, hget] at hst
      cases hst
    | some nd =>
      rw [node, hget] at hst
      obtain rfl := Except.ok.inj hst
      rw [Option.elim_some]
      split_ifs <;> rfl

theorem total_spec (steady : Steady m.env) (ps : List Path) :
    (total m ps).wp (fun b s' => b = bytesOf s.vars.tree ps ∧ s'.vars = s.vars) (fun _ _ => False) s := by
  induction ps generalizing s with
  | nil => exact ⟨rfl, rfl⟩
  | cons p ps ih =>
    rw [total, Act.wp_bind]
    refine Act.wp_mono (size_spec steady p) (fun b s₁ h₁ => ?_) fun _ _ h => h
    rw [Act.wp_bind]
    refine Act.wp_mono ih (fun rest s₂ h₂ => ⟨?_, h₂.2.trans h₁.2⟩) fun _ _ h => h
    rw [h₁.1, h₂.1, h₁.2, bytesOf, bytesOf, List.map_cons, List.sum_cons]

/-- What is found is there, and the looking changes nothing. -/
def Finds (act : Act State Error (List Path)) : Prop :=
  ∀ s : State, act.wp (fun ps s' => s'.vars = s.vars ∧ ∀ x ∈ ps, (s.vars.tree.get x).isSome)
    (fun _ s' => s'.vars = s.vars) s

theorem finds_collect {f : α → Act State Error (List Path)} (h : ∀ x, Finds (f x)) (xs : List α) :
    Finds (collect f xs) := by
  induction xs with
  | nil => exact fun s => ⟨rfl, fun x hx => absurd hx List.not_mem_nil⟩
  | cons x xs ih =>
    intro s
    rw [collect, Act.wp_bind]
    refine Act.wp_mono (h x s) (fun ys s₁ h₁ => ?_) fun _ _ h => h
    rw [Act.wp_bind]
    refine Act.wp_mono (ih s₁) (fun rest s₂ h₂ => ⟨h₂.1.trans h₁.1, fun y hy => ?_⟩)
      fun _ _ h => h.trans h₁.1
    rcases List.mem_append.1 hy with hy | hy
    · exact h₁.2 y hy
    · exact h₁.1 ▸ h₂.2 y hy

theorem finds_visit {below : Option (Path → Act State Error (List Path))}
    (h : ∀ f, below = some f → ∀ p, Finds (f p)) (path : Path) : Finds (visit m below path) := by
  intro s
  unfold visit
  rw [Act.wp_bind, at_, Act.wp_mapErr]
  refine wp_query (fun _ _ => rfl) (fun _ _ => rfl) fun st hst => ?_
  have hthere : (s.vars.tree.get path).isSome := by
    cases hget : s.vars.tree.get path with
    | none =>
      rw [node, hget] at hst
      cases hst
    | some nd => rfl
  split
  · cases below with
    | none => exact rfl
    | some f =>
      rw [Act.wp_bind, at_, Act.wp_mapErr]
      refine wp_query (fun _ _ => rfl) (fun _ _ => rfl) fun names _ => ?_
      rw [Act.wp_bind]
      refine Act.wp_mono (finds_collect (fun n => h f rfl _) names _) (fun inside s₁ h₁ => ⟨h₁.1, ?_⟩)
        fun _ _ h => h
      exact List.forall_mem_cons.2 ⟨hthere, h₁.2⟩
  · exact ⟨rfl, fun x hx => absurd hx List.not_mem_nil⟩
  · exact ⟨rfl, fun x hx => by rwa [List.mem_singleton.1 hx]⟩

theorem finds_walk (n : ℕ) (path : Path) : Finds (walk m n path) := by
  induction n generalizing path with
  | zero => exact finds_visit (fun f hf => (by cases hf)) path
  | succ n ih =>
    refine finds_visit (fun f hf p => ?_) path
    obtain rfl := Option.some.inj hf
    exact ih p

/-- The plan counts what is there, and all of it is there. -/
theorem plan_spec (steady : Steady m.env) (sources : List Path) :
    (plan m sources).wp (fun p s' => s'.vars = s.vars ∧ p.bytes = bytesOf s.vars.tree p.paths ∧
      ∀ x ∈ p.paths, (s.vars.tree.get x).isSome) (fun _ s' => s'.vars = s.vars) s := by
  rw [plan, Act.wp_bind]
  refine Act.wp_mono (finds_collect (finds_walk _) sources s) (fun ps s₁ h₁ => ?_) fun _ _ h => h
  rw [Act.wp_bind]
  refine Act.wp_mono (total_spec steady ps) (fun b s₂ h₂ => ?_) fun _ _ h => h.elim
  exact ⟨h₂.2.trans h₁.1, by rw [h₂.1, h₁.1], h₁.2⟩

/-! ## The loop -/

/-- The reports, the newest first: they have the totals, none says more than these, and none less than one before. -/
structure Counted (items bytes : ℕ) (seen : List Progress) : Prop where
  total : ∀ r ∈ seen, r.totalItems = items ∧ r.totalBytes = bytes
  within : ∀ r ∈ seen, r.doneItems ≤ items ∧ r.doneBytes ≤ bytes
  rising : seen.Pairwise fun later earlier =>
    earlier.doneItems ≤ later.doneItems ∧ earlier.doneBytes ≤ later.doneBytes

theorem counted_nil (items bytes : ℕ) : Counted items bytes [] where
  total _ hr := absurd hr List.not_mem_nil
  within _ hr := absurd hr List.not_mem_nil
  rising := List.Pairwise.nil

/-- The progress made, beside what has been reported of it. -/
structure Reached (items bytes : ℕ) (progress : Progress) (done : Done) (seen : List Progress) : Prop where
  counted : Counted items bytes seen
  total : progress.totalItems = items ∧ progress.totalBytes = bytes
  agree : progress.doneItems = done.items ∧ progress.doneBytes = done.bytes
  last : ∀ r, seen.head? = some r → r.doneItems = done.items ∧ r.doneBytes = done.bytes

variable {items bytes : ℕ} {progress : Progress} {done : Done} {seen : List Progress}

/-- No report is above the newest. -/
theorem Reached.below (h : Reached items bytes progress done seen) {r : Progress} (hr : r ∈ seen) :
    r.doneItems ≤ done.items ∧ r.doneBytes ≤ done.bytes := by
  cases seen with
  | nil => cases hr
  | cons newest seen =>
    have hnewest := h.last newest rfl
    rcases List.mem_cons.1 hr with rfl | hr
    · exact ⟨hnewest.1.le, hnewest.2.le⟩
    · have hle := (List.pairwise_cons.1 h.counted.rising).1 r hr
      exact ⟨hle.1.trans hnewest.1.le, hle.2.trans hnewest.2.le⟩

/-- One more report, of progress that is no less. -/
theorem Reached.report (h : Reached items bytes progress done seen) {progress' : Progress} {done' : Done}
    (htotal : progress'.totalItems = items ∧ progress'.totalBytes = bytes)
    (hagree : progress'.doneItems = done'.items ∧ progress'.doneBytes = done'.bytes)
    (hmore : done.items ≤ done'.items ∧ done.bytes ≤ done'.bytes)
    (hwithin : done'.items ≤ items ∧ done'.bytes ≤ bytes) :
    Reached items bytes progress' done' (progress' :: seen) where
  counted := {
    total := List.forall_mem_cons.2 ⟨htotal, h.counted.total⟩
    within := List.forall_mem_cons.2 ⟨by rwa [hagree.1, hagree.2], h.counted.within⟩
    rising := by
      refine List.pairwise_cons.2 ⟨fun r hr => ?_, h.counted.rising⟩
      have hle := h.below hr
      rw [hagree.1, hagree.2]
      exact ⟨hle.1.trans hmore.1, hle.2.trans hmore.2⟩ }
  total := htotal
  agree := hagree
  last r hr := by
    obtain rfl := Option.some.inj hr
    exact hagree

theorem wp_report (rep : Reporter) (p : Progress) (Q : Flow → State → Prop) (E : Error → State → Prop) :
    (report rep p).wp Q E s ↔
      Q (rep (p :: s.vars.seen)) { s with vars := { s.vars with seen := p :: s.vars.seen } } := Iff.rfl

/-- The paths that the loop writes. -/
def entered (base : Path) (paths : List Path) : List Path := paths.filter (· ≠ base)

theorem relative_eq_nil {base path : Path} : relative base path = [] ↔ path = base := by
  rw [relative]
  split_ifs with hbelow hroot
  · obtain ⟨rest, rfl⟩ := hbelow
    rw [List.drop_left]
    cases rest with
    | nil => exact iff_of_true rfl (List.append_nil base)
    | cons n rest =>
      refine iff_of_false (fun h => ?_) (by simp)
      -- the first name is not empty
      cases rest with
      | nil =>
        rw [List.map_singleton, List.intercalate_singleton] at h
        exact n.property.1 h
      | cons n' rest =>
        rw [List.map_cons, List.map_cons, List.intercalate_cons_cons] at h
        exact n.property.1 (List.append_eq_nil_iff.1 (List.append_eq_nil_iff.1 h).1).1
  · exact iff_of_false (by simp) fun h => hbelow (h ▸ List.prefix_rfl)
  · refine iff_of_false (fun h => ?_) fun h => hbelow (h ▸ List.prefix_rfl)
    cases path with
    | nil => exact hroot rfl
    | cons n path => exact absurd h (List.cons_ne_nil _ _)

/-- The reports of a writer that returns: the newest says what is done, and that is all of it unless the writer was
stopped. -/
def Told (t : Tree) (base : Path) (paths : List Path) (done : Done) (seen : List Progress) : Prop :=
  (∀ r, seen.head? = some r → r.doneItems = done.items ∧ r.doneBytes = done.bytes) ∧
    (done.cancelled = false → done.items = (entered base paths).length ∧
      done.bytes = bytesOf t (entered base paths))

section

variable {out base : Path} {rep : Reporter}

/-- A report changes neither the tree nor the calls. -/
theorem Whole.told (hs : Whole t₀ (Just out) s) (seen : List Progress) :
    Whole t₀ (Just out) { s with vars := { s.vars with seen := seen } } :=
  ⟨hs.kept, hs.free, hs.there, hs.only, hs.unremoved⟩

theorem made_of_just (hmade : Made s.history out) : ∀ x, Just out x → Made s.history x := fun x hx => by
  rw [show x = out from hx]
  exact hmade

/-- A path is counted for what the plan has counted it for: nothing but the archive has changed since. -/
theorem counted_spec (steady : Steady m.env) {p : Path} (hp : p ≠ out) (hs : Whole t₀ (Just out) s)
    (hmade : Made s.history out) (h : Reached items bytes progress done s.vars.seen) (hitems : done.items + 1 ≤ items)
    (hbytes : done.bytes + bytesAt t₀ p ≤ bytes) :
    (counted m rep progress done p).wp
      (fun r s' => (Whole t₀ (Just out) s' ∧ Made s'.history out) ∧ Reached items bytes r.1 r.2 s'.vars.seen ∧
        r.2 = { done with items := done.items + 1, bytes := done.bytes + bytesAt t₀ p })
      (fun _ _ => False) s := by
  rw [counted, Act.wp_bind]
  refine Act.wp_mono (Act.wp_and (size_spec steady p)
    (Going.wp (going_size (O := fun _ => False) p) (fun x hx => hx.elim) hs)) (fun b s₁ h₁ => ?_)
    fun _ _ h => h.1.elim
  obtain ⟨⟨hb, hvars⟩, hp₁, hs₁⟩ := h₁
  have hat : b.getD 0 = bytesAt t₀ p := by
    rw [hb, bytesAt, bytesAt, hs.kept p fun hx => hp (hs.only p hx)]
  dsimp only
  rw [Act.wp_bind, wp_report, hat, Act.wp_pure, hvars]
  refine ⟨⟨hvars ▸ hs₁.told _, hmade.mono hp₁⟩, ?_, rfl⟩
  exact h.report h.total ⟨by rw [h.agree.1], by rw [h.agree.2]⟩ ⟨Nat.le_succ _, Nat.le_add_right _ _⟩
    ⟨hitems, hbytes⟩

/-- The loop over the paths that are left. -/
theorem entries_spec (steady : Steady m.env) {entry : Path → Bytes → List Item → Act State Error (List Item)}
    (hgoing : ∀ p name items, Going t₀ (Just out) (Just out) (entry p name items))
    (hsilent : ∀ p name items, Silent (entry p name items)) (paths : List Path) (its : List Item)
    (hapart : ∀ p ∈ paths, p ≠ out) (hs : Whole t₀ (Just out) s) (hmade : Made s.history out)
    (h : Reached items bytes progress done s.vars.seen) (hitems : done.items + paths.length ≤ items)
    (hbytes : done.bytes + bytesOf t₀ paths ≤ bytes) :
    (entries m base rep entry paths progress done its).wp
      (fun r s' => Counted items bytes s'.vars.seen ∧
        (∀ x, s'.vars.seen.head? = some x → x.doneItems = r.1.items ∧ x.doneBytes = r.1.bytes) ∧
        (r.1.cancelled = false → r.1.items = done.items + (entered base paths).length ∧
          r.1.bytes = done.bytes + bytesOf t₀ (entered base paths)))
      (fun _ s' => Counted items bytes s'.vars.seen) s := by
  induction paths generalizing s progress done its with
  | nil => exact ⟨h.counted, h.last, fun _ => ⟨rfl, rfl⟩⟩
  | cons p paths ih =>
    obtain ⟨hp, hapart⟩ := List.forall_mem_cons.1 hapart
    rw [List.length_cons] at hitems
    rw [bytesOf, List.map_cons, List.sum_cons, ← bytesOf] at hbytes
    rw [entries, Act.wp_ite]
    constructor
    · intro hrel
      have hskip : entered base (p :: paths) = entered base paths :=
        List.filter_cons_of_neg (by simpa using relative_eq_nil.1 hrel)
      rw [hskip]
      exact ih its hapart hs hmade h (by omega) (by omega)
    · intro hrel
      have henter : entered base (p :: paths) = p :: entered base paths :=
        List.filter_cons_of_pos (by simpa using fun hb => hrel (relative_eq_nil.2 hb))
      rw [henter]
      dsimp only
      rw [Act.wp_bind, wp_report, Act.wp_ite]
      have h₁ : Reached items bytes { progress with current := PathBuf.ofPath p } done
          ({ progress with current := PathBuf.ofPath p } :: s.vars.seen) :=
        h.report h.total h.agree ⟨le_rfl, le_rfl⟩ ⟨by omega, by omega⟩
      -- the report may be answered with a stop
      refine ⟨fun _ => ⟨h₁.counted, h₁.last, fun hc => by cases hc⟩, fun _ => ?_⟩
      rw [Act.wp_bind]
      refine Act.wp_mono (Act.wp_and (Going.wp (hgoing p _ its) (made_of_just hmade) (hs.told _))
        (Act.Stays.wp (hsilent p _ its) _)) (fun items' s₂ h₂ => ?_) fun _ s₂ h₂ => ?_
      · obtain ⟨⟨hp₂, hs₂⟩, hseen₂⟩ := h₂
        rw [Act.wp_bind]
        have h₂ : Reached items bytes { progress with current := PathBuf.ofPath p } done s₂.vars.seen := by
          rw [hseen₂]
          exact h₁
        refine Act.wp_mono (counted_spec steady hp hs₂ (hmade.mono hp₂) h₂ (by omega) (by omega))
          (fun r s₃ h₃ => ?_) fun _ _ h => h.elim
        obtain ⟨progress', done'⟩ := r
        obtain ⟨⟨hs₃, hmade₃⟩, h₃, hdone⟩ := h₃
        obtain rfl : done' = { done with items := done.items + 1, bytes := done.bytes + bytesAt t₀ p } := hdone
        refine Act.wp_mono (ih items' hapart hs₃ hmade₃ h₃ (by dsimp only; omega) (by dsimp only; omega))
          (fun r s₄ h₄ => ?_) fun _ _ h => h
        refine ⟨h₄.1, h₄.2.1, fun hc => ?_⟩
        obtain ⟨h₅, h₆⟩ := h₄.2.2 hc
        rw [h₅, h₆, List.length_cons, bytesOf, bytesOf, List.map_cons, List.sum_cons]
        exact ⟨by dsimp only; omega, by dsimp only; omega⟩
      · rw [h₂.2]
        exact h₁.counted

/-- The loop as the writers call it, with what they do behind it. -/
theorem entries_then (steady : Steady m.env) {entry : Path → Bytes → List Item → Act State Error (List Item)}
    (hgoing : ∀ p name items, Going t₀ (Just out) (Just out) (entry p name items))
    (hsilent : ∀ p name items, Silent (entry p name items)) {paths : List Path}
    (hthere : ∀ x ∈ paths, (t₀.get x).isSome) (hs : Whole t₀ (Just out) s) (hmade : Made s.history out)
    (hseen : s.vars.seen = []) {rest : Done × List Item → Act State Error Done}
    (hrest : ∀ r s, (rest r).wp (fun done s' => done = r.1 ∧ s'.vars.seen = s.vars.seen)
      (fun _ s' => s'.vars.seen = s.vars.seen) s) :
    (entries m base rep entry paths (starting ⟨paths, bytesOf t₀ paths⟩) {} [] >>= rest).wp
      (fun done s' => Counted paths.length (bytesOf t₀ paths) s'.vars.seen ∧ Told t₀ base paths done s'.vars.seen)
      (fun _ s' => Counted paths.length (bytesOf t₀ paths) s'.vars.seen) s := by
  have hapart : ∀ p ∈ paths, p ≠ out := by
    rintro p hp rfl
    have hfree := hs.free p hmade
    exact absurd (hthere p hp) (by rw [hfree]; exact Bool.false_ne_true)
  have hreached : Reached paths.length (bytesOf t₀ paths) (starting ⟨paths, bytesOf t₀ paths⟩) {}
      s.vars.seen := by
    rw [hseen]
    exact ⟨counted_nil _ _, ⟨rfl, rfl⟩, ⟨rfl, rfl⟩, fun _ h => by cases h⟩
  rw [Act.wp_bind]
  refine Act.wp_mono (entries_spec steady hgoing hsilent paths [] hapart hs hmade hreached (by simp) (by simp))
    (fun r s₁ h₁ => ?_) fun _ _ h => h
  refine Act.wp_mono (hrest r s₁) (fun done s₂ h₂ => ?_) fun _ s₂ h₂ => ?_
  · obtain ⟨rfl, hseen₂⟩ := h₂
    rw [hseen₂]
    refine ⟨h₁.1, h₁.2.1, fun hc => ?_⟩
    obtain ⟨hitems, hbytes⟩ := h₁.2.2 hc
    exact ⟨hitems.trans (Nat.zero_add _), hbytes.trans (Nat.zero_add _)⟩
  · rw [h₂]
    exact h₁.1

end

section

variable {dir base : Path} {name : Name} {rep : Reporter} {paths : List Path}

/-- What a writer does before the loop: the archive is made, and more may be written to it. -/
theorem made_then (hs : Whole t₀ (fun _ => False) s) (hvacant : Vacant m t₀ s.history (dir ++ [name]))
    (hseen : s.vars.seen = []) (f : Errno → Error) {rest : Act State Error Done} {Q : Done → State → Prop}
    {E : Error → State → Prop} (herr : ∀ e s', s'.vars.seen = [] → E e s')
    (hrest : ∀ s', Whole t₀ (Just (dir ++ [name])) s' → Made s'.history (dir ++ [name]) → s'.vars.seen = [] →
      rest.wp Q E s') :
    ((create m dir name).mapErr f >>= fun _ => rest).wp Q E s := by
  have hwide : Whole t₀ (Just (dir ++ [name])) s := hs.widen fun x hx => hx.elim
  rw [Act.wp_bind, Act.wp_mapErr]
  refine Act.wp_mono (Act.wp_and (create_wp hwide rfl hvacant) (Act.Stays.wp (silent_change _ _) s))
    (fun _ s₁ h₁ => ?_) fun _ s₁ h₁ => herr _ _ (h₁.2.trans hseen)
  exact hrest s₁ h₁.1.1.2 h₁.1.2 (h₁.2.trans hseen)

/-- The reports of a writer, of a plan that counts what is there. -/
theorem writeArchive_told (steady : Steady m.env) (format : Format) (options : Options)
    (hthere : ∀ x ∈ paths, (t₀.get x).isSome) (hs : Whole t₀ (fun _ => False) s)
    (hvacant : Vacant m t₀ s.history (dir ++ [name])) (hseen : s.vars.seen = []) :
    (writeArchive m format options base dir name ⟨paths, bytesOf t₀ paths⟩ rep).wp
      (fun done s' => Counted paths.length (bytesOf t₀ paths) s'.vars.seen ∧ Told t₀ base paths done s'.vars.seen)
      (fun _ s' => Counted paths.length (bytesOf t₀ paths) s'.vars.seen) s := by
  have hout : Just (dir ++ [name]) (dir ++ [name]) := rfl
  have herr : ∀ (e : Error) (s' : State), s'.vars.seen = [] →
      Counted paths.length (bytesOf t₀ paths) s'.vars.seen := fun e s' h => by
    rw [h]
    exact counted_nil _ _
  -- the end of the archive is written, and what is done is returned
  have hend : ∀ f o (g : Complaint → Error) (r : Done × List Item) (s : State),
      ((save m f o (dir ++ [name]) r.2 true).mapErr g >>= fun _ => pure r.1).wp
        (fun done s' => done = r.1 ∧ s'.vars.seen = s.vars.seen) (fun _ s' => s'.vars.seen = s.vars.seen) s :=
    fun f o g r s => by
      rw [Act.wp_bind]
      exact Act.wp_mono (Act.Stays.wp ((silent_save _ _).mapErr _) s) (fun _ _ h => ⟨rfl, h⟩) fun _ _ h => h
  -- its beginning is written
  have hbegin : ∀ f o (g : Complaint → Error) (rest : Act State Error Done) (s : State),
      Whole t₀ (Just (dir ++ [name])) s → Made s.history (dir ++ [name]) → s.vars.seen = [] →
      (∀ s', Whole t₀ (Just (dir ++ [name])) s' → Made s'.history (dir ++ [name]) → s'.vars.seen = [] →
        rest.wp (fun done s' => Counted paths.length (bytesOf t₀ paths) s'.vars.seen ∧
            Told t₀ base paths done s'.vars.seen)
          (fun _ s' => Counted paths.length (bytesOf t₀ paths) s'.vars.seen) s') →
      ((save m f o (dir ++ [name]) [] false).mapErr g >>= fun _ => rest).wp
        (fun done s' => Counted paths.length (bytesOf t₀ paths) s'.vars.seen ∧
          Told t₀ base paths done s'.vars.seen)
        (fun _ s' => Counted paths.length (bytesOf t₀ paths) s'.vars.seen) s :=
    fun f o g rest s hs hmade hseen hrest => by
      rw [Act.wp_bind]
      refine Act.wp_mono (Act.wp_and (Going.wp ((going_save hout [] false).mapErr g)
        (made_of_just hmade) hs)
        (Act.Stays.wp ((silent_save _ _).mapErr _) s)) (fun _ s₁ h₁ => ?_)
        fun e s₁ h₁ => herr e s₁ (h₁.2.trans hseen)
      exact hrest s₁ h₁.1.2 (hmade.mono h₁.1.1) (h₁.2.trans hseen)
  cases format with
  | zip =>
    exact made_then hs hvacant hseen _ herr fun s₁ hs₁ hmade hseen₁ =>
      entries_then steady (going_zipEntry hout) silent_zipEntry hthere hs₁ hmade hseen₁ (hend _ _ _)
  | sevenZip =>
    exact made_then hs hvacant hseen _ herr fun s₁ hs₁ hmade hseen₁ =>
      hbegin _ _ _ _ s₁ hs₁ hmade hseen₁ fun s₂ hs₂ hmade₂ hseen₂ =>
      entries_then steady (going_sevenZipEntry hout) silent_sevenZipEntry hthere hs₂ hmade₂ hseen₂ (hend _ _ _)
  | _ =>
    exact made_then hs hvacant hseen _ herr fun s₁ hs₁ hmade hseen₁ =>
      hbegin _ _ _ _ s₁ hs₁ hmade hseen₁ fun s₂ hs₂ hmade₂ hseen₂ =>
      entries_then steady (going_tarEntry hout) silent_tarEntry hthere hs₂ hmade₂ hseen₂ (hend _ _ _)

end

/-- What the plan of the sources comes to. -/
def Planned (m : Setup) (t : Tree) (sources paths : List Path) : Prop :=
  ∃ s : State, s.vars = { tree := t } ∧ (plan m sources s).1 = .ok ⟨paths, bytesOf t paths⟩

end Aurade.Ops.Compress
