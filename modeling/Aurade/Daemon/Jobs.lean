import Aurade.Foundations.Bytes
import Mathlib.Logic.Function.Basic
import Mathlib.Logic.Relation

/-!
# Jobs

A job has a flag that says it is to stop, a snapshot of how it is going and the moment it finished. A
worker runs its work, which writes into the snapshot and reads the flag with every report; a request to
cancel looks the job up and sets the flag; starting another job looks through the table for jobs that
finished long ago. Each lock and each atomic is taken for a moment, and any step of another thread may
fall between two: a step here is one of those moments.

What a job says in the end is made of its flag as the worker finds it when the work is over. That is what
the work did, unless a cancel falls behind its last report (`jobs_settle`).
-/

namespace Aurade.Daemon.Jobs

/-! ## A job -/

/-- The states of a job. -/
inductive State
  | running
  | done
  | cancelled
  | error
  deriving DecidableEq

/-- `Progress`. -/
structure Progress where
  totalItems : ℕ := 0
  doneItems : ℕ := 0
  totalBytes : ℕ := 0
  doneBytes : ℕ := 0
  current : Bytes := []
  deriving DecidableEq

/-- `Snapshot`, over the type of results. -/
structure Snapshot (ρ : Type) where
  kind : Bytes
  state : State := .running
  progress : Progress := {}
  error : Option Bytes := none
  errorCode : Option Bytes := none
  result : Option ρ := none

/-- An error as a job tells it: its message and its code. -/
abbrev Failure := Bytes × Bytes

/-- Where the thread of a job is. -/
inductive Stage (ρ : Type)
  /-- `start` has made the job. -/
  | made
  /-- It is in the table. -/
  | listed
  /-- The work runs. -/
  | working
  /-- A report has written the snapshot. -/
  | told
  /-- The report has read the flag. -/
  | answered (cancel : Bool)
  /-- The work has returned. -/
  | returned (r : Except Failure ρ)
  /-- `finish` is called. -/
  | finishing (state : State) (error : Option Failure) (result : Option ρ)
  /-- It has written the snapshot. -/
  | written
  /-- It has noted the moment. -/
  | ended

/-- What the work did. -/
inductive Outcome
  | ranToEnd
  | stoppedEarly
  | failed
  deriving DecidableEq

/-- What a job is to say of it. -/
def Outcome.state : Outcome → State
  | ranToEnd => .done
  | stoppedEarly => .cancelled
  | failed => .error

/-- `Job`, with where its thread is and what its work did. -/
structure Job (ρ : Type) where
  id : ℕ
  cancel : Bool := false
  snapshot : Snapshot ρ
  finished : Option ℕ := none
  stage : Stage ρ := .made
  outcome : Option Outcome := none

/-- What the thread of a job does next. -/
inductive Move (ρ : Type)
  | spawn
  | report (p : Progress)
  | answer
  | goOn
  | stopEarly (r : ρ)
  | runToEnd (r : ρ)
  | fail (e : Failure)
  | decide
  | write
  | note

section

variable {ρ : Type}

/-- One step of the thread of a job. The work stops early only where a report has answered that it is to;
it may go on all the same. -/
def Job.step (now : ℕ) (m : Move ρ) (j : Job ρ) : Option (Job ρ) :=
  match m, j.stage with
  | .spawn, .listed => some { j with stage := .working }
  | .report p, .working => some { j with snapshot := { j.snapshot with progress := p }, stage := .told }
  | .answer, .told => some { j with stage := .answered j.cancel }
  | .goOn, .answered _ => some { j with stage := .working }
  | .stopEarly r, .answered true =>
    some { j with stage := .returned (.ok r), outcome := some .stoppedEarly }
  | .runToEnd r, .working => some { j with stage := .returned (.ok r), outcome := some .ranToEnd }
  | .fail e, .working => some { j with stage := .returned (.error e), outcome := some .failed }
  | .decide, .returned (.ok r) =>
    some { j with stage := .finishing (if j.cancel then .cancelled else .done) none (some r) }
  | .decide, .returned (.error e) => some { j with stage := .finishing .error (some e) none }
  | .write, .finishing state error result =>
    some
      { j with
        snapshot :=
          { j.snapshot with
            state
            error := (error.map Prod.fst).or j.snapshot.error
            errorCode := (error.map Prod.snd).or j.snapshot.errorCode
            result }
        stage := .written }
  | .note, .written => some { j with finished := some now, stage := .ended }
  | _, _ => none

/-- The thread does not start, and `start` calls `finish`. -/
def Job.failToStart (e : Failure) (j : Job ρ) : Job ρ :=
  { j with stage := .finishing .error (some e) none, outcome := some .failed }

/-! ## The service -/

/-- How many numbers an id has. -/
def ids : ℕ := 2 ^ 64

/-- How long a finished job is kept, in seconds. -/
def keepFinished : ℕ := 600

/-- The next id, the jobs there have been, the table, the jobs that a cancel has looked up, and the
clock. -/
structure System (ρ : Type) where
  next : ℕ := 1
  jobs : List (Job ρ) := []
  table : ℕ → Option ℕ := fun _ => none
  looked : List ℕ := []
  now : ℕ := 0

/-- What happens next, in any thread. -/
inductive Event (ρ : Type)
  /-- Time passes. -/
  | tick (d : ℕ)
  /-- `start` takes an id and makes a job. -/
  | make (kind : Bytes)
  /-- It puts the job into the table. -/
  | insert (i : ℕ)
  /-- No thread can be started. -/
  | spawnFails (i : ℕ) (e : Failure)
  /-- The thread of a job does something. -/
  | work (i : ℕ) (m : Move ρ)
  /-- `cancel` looks an id up. -/
  | lookUp (id : ℕ)
  /-- It sets the flag of the job. -/
  | setCancel (i : ℕ)
  /-- `reap` looks at an entry of the table. -/
  | reap (id : ℕ)

/-- The job is past keeping. -/
def Job.stale (now : ℕ) (j : Job ρ) : Bool := j.finished.any fun t => keepFinished ≤ now - t

/-- One step of the service. -/
def step (s : System ρ) : Event ρ → Option (System ρ)
  | .tick d => some { s with now := s.now + d }
  | .make kind =>
    some
      { s with
        next := (s.next + 1) % ids
        jobs := s.jobs ++ [{ id := s.next, snapshot := { kind } }] }
  | .insert i => do
    let j ← s.jobs[i]?
    match j.stage with
    | .made =>
      some
        { s with
          table := Function.update s.table j.id (some i)
          jobs := s.jobs.set i { j with stage := .listed } }
    | _ => none
  | .spawnFails i e => do
    let j ← s.jobs[i]?
    match j.stage with
    | .listed =>
      match s.table j.id with
      | none => some s
      | some k => do
        let found ← s.jobs[k]?
        some { s with jobs := s.jobs.set k (found.failToStart e) }
    | _ => none
  | .work i m => do
    let j ← s.jobs[i]?
    let j' ← j.step s.now m
    some { s with jobs := s.jobs.set i j' }
  | .lookUp id =>
    match s.table id with
    | none => some s
    | some i => some { s with looked := i :: s.looked }
  | .setCancel i => do
    let j ← s.jobs[i]?
    if i ∈ s.looked then
      some { s with jobs := s.jobs.set i { j with cancel := true }, looked := s.looked.erase i }
    else none
  | .reap id =>
    match s.table id with
    | none => some s
    | some i =>
      if (s.jobs[i]?).any (Job.stale s.now) then some { s with table := Function.update s.table id none }
      else some s

/-! ## What is to hold -/

/-- The flag of a job is not set when it is read after the work ran to its end, and there are ids left. -/
def Careful (s : System ρ) : Event ρ → Prop
  | .make _ => s.jobs.length < ids
  | .work i .decide => ∀ j, s.jobs[i]? = some j → j.outcome = some .ranToEnd → j.cancel = false
  | _ => True

/-- A step, and one that is careful. -/
def Step (s s' : System ρ) : Prop := ∃ a, step s a = some s'

/-- A careful step. -/
def CarefulStep (s s' : System ρ) : Prop := ∃ a, Careful s a ∧ step s a = some s'

/-- The snapshot of the job is final. -/
def Job.Final (j : Job ρ) : Prop := j.stage matches .written | .ended

/-- Jobs say in the end what their work did, no id is used twice, and what has not finished is in the
table. -/
structure Settled (s : System ρ) : Prop where
  told : ∀ j ∈ s.jobs, j.Final → ∃ o, j.outcome = some o ∧ j.snapshot.state = o.state
  ids : ∀ (i k : ℕ) (j j' : Job ρ), s.jobs[i]? = some j → s.jobs[k]? = some j' → j.id = j'.id → i = k
  kept : ∀ (i : ℕ) (j : Job ρ), s.jobs[i]? = some j → ¬j.stage matches .made → j.finished = none →
    s.table j.id = some i

/-- What is final stays. -/
def Keeps (s s' : System ρ) : Prop :=
  ∀ (i : ℕ) (j : Job ρ), s.jobs[i]? = some j → j.Final →
    ∃ j', s'.jobs[i]? = some j' ∧ j'.Final ∧ j'.snapshot = j.snapshot

/-! ## A job on its own -/

/-- What the stage of a job says of its outcome. -/
def Job.Tells (j : Job ρ) : Prop :=
  match j.stage with
  | .made | .listed | .working | .told => j.outcome = none
  | .answered c => j.outcome = none ∧ (c = true → j.cancel = true)
  | .returned (.ok _) =>
    j.outcome = some .ranToEnd ∨ j.outcome = some .stoppedEarly ∧ j.cancel = true
  | .returned (.error _) => j.outcome = some .failed
  | .finishing state _ _ => ∃ o, j.outcome = some o ∧ state = o.state
  | .written | .ended => ∃ o, j.outcome = some o ∧ j.snapshot.state = o.state

/-- The stage of a job fits the rest of it. -/
structure Job.Fits (j : Job ρ) : Prop where
  tells : j.Tells
  unfinished : ¬j.stage matches .ended → j.finished = none

theorem Job.Fits.final {j : Job ρ} (h : j.Fits) (hj : j.Final) :
    ∃ o, j.outcome = some o ∧ j.snapshot.state = o.state := by
  have ht := h.tells
  unfold Job.Tells at ht
  unfold Job.Final at hj
  split at ht <;> simp_all

/-- What becomes of a job in one step. -/
structure Follows (j j' : Job ρ) : Prop where
  id : j'.id = j.id
  fits : j.Fits → j'.Fits
  final : j.Final → j'.Final ∧ j'.snapshot = j.snapshot
  finished : j'.finished = none → j.finished = none

/-- A step that neither ends the job nor touches the moment it finished. -/
theorem Follows.of_tells {j j' : Job ρ} (id : j'.id = j.id) (hf : j'.finished = j.finished)
    (hj : ¬j.Final) (tells : j.Tells → j'.Tells) : Follows j j' where
  id := id
  fits h := by
    refine ⟨tells h.tells, fun _ => hf.trans (h.unfinished fun he => hj ?_)⟩
    unfold Job.Final
    split at he <;> simp_all
  final h := absurd h hj
  finished h := hf ▸ h

theorem Job.step_follows {now : ℕ} {m : Move ρ} {j j' : Job ρ} (h : j.step now m = some j')
    (hc : m matches .decide → j.outcome = some .ranToEnd → j.cancel = false) : Follows j j' := by
  obtain ⟨id, cancel, snapshot, finished, stage, outcome⟩ := j
  cases m with
  | spawn =>
    cases stage <;> cases h
    exact .of_tells rfl rfl (by simp [Job.Final]) fun ht => ht
  | report p =>
    cases stage <;> cases h
    exact .of_tells rfl rfl (by simp [Job.Final]) fun ht => ht
  | answer =>
    cases stage <;> cases h
    exact .of_tells rfl rfl (by simp [Job.Final]) fun ht => ⟨ht, fun hb => hb⟩
  | goOn =>
    cases stage <;> cases h
    exact .of_tells rfl rfl (by simp [Job.Final]) fun ht => ht.1
  | stopEarly r =>
    cases stage with
    | answered c =>
      cases c <;> cases h
      exact .of_tells rfl rfl (by simp [Job.Final]) fun ht => .inr ⟨rfl, ht.2 rfl⟩
    | _ => cases h
  | runToEnd r =>
    cases stage <;> cases h
    exact .of_tells rfl rfl (by simp [Job.Final]) fun _ => .inl rfl
  | fail e =>
    cases stage <;> cases h
    exact .of_tells rfl rfl (by simp [Job.Final]) fun _ => rfl
  | decide =>
    cases stage with
    | returned r =>
      cases r with
      | ok r =>
        cases h
        refine .of_tells rfl rfl (by simp [Job.Final]) fun ht => ?_
        rcases ht with hend | ⟨hearly, hset⟩
        · exact ⟨.ranToEnd, hend, by simp [show cancel = false from hc rfl hend, Outcome.state]⟩
        · exact ⟨.stoppedEarly, hearly, by simp [show cancel = true from hset, Outcome.state]⟩
      | error e =>
        cases h
        exact .of_tells rfl rfl (by simp [Job.Final]) fun ht => ⟨.failed, ht, rfl⟩
    | _ => cases h
  | write =>
    cases stage <;> cases h
    exact .of_tells rfl rfl (by simp [Job.Final]) fun ht => ht
  | note =>
    cases stage <;> cases h
    exact
      { id := rfl
        fits := fun hj => ⟨hj.tells, fun he => absurd rfl he⟩
        final := fun _ => ⟨rfl, rfl⟩
        finished := fun hn => by cases hn }

/-- A cancel takes nothing back that the job has told. -/
theorem Job.setCancel_follows (j : Job ρ) : Follows j { j with cancel := true } where
  id := rfl
  fits h := by
    refine ⟨?_, h.unfinished⟩
    have ht := h.tells
    obtain ⟨id, cancel, snapshot, finished, stage, outcome⟩ := j
    cases stage with
    | answered c => exact ⟨ht.1, fun _ => rfl⟩
    | returned r =>
      cases r with
      | ok r => exact ht.imp_right fun hearly => ⟨hearly.1, rfl⟩
      | error e => exact ht
    | _ => exact ht
  final h := ⟨h, rfl⟩
  finished h := h

theorem Job.failToStart_follows {j : Job ρ} (e : Failure) (hj : j.stage = .listed) :
    Follows j (j.failToStart e) :=
  .of_tells rfl rfl (by simp [Job.Final, hj]) fun _ => ⟨.failed, rfl, rfl⟩

theorem Job.listed_follows {j : Job ρ} (hj : j.stage = .made) : Follows j { j with stage := .listed } :=
  .of_tells rfl rfl (by simp [Job.Final, hj]) fun ht => by simpa [Job.Tells, hj] using ht

/-! ## The service as a whole -/

/-- What holds of the service after every step. -/
structure Inv (s : System ρ) : Prop where
  fits : ∀ j ∈ s.jobs, j.Fits
  next : s.next = (s.jobs.length + 1) % Jobs.ids
  few : s.jobs.length ≤ Jobs.ids
  id : ∀ (i : ℕ) (j : Job ρ), s.jobs[i]? = some j → j.id = (i + 1) % Jobs.ids
  kept : ∀ (i : ℕ) (j : Job ρ), s.jobs[i]? = some j → ¬j.stage matches .made → j.finished = none →
    s.table j.id = some i

theorem Inv.start : Inv ({} : System ρ) where
  fits := by simp
  next := by rfl
  few := by simp
  id := by simp
  kept := by simp

theorem Inv.eq_of_id {s : System ρ} (hs : Inv s) {i k : ℕ} {j j' : Job ρ} (hj : s.jobs[i]? = some j)
    (hk : s.jobs[k]? = some j') (hid : j.id = j'.id) : i = k := by
  have hi := (List.getElem?_eq_some_iff.1 hj).1
  have hk' := (List.getElem?_eq_some_iff.1 hk).1
  have hfew := hs.few
  rw [hs.id i j hj, hs.id k j' hk] at hid
  unfold Jobs.ids at hid hfew
  omega

theorem Inv.settled {s : System ρ} (hs : Inv s) : Settled s where
  told j hj := (hs.fits j hj).final
  ids _ _ _ _ hj hj' hid := hs.eq_of_id hj hj' hid
  kept := hs.kept

/-- A step of one job, which stays in the table or has come into it. -/
theorem Inv.follow {s s' : System ρ} (hs : Inv s) {i : ℕ} {j j' : Job ρ} (hj : s.jobs[i]? = some j)
    (hjj : Follows j j') (hjobs : s'.jobs = s.jobs.set i j') (hnext : s'.next = s.next)
    (hmade : ¬j'.stage matches .made → j'.finished = none → s'.table j.id = some i)
    (htable : ∀ id, id ≠ j.id → s'.table id = s.table id) : Inv s' := by
  have hi := (List.getElem?_eq_some_iff.1 hj).1
  have hlen : s'.jobs.length = s.jobs.length := by rw [hjobs, List.length_set]
  have hset (k : ℕ) (j₁ : Job ρ) (hk : s'.jobs[k]? = some j₁) :
      k = i ∧ j₁ = j' ∨ k ≠ i ∧ s.jobs[k]? = some j₁ := by
    rw [hjobs, List.getElem?_set] at hk
    split at hk
    case isTrue he => exact .inl ⟨he.symm, by simpa [hi] using hk.symm⟩
    case isFalse he => exact .inr ⟨fun h => he h.symm, hk⟩
  refine ⟨fun j₁ hj₁ => ?_, hnext.trans (hlen ▸ hs.next), hlen ▸ hs.few, fun k j₁ hk => ?_,
    fun k j₁ hk hstage hfin => ?_⟩
  · rw [hjobs] at hj₁
    rcases List.mem_or_eq_of_mem_set hj₁ with hmem | rfl
    · exact hs.fits j₁ hmem
    · exact hjj.fits (hs.fits j (List.mem_of_getElem? hj))
  · rcases hset k j₁ hk with ⟨rfl, rfl⟩ | ⟨-, hk⟩
    · rw [hjj.id, hs.id k j hj]
    · exact hs.id k j₁ hk
  · rcases hset k j₁ hk with ⟨rfl, rfl⟩ | ⟨hne, hk⟩
    · rw [hjj.id]
      exact hmade hstage hfin
    · rw [htable j₁.id fun hid => hne (hs.eq_of_id hk hj hid)]
      exact hs.kept k j₁ hk hstage hfin

theorem Keeps.refl (s : System ρ) : Keeps s s := fun _ j hj hf => ⟨j, hj, hf, rfl⟩

theorem Keeps.trans {s₁ s₂ s₃ : System ρ} (h : Keeps s₁ s₂) (h' : Keeps s₂ s₃) : Keeps s₁ s₃ := by
  intro i j hj hf
  obtain ⟨j', hj', hf', he⟩ := h i j hj hf
  obtain ⟨j'', hj'', hf'', he'⟩ := h' i j' hj' hf'
  exact ⟨j'', hj'', hf'', he'.trans he⟩

theorem Keeps.follow {s s' : System ρ} {i : ℕ} {j j' : Job ρ} (hj : s.jobs[i]? = some j)
    (hjj : Follows j j') (hjobs : s'.jobs = s.jobs.set i j') : Keeps s s' := by
  intro k j₁ hk hf
  have hi := (List.getElem?_eq_some_iff.1 hj).1
  by_cases he : i = k
  · subst he
    obtain rfl : j = j₁ := Option.some.inj (hj.symm.trans hk)
    exact ⟨j', by simp [hjobs, hi], (hjj.final hf).1, (hjj.final hf).2⟩
  · exact ⟨j₁, by simp [hjobs, he, hk], hf, rfl⟩

theorem Keeps.of_jobs {s s' : System ρ} (h : s'.jobs = s.jobs) : Keeps s s' := by
  intro i j hj hf
  exact ⟨j, h ▸ hj, hf, rfl⟩

/-- The table may lose the entries of finished jobs. -/
theorem Inv.of_table {s s' : System ρ} (hs : Inv s) (hjobs : s'.jobs = s.jobs) (hnext : s'.next = s.next)
    (htable : ∀ (i : ℕ) (j : Job ρ), s.jobs[i]? = some j → j.finished = none → s.table j.id = some i →
      s'.table j.id = some i) : Inv s' where
  fits := hjobs ▸ hs.fits
  next := by rw [hnext, hjobs, hs.next]
  few := hjobs ▸ hs.few
  id := hjobs ▸ hs.id
  kept i j hj hstage hfin := by
    rw [hjobs] at hj
    exact htable i j hj hfin (hs.kept i j hj hstage hfin)

theorem Inv.make {s : System ρ} (hs : Inv s) (kind : Bytes) (hroom : s.jobs.length < Jobs.ids) :
    Inv
      { s with
        next := (s.next + 1) % Jobs.ids
        jobs := s.jobs ++ [{ id := s.next, snapshot := { kind } }] } := by
  have hlast {i : ℕ} {j : Job ρ}
      (hj : (s.jobs ++ [{ id := s.next, snapshot := { kind } }])[i]? = some j) :
      s.jobs[i]? = some j ∨ i = s.jobs.length ∧ j = { id := s.next, snapshot := { kind } } := by
    rw [List.getElem?_append] at hj
    split at hj
    case isTrue => exact .inl hj
    case isFalse hlt =>
      have hi : i = s.jobs.length := by
        have := (List.getElem?_eq_some_iff.1 hj).1
        simp only [List.length_singleton] at this
        omega
      exact .inr ⟨hi, by simpa [hi] using hj.symm⟩
  refine ⟨fun j hj => ?_, ?_, ?_, fun i j hj => ?_, fun i j hj hstage hfin => ?_⟩
  · rcases List.mem_append.1 hj with hj | hj
    · exact hs.fits j hj
    · obtain rfl := List.mem_singleton.1 hj
      exact ⟨rfl, fun _ => rfl⟩
  · simp [hs.next]
  · simpa using hroom
  · rcases hlast hj with hj | ⟨rfl, rfl⟩
    · exact hs.id i j hj
    · exact hs.next
  · rcases hlast hj with hj | ⟨rfl, rfl⟩
    · exact hs.kept i j hj hstage hfin
    · exact absurd rfl hstage

theorem Keeps.make (s : System ρ) (kind : Bytes) :
    Keeps s
      { s with
        next := (s.next + 1) % Jobs.ids
        jobs := s.jobs ++ [{ id := s.next, snapshot := { kind } }] } := by
  intro i j hj hf
  have hi := (List.getElem?_eq_some_iff.1 hj).1
  exact ⟨j, by simpa [List.getElem?_append_left hi] using hj, hf, rfl⟩

/-- A careful step keeps what holds of the service, and what is final. -/
theorem Inv.step {s s' : System ρ} (hs : Inv s) (h : CarefulStep s s') : Inv s' ∧ Keeps s s' := by
  obtain ⟨a, hc, ha⟩ := h
  cases a with
  | tick d =>
    cases ha
    exact ⟨hs.of_table rfl rfl fun _ _ _ _ ht => ht, .of_jobs rfl⟩
  | make kind =>
    cases ha
    exact ⟨hs.make kind hc, .make s kind⟩
  | insert i =>
    obtain ⟨j, hj, ha⟩ := Option.bind_eq_some_iff.1 ha
    split at ha
    case h_2 => cases ha
    case h_1 hmade =>
      cases ha
      have hjj := Job.listed_follows hmade
      refine ⟨hs.follow hj hjj rfl rfl (fun _ _ => by simp) (fun id hid => ?_), .follow hj hjj rfl⟩
      exact Function.update_of_ne hid _ _
  | spawnFails i e =>
    obtain ⟨j, hj, ha⟩ := Option.bind_eq_some_iff.1 ha
    split at ha
    case h_2 => cases ha
    case h_1 hlisted =>
      have hfin := (hs.fits j (List.mem_of_getElem? hj)).unfinished (by simp [hlisted])
      -- The job is in the table, so the one that is found there is this one.
      have htable := hs.kept i j hj (by simp [hlisted]) hfin
      simp only [htable, hj, Option.bind_eq_bind, Option.bind_some] at ha
      cases ha
      have hjj := Job.failToStart_follows e hlisted
      exact ⟨hs.follow hj hjj rfl rfl (fun _ _ => htable) fun _ _ => rfl, .follow hj hjj rfl⟩
  | work i m =>
    obtain ⟨j, hj, ha⟩ := Option.bind_eq_some_iff.1 ha
    obtain ⟨j', hj', ha⟩ := Option.bind_eq_some_iff.1 ha
    cases ha
    have hjj := Job.step_follows hj' (by cases m <;> simp_all [Careful])
    refine ⟨hs.follow hj hjj rfl rfl (fun _ hn => ?_) fun _ _ => rfl, .follow hj hjj rfl⟩
    refine hs.kept i j hj (fun hmade => ?_) (hjj.finished hn)
    cases hst : j.stage <;> cases m <;> simp [Job.step, hst] at hj' hmade
  | lookUp id =>
    simp only [Jobs.step] at ha
    split at ha <;> cases ha
    · exact ⟨hs, .refl s⟩
    · exact ⟨hs.of_table rfl rfl fun _ _ _ _ ht => ht, .of_jobs rfl⟩
  | setCancel i =>
    obtain ⟨j, hj, ha⟩ := Option.bind_eq_some_iff.1 ha
    split at ha
    case isFalse => cases ha
    case isTrue =>
      cases ha
      have hjj := j.setCancel_follows
      exact ⟨hs.follow hj hjj rfl rfl (hs.kept i j hj) fun _ _ => rfl, .follow hj hjj rfl⟩
  | reap id =>
    simp only [Jobs.step] at ha
    split at ha
    case h_1 =>
      cases ha
      exact ⟨hs, .refl s⟩
    case h_2 i hi =>
      split at ha
      case isFalse =>
        cases ha
        exact ⟨hs, .refl s⟩
      case isTrue hstale =>
        cases ha
        refine ⟨hs.of_table rfl rfl fun k j hj hfin ht => ?_, .of_jobs rfl⟩
        refine (Function.update_of_ne ?_ _ _).trans ht
        rintro rfl
        -- The entry that goes is of a job that has finished.
        obtain rfl : i = k := Option.some.inj (hi.symm.trans ht)
        simp [hj, Job.stale, hfin] at hstale

theorem Inv.run {s s' : System ρ} (hs : Inv s) (h : Relation.ReflTransGen CarefulStep s s') :
    Inv s' ∧ Keeps s s' := by
  induction h with
  | refl => exact ⟨hs, .refl s⟩
  | tail _ hstep ih =>
    have hnext := ih.1.step hstep
    exact ⟨hnext.1, ih.2.trans hnext.2⟩

/-- In every run whose steps are careful, a job says cancelled in the end exactly when it was cut short, done
when it ran to its end and error when it failed; what is final does not change; no id comes twice; and a
job that has not finished is in the table. -/
theorem jobs_settle {s s' : System ρ} (h : Relation.ReflTransGen CarefulStep {} s)
    (h' : Relation.ReflTransGen CarefulStep s s') : Settled s ∧ Keeps s s' := by
  have hs : Inv s := (Inv.start.run h).1
  exact ⟨hs.settled, (hs.run h').2⟩

/-- A job is cancelled before its first report and stops there. -/
theorem jobs_settle_stopped :
    ∃ s : System Unit, s.jobs.map (fun j => j.snapshot.state) = [.cancelled] ∧ Settled s ∧ Keeps s s := by
  have hrun : Relation.ReflTransGen (@CarefulStep Unit) {} _ :=
    .tail (.tail (.tail (.tail (.tail (.tail (.tail (.tail (.tail (.tail (.tail .refl
      ⟨.make [], by simp [Careful, Jobs.ids], rfl⟩) ⟨.insert 0, trivial, rfl⟩) ⟨.work 0 .spawn, trivial, rfl⟩)
      ⟨.lookUp 1, trivial, rfl⟩) ⟨.setCancel 0, trivial, rfl⟩) ⟨.work 0 (.report {}), trivial, rfl⟩)
      ⟨.work 0 .answer, trivial, rfl⟩) ⟨.work 0 (.stopEarly ()), trivial, rfl⟩)
      ⟨.work 0 .decide, by simp [Careful], rfl⟩) ⟨.work 0 .write, trivial, rfl⟩)
      ⟨.work 0 .note, trivial, rfl⟩
  exact ⟨_, rfl, jobs_settle hrun .refl⟩

/-- A cancel that falls behind the last report: the work ran to its end, and the job says cancelled. -/
theorem cancelled_though_done :
    ∃ (s : System Unit) (j : Job Unit), Relation.ReflTransGen Step {} s ∧ s.jobs[0]? = some j ∧ j.Final ∧
      j.outcome = some .ranToEnd ∧ j.snapshot.state = .cancelled := by
  have hrun : Relation.ReflTransGen (@Step Unit) {} _ :=
    .tail (.tail (.tail (.tail (.tail (.tail (.tail (.tail (.tail (.tail (.tail (.tail .refl
      ⟨.make [], rfl⟩) ⟨.insert 0, rfl⟩) ⟨.work 0 .spawn, rfl⟩) ⟨.work 0 (.report {}), rfl⟩)
      ⟨.work 0 .answer, rfl⟩) ⟨.work 0 .goOn, rfl⟩) ⟨.lookUp 1, rfl⟩) ⟨.setCancel 0, rfl⟩)
      ⟨.work 0 (.runToEnd ()), rfl⟩) ⟨.work 0 .decide, rfl⟩) ⟨.work 0 .write, rfl⟩)
      ⟨.work 0 .note, rfl⟩
  exact ⟨_, _, hrun, rfl, rfl, rfl, rfl⟩

end

end Aurade.Daemon.Jobs
