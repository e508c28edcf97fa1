import Aurade.Foundations.History

/-!
# Making a virtual machine and starting it again

`Plan.Run` of `aurade-vm`, over the folder of one VM: what is in its four files, and the calls that
can fail. Every call is answered by the surroundings, so a sequence of runs meets every pattern of
failing steps. The history says what was called, and the folder is what the next run finds.

Whether there is a VM is judged by one of its files, and whether it has been started by a record
that says so where it is missing. `Ordered` is the invariant between runs, as long as no half-made
VM is left behind (`Sound`): what is found has been made, and a VM that is not known to have been
started has a record that says it was not.
-/

namespace Aurade.Vm

/-! ## The folder -/

/-- One of the VM's files. -/
inductive Piece
  | absent | cut | whole
  deriving DecidableEq

/-- The fields of `hv.Spec` that a later run reads. -/
structure Spec where
  memoryMB : Int
  /-- Whether `AnswersISO` names a disk. -/
  answersISO : Bool
  deriving DecidableEq

/-- What is kept about a VM between runs. -/
structure Record where
  backend : String
  spec : Spec
  started : Bool
  deriving DecidableEq

/-- What stands under `RecordFile`. -/
inductive Stored
  | missing | garbled
  | record (r : Record)
  deriving DecidableEq

structure Folder where
  /-- The virtual disk: QEMU's `.qcow2`, VMware's `.vmdk`. -/
  disk : Piece
  /-- The file made after it: QEMU's copy of the firmware's settings store, VMware's `.vmx`. -/
  config : Piece
  /-- The `.vmx` has the lines of the answers disk, `sata0:1.`. -/
  drive : Bool
  /-- `AnswersFile`. -/
  answers : Piece
  record : Stored
  deriving DecidableEq

def Folder.new : Folder := ⟨.absent, .absent, false, .absent, .missing⟩

inductive Backend
  | qemu | vmware
  deriving DecidableEq

def Backend.id : Backend → String
  | .qemu => "qemu"
  | .vmware => "vmware"

/-- `Exists`: the disk of QEMU, the settings of VMware. -/
def Backend.vmExists (b : Backend) (f : Folder) : Bool :=
  match b with
  | .qemu => f.disk ≠ .absent
  | .vmware => f.config ≠ .absent

/-- A folder with a `.vmx` and no record was made by an early build, which only knew VMware. -/
def early (b : Backend) (f : Folder) : Option Record :=
  if b = .vmware ∧ f.config ≠ .absent then some ⟨"vmware", ⟨0, false⟩, false⟩ else none

/-- `Existing`, of this folder. -/
def existing (b : Backend) (f : Folder) : Option Record :=
  match f.record with
  | .record r => if r.backend ≠ "" then some r else early b f
  | _ => early b f

/-! ## The calls -/

inductive Call
  | running | validate | mkdirBase | iso | mkdirDir | writeAnswers
  /-- The folder, and the programs and templates `Create` needs. -/
  | tools
  | makeDisk | makeConfig
  | writeRecord (started : Bool)
  | start | readConfig | rewriteConfig | removeAnswers
  deriving DecidableEq

/-- How a call went. -/
inductive Answer
  | done
  /-- Refused with nothing changed. -/
  | refused
  /-- Failed with a file cut short, with the lines of the answers disk in it or not. -/
  | cut (drive : Bool)
  /-- Failed with everything written. -/
  | late
  deriving DecidableEq

/-- A file after the call that writes it. -/
def Answer.leaves (a : Answer) (before : Piece) : Piece :=
  match a with
  | .done | .late => .whole
  | .cut _ => .cut
  | .refused => before

/-- Whether the `.vmx` has the lines of the answers disk, after the call that writes it. -/
def Answer.leavesDrive (a : Answer) (written before : Bool) : Bool :=
  match a with
  | .done | .late => written
  | .cut drive => drive
  | .refused => before

/-- The record after the call that writes it. -/
def Answer.leavesRecord (a : Answer) (r : Record) (before : Stored) : Stored :=
  match a with
  | .done | .late => .record r
  | .cut _ => .garbled
  | .refused => before

/-- What `Run` can fail at. -/
inductive Fault
  | answers | username | password | folder | iso | writing
  | already | tools | disk | config | record | start | tidying
  deriving DecidableEq

abbrev Job := Act (Recorded Call Answer Folder) Fault

section Program

variable (env : Surroundings Call Answer)

/-- A call with its effect on the folder, and the error it is reported as. -/
def step (c : Call) (effect : Answer → Folder → Folder) (e : Fault) : Job Unit := do
  let a ← Act.ask env c
  Act.assign (effect a)
  if a = .done then pure () else Act.fail e

/-- A call that leaves the folder's files alone. -/
def check (c : Call) (e : Fault) : Job Unit := step env c (fun _ f => f) e

/-! ## The backends -/

/-- `Create`. It refuses to overwrite a VM. -/
def create (b : Backend) (spec : Spec) : Job Unit := do
  let f ← Act.vars
  if b.vmExists f then Act.fail .already else do
    check env .tools .tools
    step env .makeDisk (fun a f => { f with disk := a.leaves f.disk }) .disk
    match b with
    | .qemu =>
      step env .makeConfig (fun a f => { f with config := a.leaves f.config }) .config
    | .vmware =>
      step env .makeConfig (fun a f => { f with
        config := a.leaves f.config, drive := a.leavesDrive spec.answersISO f.drive }) .config

/-- `os.Remove` of the answers disk, where one that is not there is no error. -/
def removeAnswers : Job Unit := do
  let f ← Act.vars
  if f.answers = .absent then pure () else
    step env .removeAnswers
      (fun a f => if a = .done then { f with answers := .absent } else f) .tidying

/-- Drop the answers disk from VMware's settings. -/
def detach : Job Unit := do
  let f ← Act.vars
  if f.drive then
    step env .rewriteConfig (fun a f => { f with
      config := a.leaves f.config, drive := a.leavesDrive false f.drive }) .tidying
  else pure ()

/-- `Finish`. VMware's settings name the answers disk by the file removed here. -/
def finish (b : Backend) : Job Unit :=
  match b with
  | .qemu => removeAnswers env
  | .vmware => do
    check env .readConfig .tidying
    detach env
    removeAnswers env

/-- `Start`, of a VM that is off; QEMU's also answers `nil` for one that is on. -/
def start : Job Unit := check env .start .start

/-! ## A run -/

def writeRecord (r : Record) : Job Unit :=
  step env (.writeRecord r.started) (fun a f => { f with record := a.leavesRecord r f.record })
    .record

def markStarted (r : Record) : Job Unit :=
  if r.started then pure () else writeRecord env { r with started := true }

inductive Mode
  | guided | plain | express
  deriving DecidableEq

structure Plan where
  spec : Spec
  mode : Mode
  username : String
  passwordHash : String
  deriving DecidableEq

/-- The record a run goes by, when there is one of this VM. -/
def known (b : Backend) (f : Folder) : Option Record :=
  (existing b f).filter fun r => r.backend = b.id ∧ 0 < r.spec.memoryMB

/-- The record a run takes for granted: one of an early build, which had always been started. -/
def unrecorded (b : Backend) : Record := ⟨b.id, ⟨0, false⟩, true⟩

/-- Tidy up after the install, in a VM that has been started. -/
def tidy (b : Backend) (r : Record) : Job Unit :=
  if r.started then finish env b else pure ()

/-- Start the VM that is there. -/
def again (b : Backend) (r : Record) : Job Unit := do
  let running ← Act.ask env .running
  if running = .done then start env else do
    tidy env b r
    start env
    markStarted env r

/-- The answers are checked where they are used. -/
def validate (p : Plan) : Job Unit :=
  if p.mode = .plain then pure () else check env .validate .answers

/-- An express install needs an account. -/
def identify (p : Plan) : Job Unit :=
  if p.mode ≠ .express then pure ()
  else if p.username = "" then Act.fail .username
  else if p.passwordHash = "" then Act.fail .password
  else pure ()

/-- Write the answers disk, unless the installer asks everything. -/
def writeAnswers (mode : Mode) (spec : Spec) : Job Spec :=
  if mode = .plain then pure spec else do
    step env .writeAnswers (fun a f => { f with answers := a.leaves f.answers }) .writing
    pure { spec with answersISO := true }

/-- What comes before the VM: the checks, the folders, the ISO and the answers disk. -/
def prepare (p : Plan) (spec : Spec) : Job Spec := do
  validate env p
  identify p
  check env .mkdirBase .folder
  check env .iso .iso
  check env .mkdirDir .folder
  writeAnswers env p.mode spec

/-- Make the VM and start it. -/
def make (b : Backend) (p : Plan) (spec : Spec) : Job Unit := do
  let spec ← prepare env p spec
  create env b spec
  writeRecord env ⟨b.id, spec, false⟩
  start env
  markStarted env ⟨b.id, spec, false⟩

/-- `Plan.Run`. Existing VMs are started rather than replaced. -/
def run (b : Backend) (p : Plan) : Job Unit := do
  let f ← Act.vars
  let spec := (known b f).elim p.spec Record.spec
  if b.vmExists f then again env b ((known b f).getD (unrecorded b)) else make env b p spec

/-- The runs for one name, one after another. -/
def runs (b : Backend) : List Plan → Recorded Call Answer Folder → Recorded Call Answer Folder
  | [], s => s
  | p :: ps, s => runs b ps (run env b p s).2

end Program

/-! ## What a run did -/

/-- `Create` has succeeded: the last of its calls has. -/
def Created (h : List (Call × Answer)) : Prop := (Call.makeConfig, Answer.done) ∈ h

/-- A `Start` has succeeded. -/
def Begun (h : List (Call × Answer)) : Prop := (Call.start, Answer.done) ∈ h

/-- That it has was recorded. -/
def Noted (h : List (Call × Answer)) : Prop := (Call.writeRecord true, Answer.done) ∈ h

instance : DecidablePred Created := fun _ => inferInstanceAs (Decidable (_ ∈ _))

instance : DecidablePred Begun := fun _ => inferInstanceAs (Decidable (_ ∈ _))

instance : DecidablePred Noted := fun _ => inferInstanceAs (Decidable (_ ∈ _))

/-- The answers disk is deleted only after a `Start` has succeeded, and only a VM whose `Create`
succeeded is started. -/
def Allowed (before : List (Call × Answer)) (c : Call) : Prop :=
  (c = .removeAnswers → Begun before) ∧ (c = .start → Created before)

/-- A call of `Finish`. -/
def Call.tidies : Call → Bool
  | .readConfig | .rewriteConfig | .removeAnswers => true
  | _ => false

/-- A call that tells nothing of the VM. -/
def Call.quiet : Call → Bool
  | .makeDisk | .makeConfig | .writeRecord _ | .start | .removeAnswers => false
  | _ => true

/-- A call that leaves no VM half made: where `Create` fails, what `Exists` looks at is not there,
and the first record is written. -/
def Sound (b : Backend) (e : Call × Answer) : Prop :=
  (e.1 = .makeDisk → b = .qemu → e.2 = .done ∨ e.2 = .refused) ∧
  (e.1 = .makeConfig → e.2 = .done ∨ b = .vmware ∧ e.2 = .refused) ∧
  (e.1 = .writeRecord false → e.2 = .done ∨ e.2 = .late)

instance (b : Backend) : DecidablePred (Sound b) := fun _ => inferInstanceAs (Decidable (_ ∧ _))

/-- A record `Run` goes by. -/
def Record.Of (b : Backend) (r : Record) : Prop := r.backend = b.id ∧ 0 < r.spec.memoryMB

/-- No call left a VM half made. -/
def Orderly (b : Backend) (h : List (Call × Answer)) : Prop := ∀ e ∈ h, Sound b e

instance (b : Backend) : DecidablePred (Orderly b) := fun h =>
  inferInstanceAs (Decidable (∀ e ∈ h, Sound b e))

/-- The calls of a run from `s` to `s'`. -/
def callsOf (s s' : Recorded Call Answer Folder) : List (Call × Answer) :=
  s'.history.drop s.history.length

/-- The run tidied up, unless it found the VM running or `Finish` failed. -/
def Cleared (s s' : Recorded Call Answer Folder) : Prop :=
  (Call.running, Answer.done) ∉ callsOf s s' →
  (∀ e ∈ callsOf s s', e.1.tidies = true → e.2 = .done) → s'.vars.answers = .absent

/-- What holds between runs that leave no VM half made. -/
structure Ordered (b : Backend) (s : Recorded Call Answer Folder) : Prop where
  allowed : AllCalls Allowed s.history
  /-- A VM that is found was made, and is known not to have been started unless it was. -/
  made : b.vmExists s.vars → Created s.history ∧ (Begun s.history ∨
    ∃ r, s.vars.record = .record r ∧ r.Of b ∧ r.started = false)
  noted : Noted s.history → b.vmExists s.vars ∧
    ∃ r, s.vars.record = .record r ∧ r.Of b ∧ r.started = true

section Runs

variable {env : Surroundings Call Answer} {b : Backend} {p : Plan} {r : Record} {f : Folder}
  {s : Recorded Call Answer Folder}

/-! ## The record of a run -/

theorem Backend.id_ne (b : Backend) : b.id ≠ "" := by
  cases b <;> decide

theorem known_of (h : f.record = .record r) (hr : r.Of b) : known b f = some r := by
  have hex : existing b f = some r := by
    unfold existing
    rw [h]
    exact if_pos (hr.1 ▸ b.id_ne)
  rw [known, hex, Option.filter_eq_some_iff, decide_eq_true_eq]
  exact ⟨rfl, hr⟩

/-- A VM of an early build has no memory on record. -/
theorem not_of_early (h : early b f = some r) : ¬ r.Of b := by
  unfold early at h
  split at h
  · intro hr
    rw [← Option.some.inj h] at hr
    exact absurd hr.2 (by decide)
  · cases h

theorem of_known (h : known b f = some r) : r.Of b ∧ f.record = .record r := by
  rw [known, Option.filter_eq_some_iff, decide_eq_true_eq] at h
  obtain ⟨hex, hr⟩ := h
  refine ⟨hr, ?_⟩
  unfold existing at hex
  split at hex
  · next hrec =>
    split at hex
    · rw [hrec, Option.some.inj hex]
    · exact absurd ⟨hr.1, hr.2⟩ (not_of_early hex)
  · exact absurd ⟨hr.1, hr.2⟩ (not_of_early hex)

/-! ## One call -/

theorem wp_step (c : Call) (effect : Answer → Folder → Folder) (e : Fault)
    (Q : Unit → Recorded Call Answer Folder → Prop) (E : Fault → Recorded Call Answer Folder → Prop) :
    Act.wp (step env c effect e) Q E s ↔
      (env s.history c = .done → Q () ⟨s.history ++ [(c, .done)], effect .done s.vars⟩) ∧
      ∀ a, a ≠ .done → env s.history c = a → E e ⟨s.history ++ [(c, a)], effect a s.vars⟩ := by
  unfold step Act.assign
  rw [Act.wp_bind, Act.wp_ask, Act.wp_bind, Act.wp_modify, Act.wp_ite, Act.wp_pure, Act.wp_fail]
  constructor
  · intro h
    constructor
    · intro ha
      have hQ := h.1 ha
      rwa [ha] at hQ
    · intro a hne ha
      have hE := h.2 (ha ▸ hne)
      rwa [ha] at hE
  · intro h
    constructor
    · intro ha
      rw [ha]
      exact h.1 ha
    · intro hne
      exact h.2 _ hne rfl

theorem step_makes {P : List (Call × Answer) → Call → Prop} {J : Folder → Prop} {c : Call}
    {effect : Answer → Folder → Folder} {e : Fault} (hP : ∀ before, P before c)
    (hJ : ∀ a f, J f → J (effect a f)) : Act.Makes P J (step env c effect e) := by
  unfold step
  refine Act.Makes.bind (Act.Makes.ask hP) fun a => Act.Makes.bind (Act.Makes.assign (hJ a)) fun _ => ?_
  exact Act.Makes.ite (fun _ => Act.Makes.pure ()) fun _ => Act.Makes.fail e

/-! ## What calls leave of the order -/

theorem Allowed.other {before : List (Call × Answer)} {c : Call} (h : c ≠ .removeAnswers)
    (h' : c ≠ .start) : Allowed before c :=
  ⟨fun hc => absurd hc h, fun hc => absurd hc h'⟩

/-- The folders tell the same of the VM: whether it is there, and what is recorded. -/
def Like (b : Backend) (f g : Folder) : Prop := b.vmExists g = b.vmExists f ∧ g.record = f.record

theorem Created.append {h es : List (Call × Answer)} (hc : Created h) : Created (h ++ es) :=
  List.mem_append_left es hc

theorem Begun.append {h es : List (Call × Answer)} (hb : Begun h) : Begun (h ++ es) :=
  List.mem_append_left es hb

/-- Allowed calls that record nothing leave the order, in a folder that tells the same. -/
theorem Ordered.grow {s' : Recorded Call Answer Folder} {es : List (Call × Answer)}
    (h : Ordered b s) (hes : s'.history = s.history ++ es)
    (hall : AllCalls (fun before => Allowed (s.history ++ before)) es)
    (hrec : (Call.writeRecord true, Answer.done) ∉ es) (hlike : Like b s.vars s'.vars) :
    Ordered b s' := by
  refine ⟨?_, ?_, ?_⟩
  · rw [hes]
    exact allCalls_append.2 ⟨h.allowed, hall⟩
  · rw [hlike.1, hlike.2, hes]
    intro hex
    exact ⟨(h.made hex).1.append, (h.made hex).2.imp_left Begun.append⟩
  · rw [hlike.1, hlike.2, Noted, hes]
    intro hn
    exact h.noted ((List.mem_append.1 hn).resolve_right hrec)

/-- One such call. -/
theorem Ordered.call (h : Ordered b s) {c : Call} {a : Answer} {g : Folder}
    (hc : Allowed s.history c) (hrec : c ≠ .writeRecord true) (hlike : Like b s.vars g) :
    Ordered b ⟨s.history ++ [(c, a)], g⟩ := by
  refine h.grow rfl (allCalls_singleton.2 (by rwa [List.append_nil])) ?_ hlike
  intro hmem
  exact hrec (Prod.mk.inj (List.mem_singleton.1 hmem)).1.symm

theorem Ordered.quiet {s' : Recorded Call Answer Folder} (h : Ordered b s)
    (hs : Recorded.Adds (fun _ c => c.quiet = true) s s') (hlike : Like b s.vars s'.vars) :
    Ordered b s' := by
  obtain ⟨es, hes, hquiet⟩ := hs
  refine h.grow hes (hquiet.mono fun before c hc => ?_) ?_ hlike
  · constructor <;>
    · rintro rfl
      cases hc
  · intro hmem
    obtain ⟨before, after, hsplit⟩ := List.append_of_mem hmem
    cases hquiet before _ after hsplit

section Parts

variable (env) (b)

theorem validate_makes (p : Plan) (f : Folder) :
    Act.Makes (fun _ c => c.quiet = true) (Like b f) (validate env p) := by
  unfold validate
  exact Act.Makes.ite (fun _ => Act.Makes.pure ()) fun _ => step_makes (fun _ => rfl) fun _ _ hg => hg

theorem identify_makes (p : Plan) (f : Folder) :
    Act.Makes (fun _ c => c.quiet = true) (Like b f) (identify p) := by
  unfold identify
  refine Act.Makes.ite (fun _ => Act.Makes.pure ()) fun _ => ?_
  refine Act.Makes.ite (fun _ => Act.Makes.fail _) fun _ => ?_
  exact Act.Makes.ite (fun _ => Act.Makes.fail _) fun _ => Act.Makes.pure ()

/-- The checks and the answers disk tell nothing of the VM, and leave its memory as it was asked
for. -/
theorem prepare_yields (p : Plan) (spec : Spec) (f : Folder) :
    Act.Yields (fun _ c => c.quiet = true) (Like b f)
      (fun spec' : Spec => spec'.memoryMB = spec.memoryMB) (prepare env p spec) := by
  have hcheck : ∀ c e, c.quiet = true →
      Act.Makes (fun _ c => c.quiet = true) (Like b f) (check env c e) := fun c e hc =>
    step_makes (fun _ => hc) fun _ _ hg => hg
  have hanswers : Act.Yields (fun _ c => c.quiet = true) (Like b f)
      (fun spec' : Spec => spec'.memoryMB = spec.memoryMB) (writeAnswers env p.mode spec) := by
    unfold writeAnswers
    split
    · exact Act.Yields.pure rfl
    · refine Act.Yields.bind (Act.Yields.of_makes (T := fun _ => True) ?_ fun _ => trivial)
        fun _ _ => Act.Yields.pure rfl
      refine step_makes (fun _ => rfl) fun a g hg => ?_
      cases b <;> exact hg
  have hthen : ∀ {m : Job Unit} {m' : Job Spec}, Act.Makes (fun _ c => c.quiet = true) (Like b f) m →
      Act.Yields (fun _ c => c.quiet = true) (Like b f)
        (fun spec' : Spec => spec'.memoryMB = spec.memoryMB) m' →
      Act.Yields (fun _ c => c.quiet = true) (Like b f)
        (fun spec' : Spec => spec'.memoryMB = spec.memoryMB) (m >>= fun _ => m') := fun hm hm' =>
    Act.Yields.bind (Act.Yields.of_makes (T := fun _ => True) hm fun _ => trivial) fun _ _ => hm'
  unfold prepare
  exact hthen (validate_makes env b p f) (hthen (identify_makes b p f)
    (hthen (hcheck _ _ rfl) (hthen (hcheck _ _ rfl) (hthen (hcheck _ _ rfl) hanswers))))

end Parts

/-- `Start`, of a VM that is there. -/
theorem start_keeps (h : Ordered b s) (hex : b.vmExists s.vars) :
    Act.wp (start env)
      (fun _ s' => Ordered b s' ∧ s'.vars = s.vars ∧ Begun s'.history)
      (fun _ s' => Ordered b s') s := by
  have hcall : ∀ a, Ordered b ⟨s.history ++ [(Call.start, a)], s.vars⟩ := fun a =>
    h.call ⟨fun hc => absurd hc (by decide), fun _ => (h.made hex).1⟩ (by decide) ⟨rfl, rfl⟩
  rw [start, check, wp_step]
  refine ⟨fun _ => ⟨hcall _, rfl, ?_⟩, fun a _ _ => hcall a⟩
  exact List.mem_append_right _ List.mem_cons_self

/-- `markStarted`, of a VM that has been started. -/
theorem mark_keeps (h : Ordered b s) (hex : b.vmExists s.vars) (hbegun : Begun s.history)
    (hr : r.started = false → s.vars.record = .record r ∧ r.Of b) :
    Act.wp (markStarted env r) (fun _ s' => Ordered b s') (fun _ s' => Ordered b s') s := by
  unfold markStarted
  rw [Act.wp_ite, Act.wp_pure]
  refine ⟨fun _ => h, fun hstarted => ?_⟩
  obtain ⟨hrec, hof⟩ := hr (by simpa using hstarted)
  have hnot : ¬ Noted s.history := by
    intro hn
    obtain ⟨-, r', hrec', -, hstarted'⟩ := h.noted hn
    rw [hrec, Stored.record.injEq] at hrec'
    exact hstarted (hrec' ▸ hstarted')
  have hall : AllCalls (fun before => Allowed (s.history ++ before))
      [(Call.writeRecord true, env s.history (.writeRecord true))] :=
    allCalls_singleton.2 (Allowed.other (by simp) (by simp))
  rw [writeRecord, wp_step]
  constructor
  · intro ha
    refine ⟨allCalls_append.2 ⟨h.allowed, by rwa [ha] at hall⟩, fun _ => ?_, fun _ => ?_⟩
    · exact ⟨(h.made hex).1.append, Or.inl hbegun.append⟩
    · refine ⟨?_, { r with started := true }, rfl, hof, rfl⟩
      cases b <;> exact hex
  · intro a hne ha
    refine ⟨allCalls_append.2 ⟨h.allowed, by rwa [ha] at hall⟩, fun _ => ?_, fun hn => ?_⟩
    · exact ⟨(h.made hex).1.append, Or.inl hbegun.append⟩
    · rcases List.mem_append.1 hn with hn | hn
      · exact absurd hn hnot
      · exact absurd (Prod.mk.inj (List.mem_singleton.1 hn)).2.symm hne

theorem removeAnswers_makes {J : Folder → Prop} (hJ : ∀ f, J f → J { f with answers := .absent }) :
    Act.Makes (fun _ c => c.tidies = true) J (removeAnswers env) := by
  unfold removeAnswers
  refine Act.Makes.bind Act.Makes.vars fun f => Act.Makes.ite (fun _ => Act.Makes.pure ()) fun _ => ?_
  refine step_makes (fun _ => rfl) fun a g hg => ?_
  split
  · exact hJ g hg
  · exact hg

theorem Answer.leaves_ne {k : Piece} (a : Answer) (h : k ≠ .absent) : a.leaves k ≠ .absent := by
  cases a with
  | refused => exact h
  | done => exact fun hk => by cases hk
  | cut _ => exact fun hk => by cases hk
  | late => exact fun hk => by cases hk

theorem finish_makes {J : Folder → Prop} (hanswers : ∀ f, J f → J { f with answers := .absent })
    (hconfig : ∀ (a : Answer) f, J f →
      J { f with config := a.leaves f.config, drive := a.leavesDrive false f.drive }) :
    Act.Makes (fun _ c => c.tidies = true) J (finish env b) := by
  unfold finish
  cases b with
  | qemu => exact removeAnswers_makes hanswers
  | vmware =>
    refine Act.Makes.bind (step_makes (fun _ => rfl) fun _ _ hf => hf) fun _ => ?_
    refine Act.Makes.bind ?_ fun _ => removeAnswers_makes hanswers
    unfold detach
    refine Act.Makes.bind Act.Makes.vars fun f => ?_
    exact Act.Makes.ite (fun _ => step_makes (fun _ => rfl) hconfig) fun _ => Act.Makes.pure ()

/-- `Finish` leaves the VM there. -/
theorem finish_like (k : Stored) : Act.Makes (fun _ c => c.tidies = true)
    (fun f => b.vmExists f = true ∧ f.record = k) (finish env b) := by
  refine finish_makes (fun f hf => ⟨?_, hf.2⟩) fun a f hf => ⟨?_, hf.2⟩
  · cases b <;> exact hf.1
  · cases b with
    | qemu => exact hf.1
    | vmware => exact decide_eq_true (a.leaves_ne (of_decide_eq_true hf.1))

/-- `Finish`, of a VM that has been started. -/
theorem tidy_keeps (h : Ordered b s) (hex : b.vmExists s.vars)
    (hbegun : r.started = true → Begun s.history) :
    Act.wp (tidy env b r) (fun _ s' => Ordered b s' ∧ Like b s.vars s'.vars)
      (fun _ s' => Ordered b s') s := by
  unfold tidy
  rw [Act.wp_ite, Act.wp_pure]
  refine ⟨fun hr => ?_, fun _ => ⟨h, rfl, rfl⟩⟩
  have hkeeps : ∀ s', Act.Within (fun _ c => c.tidies = true)
      (fun f => b.vmExists f = true ∧ f.record = s.vars.record) s s' →
      Ordered b s' ∧ Like b s.vars s'.vars := by
    intro s' hs
    obtain ⟨⟨es, hes, htidies⟩, hex', hrec⟩ := hs ⟨hex, rfl⟩
    have hlike : Like b s.vars s'.vars := ⟨hex'.trans hex.symm, hrec⟩
    refine ⟨h.grow hes (htidies.mono fun before c hc => ?_) ?_ hlike, hlike⟩
    · constructor
      · exact fun _ => (hbegun hr).append
      · rintro rfl
        cases hc
    · intro hmem
      obtain ⟨before, after, hsplit⟩ := List.append_of_mem hmem
      cases htidies before _ after hsplit
  exact Act.wp_mono ((finish_like s.vars.record).wp s) (fun _ s' hs => hkeeps s' hs)
    fun _ s' hs => (hkeeps s' hs).1

/-- **A run that finds the VM leaves the order.** -/
theorem again_keeps (h : Ordered b s) (hex : b.vmExists s.vars) :
    Act.wp (again env b ((known b s.vars).getD (unrecorded b))) (fun _ s' => Ordered b s')
      (fun _ s' => Ordered b s') s := by
  generalize hr : (known b s.vars).getD (unrecorded b) = r
  -- the record says that the VM was not started, or it was
  have hwaiting : r.started = false → s.vars.record = .record r ∧ r.Of b := by
    intro hstarted
    rcases hknown : known b s.vars with _ | r'
    · rw [hknown] at hr
      rw [← hr] at hstarted
      cases hstarted
    · rw [hknown, Option.getD_some] at hr
      rw [← hr]
      exact ⟨(of_known hknown).2, (of_known hknown).1⟩
  have hbegun : r.started = true → Begun s.history := by
    intro hstarted
    rcases (h.made hex).2 with hb | ⟨r', hrec, hof, hstarted'⟩
    · exact hb
    · rw [known_of hrec hof, Option.getD_some] at hr
      rw [← hr, hstarted'] at hstarted
      cases hstarted
  have hasked : ∀ a, Ordered b ⟨s.history ++ [(Call.running, a)], s.vars⟩ := fun a =>
    h.call (Allowed.other (by decide) (by decide)) (by decide) ⟨rfl, rfl⟩
  unfold again
  rw [Act.wp_bind, Act.wp_ask, Act.wp_ite]
  constructor
  · intro _
    exact Act.wp_mono (start_keeps (hasked _) hex) (fun _ _ hs => hs.1) fun _ _ hs => hs
  · intro _
    rw [Act.wp_bind]
    refine Act.wp_mono (tidy_keeps (hasked _) hex fun hr => (hbegun hr).append) ?_ fun _ _ hs => hs
    intro _ s₁ hs₁
    have hex₁ : b.vmExists s₁.vars := hs₁.2.1 ▸ hex
    rw [Act.wp_bind]
    refine Act.wp_mono (start_keeps hs₁.1 hex₁) ?_ fun _ _ hs => hs
    intro _ s₂ hs₂
    refine mark_keeps hs₂.1 (hs₂.2.1 ▸ hex₁) hs₂.2.2 fun hstarted => ?_
    rw [hs₂.2.1, hs₁.2.2]
    exact hwaiting hstarted

/-! ## Making the VM -/

/-- No VM has been started and recorded. -/
structure Fresh (s : Recorded Call Answer Folder) : Prop where
  allowed : AllCalls Allowed s.history
  unnoted : ¬ Noted s.history

theorem Ordered.fresh (h : Ordered b s) (hex : ¬ b.vmExists s.vars) : Fresh s :=
  ⟨h.allowed, fun hn => hex (h.noted hn).1⟩

theorem Fresh.ordered (h : Fresh s) (hex : ¬ b.vmExists s.vars) : Ordered b s :=
  ⟨h.allowed, fun hex' => absurd hex' hex, fun hn => absurd hn h.unnoted⟩

theorem Fresh.call (h : Fresh s) {c : Call} {a : Answer} {g : Folder} (hc : Allowed s.history c)
    (hrec : c ≠ .writeRecord true) : Fresh ⟨s.history ++ [(c, a)], g⟩ := by
  refine ⟨allCalls_append.2 ⟨h.allowed, allCalls_singleton.2 (by rwa [List.append_nil])⟩, ?_⟩
  intro hn
  rcases List.mem_append.1 hn with hn | hn
  · exact h.unnoted hn
  · exact hrec (Prod.mk.inj (List.mem_singleton.1 hn)).1.symm

theorem Orderly.last {h : List (Call × Answer)} {e : Call × Answer} (ho : Orderly b (h ++ [e])) :
    Sound b e := ho e (List.mem_append_right h List.mem_cons_self)

/-- The virtual disk alone is a VM to QEMU, so there it is made or left unmade. -/
theorem disk_absent {a : Answer} (hex : ¬ b.vmExists f) (ha : a ≠ .done)
    (hsound : Sound b (.makeDisk, a)) : ¬ b.vmExists { f with disk := a.leaves f.disk } := by
  cases b with
  | vmware => exact hex
  | qemu =>
    obtain rfl : a = .refused := (hsound.1 rfl rfl).resolve_left ha
    exact hex

/-- What `Create` does once it is given a folder of its own. -/
theorem create_keeps (spec : Spec) (h : Fresh s) (hex : ¬ b.vmExists s.vars) :
    Act.wp (create env b spec)
      (fun _ s' => Fresh s' ∧ b.vmExists s'.vars ∧ Created s'.history)
      (fun _ s' => Orderly b s'.history → Fresh s' ∧ ¬ b.vmExists s'.vars) s := by
  have htools : ∀ a, Fresh ⟨s.history ++ [(Call.tools, a)], s.vars⟩ := fun a =>
    h.call (Allowed.other (by decide) (by decide)) (by decide)
  have hdisk : ∀ l a g, Fresh ⟨l, s.vars⟩ → Fresh ⟨l ++ [(Call.makeDisk, a)], g⟩ := fun l a g hl =>
    hl.call (Allowed.other (by decide) (by decide)) (by decide)
  have hconfig : ∀ l a f g, Fresh ⟨l, f⟩ → Fresh ⟨l ++ [(Call.makeConfig, a)], g⟩ := fun l a f g hl =>
    hl.call (Allowed.other (by decide) (by decide)) (by decide)
  have hcreated : ∀ l, Created (l ++ [(Call.makeConfig, Answer.done)]) := fun l =>
    List.mem_append_right l List.mem_cons_self
  unfold create check Act.vars
  rw [Act.wp_bind, Act.wp_map, Act.wp_get, Act.wp_ite]
  refine ⟨fun hex' => absurd hex' hex, fun _ => ?_⟩
  rw [Act.wp_bind, wp_step]
  refine ⟨fun _ => ?_, fun a _ _ _ => ⟨htools a, hex⟩⟩
  rw [Act.wp_bind, wp_step]
  refine ⟨fun _ => ?_, fun a ha _ ho =>
    ⟨hdisk _ _ _ (htools _), disk_absent hex ha ho.last⟩⟩
  have hmade := hdisk _ .done { s.vars with disk := .whole } (htools .done)
  cases b with
  | qemu =>
    rw [wp_step]
    refine ⟨fun _ => ⟨hconfig _ _ _ _ hmade, rfl, hcreated _⟩, fun a ha _ ho => ?_⟩
    -- the virtual disk is there by now
    rcases ho.last.2.1 rfl with hdone | hvmware
    · exact absurd hdone ha
    · cases hvmware.1
  | vmware =>
    rw [wp_step]
    refine ⟨fun _ => ⟨hconfig _ _ _ _ hmade, rfl, hcreated _⟩, fun a ha _ ho => ?_⟩
    obtain ⟨-, rfl⟩ : _ ∧ a = .refused := (ho.last.2.1 rfl).resolve_left ha
    exact ⟨hconfig _ _ _ _ hmade, hex⟩

/-- The first record of a VM, which says that it has not been started. -/
theorem Fresh.recorded (h : Fresh s) (hcreated : Created s.history) (hr : r.Of b)
    (hstarted : r.started = false) (a : Answer) :
    Ordered b ⟨s.history ++ [(.writeRecord r.started, a)], { s.vars with record := .record r }⟩ := by
  have hfresh : Fresh ⟨s.history ++ [(.writeRecord r.started, a)],
      { s.vars with record := .record r }⟩ :=
    h.call (Allowed.other (by simp) (by simp)) (by simp [hstarted])
  refine ⟨hfresh.allowed, fun _ => ?_, fun hn => absurd hn hfresh.unnoted⟩
  exact ⟨hcreated.append, Or.inr ⟨r, rfl, hr, hstarted⟩⟩

/-- **A run that finds no VM leaves the order**, unless it leaves one half made. -/
theorem make_keeps (h : Ordered b s) (hex : ¬ b.vmExists s.vars) {spec : Spec}
    (hspec : 0 < spec.memoryMB) :
    Act.wp (make env b p spec) (fun _ s' => Ordered b s')
      (fun _ s' => Orderly b s'.history → Ordered b s') s := by
  -- the order is kept, and no VM is there, up to `Create`
  have hquiet : ∀ s', Act.Within (fun _ c => c.quiet = true) (Like b s.vars) s s' →
      Ordered b s' ∧ ¬ b.vmExists s'.vars := by
    intro s' hs
    obtain ⟨hadds, hlike⟩ := hs ⟨rfl, rfl⟩
    exact ⟨h.quiet hadds hlike, hlike.1 ▸ hex⟩
  unfold make
  rw [Act.wp_bind]
  refine Act.wp_mono (prepare_yields env b p spec s.vars s ⟨rfl, rfl⟩) ?_
    fun _ s₁ hs₁ _ => (hquiet s₁ hs₁).1
  intro spec' s₁ hs₁
  obtain ⟨h₁, hex₁⟩ := hquiet s₁ hs₁.1
  have hof : Record.Of b ⟨b.id, spec', false⟩ := ⟨rfl, lt_of_lt_of_eq hspec hs₁.2.symm⟩
  rw [Act.wp_bind]
  refine Act.wp_mono (create_keeps spec' (h₁.fresh hex₁) hex₁) ?_
    fun _ s₂ hs₂ ho => (hs₂ ho).1.ordered (hs₂ ho).2
  intro _ s₂ hs₂
  obtain ⟨h₂, hex₂, hcreated⟩ := hs₂
  have hrecorded := h₂.recorded hcreated hof rfl
  rw [Act.wp_bind, writeRecord, wp_step]
  constructor
  · intro _
    have hex₃ : b.vmExists { s₂.vars with record := .record ⟨b.id, spec', false⟩ } := by
      cases b <;> exact hex₂
    rw [Act.wp_bind]
    refine Act.wp_mono (start_keeps (hrecorded .done) hex₃) ?_ fun _ _ hs _ => hs
    intro _ s₄ hs₄
    refine Act.wp_mono (mark_keeps hs₄.1 (hs₄.2.1 ▸ hex₃) hs₄.2.2 fun _ => ?_) (fun _ _ hs => hs)
      fun _ _ hs _ => hs
    rw [hs₄.2.1]
    exact ⟨rfl, hof⟩
  · intro a ha _ ho
    obtain rfl : a = .late := (ho.last.2.2 rfl).resolve_left ha
    exact hrecorded .late

/-! ## Runs -/

/-- **A run leaves the order**, unless it leaves a VM half made. -/
theorem run_keeps (h : Ordered b s) (hp : 0 < p.spec.memoryMB)
    (ho : Orderly b (run env b p s).2.history) : Ordered b (run env b p s).2 := by
  have hwp : Act.wp (run env b p) (fun _ s' => Orderly b s'.history → Ordered b s')
      (fun _ s' => Orderly b s'.history → Ordered b s') s := by
    unfold run Act.vars
    rw [Act.wp_bind, Act.wp_map, Act.wp_get, Act.wp_ite]
    constructor
    · intro hex
      exact Act.wp_mono (again_keeps h hex) (fun _ _ hs _ => hs) fun _ _ hs _ => hs
    · intro hex
      have hspec : 0 < ((known b s.vars).elim p.spec Record.spec).memoryMB := by
        rcases hknown : known b s.vars with _ | r
        · exact hp
        · exact (of_known hknown).1.2
      exact Act.wp_mono (make_keeps h hex hspec) (fun _ _ hs _ => hs) fun _ _ hs => hs
  exact Act.wp_state hwp ho

section Growth

variable (env) (b)

theorem step_grows (c : Call) (effect : Answer → Folder → Folder) (e : Fault) :
    Act.Makes (fun _ _ => True) (fun _ => True) (step env c effect e) :=
  step_makes (fun _ => trivial) fun _ _ _ => trivial

theorem again_grows (r : Record) :
    Act.Makes (fun _ _ => True) (fun _ => True) (again env b r) := by
  have htidy : Act.Makes (fun _ _ => True) (fun _ => True) (tidy env b r) :=
    Act.Makes.ite (fun _ => (finish_makes (fun _ _ => trivial) fun _ _ _ => trivial).mono
      fun _ _ _ => trivial) fun _ => Act.Makes.pure ()
  have hmark : Act.Makes (fun _ _ => True) (fun _ => True) (markStarted env r) :=
    Act.Makes.ite (fun _ => Act.Makes.pure ()) fun _ => step_grows _ _ _ _
  unfold again
  refine Act.Makes.bind (Act.Makes.ask fun _ => trivial) fun _ => ?_
  refine Act.Makes.ite (fun _ => step_grows _ _ _ _) fun _ => ?_
  exact htidy.bind fun _ => (step_grows _ _ _ _).bind fun _ => hmark

theorem create_grows (spec : Spec) :
    Act.Makes (fun _ _ => True) (fun _ => True) (create env b spec) := by
  unfold create
  refine Act.Makes.bind Act.Makes.vars fun _ => Act.Makes.ite (fun _ => Act.Makes.fail _) fun _ => ?_
  refine (step_grows _ _ _ _).bind fun _ => (step_grows _ _ _ _).bind fun _ => ?_
  cases b <;> exact step_grows _ _ _ _

theorem make_grows (p : Plan) (spec : Spec) :
    Act.Makes (fun _ _ => True) (fun _ => True) (make env b p spec) := by
  have hprepare : Act.Makes (fun _ _ => True) (fun _ => True) (prepare env p spec) := by
    intro s _
    obtain ⟨hadds, -⟩ := (prepare_yields env b p spec s.vars).makes s ⟨rfl, rfl⟩
    exact ⟨hadds.mono fun _ _ _ => trivial, trivial⟩
  have hmark : ∀ r, Act.Makes (fun _ _ => True) (fun _ => True) (markStarted env r) := fun r =>
    Act.Makes.ite (fun _ => Act.Makes.pure ()) fun _ => step_grows _ _ _ _
  unfold make
  exact hprepare.bind fun _ => (create_grows _ _ _).bind fun _ => (step_grows _ _ _ _).bind fun _ =>
    (step_grows _ _ _ _).bind fun _ => hmark _

/-- A run adds to the history. -/
theorem run_grows (p : Plan) (s : Recorded Call Answer Folder) :
    ∃ es, (run env b p s).2.history = s.history ++ es := by
  have hrun : Act.Makes (fun _ _ => True) (fun _ => True) (run env b p) := by
    unfold run
    refine Act.Makes.bind Act.Makes.vars fun _ => ?_
    exact Act.Makes.ite (fun _ => again_grows _ _ _) fun _ => make_grows _ _ _ _
  obtain ⟨⟨es, hes, -⟩, -⟩ := hrun s trivial
  exact ⟨es, hes⟩

theorem runs_grow (ps : List Plan) (s : Recorded Call Answer Folder) :
    ∃ es, (runs env b ps s).history = s.history ++ es := by
  induction ps generalizing s with
  | nil => exact ⟨[], (List.append_nil _).symm⟩
  | cons p ps ih =>
    obtain ⟨es, hes⟩ := run_grows env b p s
    obtain ⟨fs, hfs⟩ := ih (run env b p s).2
    refine ⟨es ++ fs, ?_⟩
    rw [runs, hfs, hes, List.append_assoc]

end Growth

theorem runs_keep {ps : List Plan} (h : Ordered b s) (hps : ∀ p ∈ ps, 0 < p.spec.memoryMB)
    (ho : Orderly b (runs env b ps s).history) : Ordered b (runs env b ps s) := by
  induction ps generalizing s with
  | nil => exact h
  | cons p ps ih =>
    obtain ⟨es, hes⟩ := runs_grow env b ps (run env b p s).2
    have ho' : Orderly b (run env b p s).2.history := by
      intro e he
      refine ho e ?_
      rw [runs, hes]
      exact List.mem_append_left es he
    exact ih (run_keeps h (hps p List.mem_cons_self) ho')
      (fun p' hp' => hps p' (List.mem_cons_of_mem p hp')) ho

/-- There is no VM, and nothing has been done. -/
def nothing : Recorded Call Answer Folder := { vars := .new }

theorem nothing_ordered : Ordered b nothing :=
  Fresh.ordered ⟨allCalls_nil _, fun hn => by cases hn⟩ (by cases b <;> decide)

/-! ## Tidying up -/

/-- One of the new calls is one `Finish` made that failed. -/
def Untidied (s s' : Recorded Call Answer Folder) : Prop :=
  ∃ es, s'.history = s.history ++ es ∧ ∃ e ∈ es, e.1.tidies = true ∧ e.2 ≠ .done

theorem Untidied.of_last {c : Call} {a : Answer} {g : Folder} (hc : c.tidies = true)
    (ha : a ≠ .done) : Untidied s ⟨s.history ++ [(c, a)], g⟩ :=
  ⟨[(c, a)], rfl, (c, a), List.mem_cons_self, hc, ha⟩

theorem Untidied.after {s₁ s₂ : Recorded Call Answer Folder} {es : List (Call × Answer)}
    (h : Untidied s₁ s₂) (hes : s₁.history = s.history ++ es) : Untidied s s₂ := by
  obtain ⟨fs, hfs, e, he, hbad⟩ := h
  exact ⟨es ++ fs, by rw [hfs, hes, List.append_assoc], e, List.mem_append_right es he, hbad⟩

theorem removeAnswers_clears : Act.wp (removeAnswers env)
    (fun _ s' => s'.vars.answers = .absent) (fun _ s' => Untidied s s') s := by
  unfold removeAnswers Act.vars
  rw [Act.wp_bind, Act.wp_map, Act.wp_get, Act.wp_ite, Act.wp_pure, wp_step]
  exact ⟨fun h => h, fun _ => ⟨fun _ => rfl, fun a ha _ => Untidied.of_last rfl ha⟩⟩

theorem finish_clears : Act.wp (finish env b)
    (fun _ s' => s'.vars.answers = .absent) (fun _ s' => Untidied s s') s := by
  unfold finish
  cases b with
  | qemu => exact removeAnswers_clears
  | vmware =>
    unfold check detach Act.vars
    simp only [Act.wp_bind, Act.wp_map, Act.wp_get, Act.wp_ite, Act.wp_pure, wp_step]
    refine ⟨fun _ => ⟨fun _ => ⟨fun _ => ?_, fun a ha _ => ?_⟩, fun _ => ?_⟩,
      fun a ha _ => Untidied.of_last rfl ha⟩
    · exact Act.wp_mono removeAnswers_clears (fun _ _ hs => hs)
        fun _ _ hs => hs.after (List.append_assoc _ _ _)
    · exact (Untidied.of_last (s := ⟨s.history ++ [_], s.vars⟩) rfl ha).after rfl
    · exact Act.wp_mono removeAnswers_clears (fun _ _ hs => hs) fun _ _ hs => hs.after rfl

theorem callsOf_append {s' : Recorded Call Answer Folder} {es : List (Call × Answer)}
    (h : s'.history = s.history ++ es) : callsOf s s' = es := by
  rw [callsOf, h, List.drop_left]

theorem Untidied.cleared {s' : Recorded Call Answer Folder} (h : Untidied s s') : Cleared s s' := by
  obtain ⟨es, hes, e, he, htidies, hbad⟩ := h
  intro _ hdone
  rw [callsOf_append hes] at hdone
  exact absurd (hdone e he htidies) hbad

theorem cleared_of_absent {s' : Recorded Call Answer Folder} (h : s'.vars.answers = .absent) :
    Cleared s s' := fun _ _ => h

/-- A run by a record that says the VM was started. -/
theorem again_clears (hr : r.started = true) :
    Act.wp (again env b r) (fun _ s' => Cleared s s') (fun _ s' => Cleared s s') s := by
  unfold again tidy markStarted start check
  rw [if_pos hr, if_pos hr, Act.wp_bind, Act.wp_ask, Act.wp_ite]
  constructor
  · intro hrunning
    have hfound : ∀ a g, Cleared s
        ⟨(s.history ++ [(Call.running, env s.history .running)]) ++ [(.start, a)], g⟩ := by
      intro a g hoff
      rw [callsOf_append (List.append_assoc _ _ _), hrunning] at hoff
      exact absurd List.mem_cons_self hoff
    rw [wp_step]
    exact ⟨fun _ => hfound _ _, fun a _ _ => hfound a _⟩
  · intro _
    rw [Act.wp_bind]
    refine Act.wp_mono finish_clears ?_ fun _ _ hs => (hs.after rfl).cleared
    intro _ s₁ hs₁
    rw [Act.wp_bind, wp_step]
    exact ⟨fun _ => cleared_of_absent hs₁, fun _ _ _ => cleared_of_absent hs₁⟩

end Runs

/-! ## Where the answers disk is lost, and where it stays -/

/-- The calls are answered in order by the list, and with success from its end on. -/
def scripted (l : List Answer) : Surroundings Call Answer := fun before _ =>
  l.getD before.length .done

/-- A guided install, once more each time. -/
def guided : Plan := ⟨⟨4096, false⟩, .guided, "me", ""⟩

end Aurade.Vm
