import Aurade.Installer.Engine

/-!
# What every part of the engine keeps to

Apart from the stages that partition, format and mount, the engine executes no command that shapes
the disk, and in a dry run it executes none that changes anything but its own files. Both are said of
one call in `Tame`, and of a part of the engine in `Tamed`.
-/

namespace Aurade.Installer

open Act

/-- The commands that partition, format or mount. -/
def Command.shapes : Command → Bool
  | .wipefs _ | .zapAll _ | .newTable _ _ | .largestNew _ _ | .mkfsFat _ | .mkfs _ _ => true
  | .luksFormat _ _ | .mount _ _ _ => true
  | _ => false

/-- The directory and everything under it. -/
def Under (dir p : Bytes) : Prop := p = dir ∨ ∃ t, p = dir ++ 47 :: t

/-- The directory and everything under it are `own`. -/
def OwnDir (own : Bytes → Prop) (dir : Bytes) : Prop := ∀ p, Under dir p → own p

/-- The engine's own files are `own`: the journal, the copies of it, and what it makes under the work
directory asked for or under `/tmp`, where `mktemp` makes its directories in the directory of the
template. -/
structure OwnFiles (host : Host) (own : Bytes → Prop) : Prop where
  journal : own host.journalPath
  raw : own host.journalRaw
  failures : host.failureJournalDir ≠ [] → OwnDir own host.failureJournalDir
  workDir : OwnDir own host.installWorkDir
  tmp : OwnDir own (text "/tmp")
  made : ∀ before dir name, OwnDir own dir →
    (host.reply before (.command (.mktemp (dir ++ 47 :: name)))).ok = true →
    OwnDir own (host.reply before (.command (.mktemp (dir ++ 47 :: name)))).line

/-- The places are all `own` files. -/
def OwnOnly (own : Bytes → Prop) (places : List Place) : Prop := ∀ p ∈ places, ∃ q, p = .path q ∧ own q

/-- The call does not shape the disk, and in a dry run it changes nothing but the engine's files. -/
def Tame (host : Host) (own : Bytes → Prop) (mode : Mode) (c : Call) : Prop :=
  (∀ cmd, c = .command cmd → cmd.shapes = false) ∧
    (mode = .dryRun → OwnFiles host own → OwnOnly own (c.places host))

/-- In a dry run nothing has been mounted or opened, and the work directory is the engine's. -/
def Unmounted (host : Host) (own : Bytes → Prop) (mode : Mode) (v : Vars) : Prop :=
  mode = .dryRun → v.targetMounted = false ∧ v.cryptOpened = false ∧
    (OwnFiles host own → ∀ d, v.workDir = some d → OwnDir own d)

/-- A part of the engine that keeps to `Tame`. -/
def Tamed {α : Type} (host : Host) (own : Bytes → Prop) (mode : Mode) (m : Engine α) : Prop :=
  Makes (fun _ => Tame host own mode) (Unmounted host own mode) m

variable {host : Host} {own : Bytes → Prop} {mode : Mode} {α β ι : Type}

theorem ownOnly_nil : OwnOnly own [] := by
  intro p hp
  simp at hp

theorem ownOnly_paths (ps : List Bytes) : OwnOnly own (ps.map .path) ↔ ∀ p ∈ ps, own p := by
  simp [OwnOnly]

theorem OwnDir.self {dir : Bytes} (h : OwnDir own dir) : own dir := h dir (Or.inl rfl)

/-- A path that is put together behind the directory. -/
theorem OwnDir.inside {dir t : Bytes} (h : OwnDir own dir) (ht : t.head? = some 47) :
    own (dir ++ t) := by
  cases t with
  | nil => simp at ht
  | cons b t =>
    obtain rfl : b = 47 := by simpa using ht
    exact h _ (Or.inr ⟨t, rfl⟩)

theorem tame_query (q : Query) : Tame host own mode (.query q) :=
  ⟨nofun, fun _ _ => ownOnly_nil⟩

theorem tame_record (r : Record) : Tame host own mode (.record r) :=
  ⟨nofun, fun _ hown => (ownOnly_paths [host.journalPath]).2 (by simpa using hown.journal)⟩

theorem tame_newJournal : Tame host own mode (.newJournal host.journalPath host.journalRaw) :=
  ⟨nofun, fun _ hown => (ownOnly_paths [host.journalPath, host.journalRaw]).2
    (by simpa using ⟨hown.journal, hown.raw⟩)⟩

theorem tame_command {c : Command} (hs : c.shapes = false)
    (ho : mode = .dryRun → OwnFiles host own → OwnOnly own c.places) :
    Tame host own mode (.command c) := by
  refine ⟨fun cmd h => ?_, ho⟩
  obtain rfl : c = cmd := Call.command.inj h
  exact hs

namespace Tamed

theorem pure (a : α) : Tamed host own mode (Pure.pure a) := Makes.pure a

theorem fail (e : Exit) : Tamed host own mode (Act.fail e : Engine α) := Makes.fail e

theorem bind {m : Engine α} {f : α → Engine β} (hm : Tamed host own mode m)
    (hf : ∀ a, Tamed host own mode (f a)) : Tamed host own mode (m >>= f) := Makes.bind hm hf

theorem map {f : α → β} {m : Engine α} (hm : Tamed host own mode m) : Tamed host own mode (f <$> m) :=
  Makes.map hm

theorem vars : Tamed host own mode (Act.vars : Engine Vars) := Makes.vars

theorem ite {c : Prop} [Decidable c] {m m' : Engine α} (h : Tamed host own mode m)
    (h' : Tamed host own mode m') : Tamed host own mode (if c then m else m') :=
  Makes.ite (fun _ => h) fun _ => h'

theorem whenever {c : Prop} [Decidable c] {m : Engine Unit} (h : Tamed host own mode m) :
    Tamed host own mode (whenever c m) := ite h (pure ())

theorem each {γ : Type} [DecidableEq γ] {go : γ} {body : ι → Engine γ} {xs : List ι}
    (h : ∀ x, Tamed host own mode (body x)) : Tamed host own mode (Act.each go body xs) := Makes.each h

theorem forEach {xs : List ι} {body : ι → Engine Unit} (h : ∀ x, Tamed host own mode (body x)) :
    Tamed host own mode (forEach xs body) := each h

/-- The variables that nobody asks about. -/
theorem assign {f : Vars → Vars}
    (h : ∀ v, (f v).targetMounted = v.targetMounted ∧ (f v).cryptOpened = v.cryptOpened ∧
      (f v).workDir = v.workDir := by exact fun _ => ⟨rfl, rfl, rfl⟩) :
    Tamed host own mode (Act.assign f) := Makes.assign fun v hv hmode => by
  rw [(h v).1, (h v).2.1, (h v).2.2]
  exact hv hmode

/-! ## The shell -/

theorem askQuery (q : Query) : Tamed host own mode (Act.ask host.reply (.query q) : Engine Reply) :=
  Makes.ask fun _ => tame_query q

theorem askRecord (r : Record) : Tamed host own mode (Act.ask host.reply (.record r) : Engine Reply) :=
  Makes.ask fun _ => tame_record r

theorem askCommand {c : Command} (hs : c.shapes = false)
    (ho : mode = .dryRun → OwnFiles host own → OwnOnly own c.places) :
    Tamed host own mode (Act.ask host.reply (.command c) : Engine Reply) :=
  Makes.ask fun _ => tame_command hs ho

theorem heed (r : Reply) : Tamed host own mode (heed r) := by
  unfold Installer.heed
  split
  · exact fail _
  · exact pure ()

theorem settle (r : Reply) : Tamed host own mode (settle r) := bind (heed r) fun _ => ite (pure ()) (fail _)

theorem look {c : Call} (h : Tame host own mode c) : Tamed host own mode (look host c) :=
  bind (Makes.ask fun _ => h) fun r => bind (heed r) fun _ => pure r

theorem must {c : Call} (h : Tame host own mode c) : Tamed host own mode (must host c) :=
  bind (look h) fun r => ite (pure r) (fail _)

theorem asks (q : Query) : Tamed host own mode (asks host q) := map (look (tame_query q))

theorem andAsks (first : Bool) (q : Query) : Tamed host own mode (andAsks host first q) :=
  ite (asks q) (pure _)

theorem answer (q : Query) : Tamed host own mode (answer host q) := map (must (tame_query q))

theorem listing (q : Query) : Tamed host own mode (listing host q) := map (look (tame_query q))

theorem lookQuery (q : Query) : Tamed host own mode (Installer.look host (.query q)) := look (tame_query q)

theorem mustQuery (q : Query) : Tamed host own mode (Installer.must host (.query q)) := must (tame_query q)

theorem lookCommand {c : Command} (hs : c.shapes = false)
    (ho : mode = .dryRun → OwnFiles host own → OwnOnly own c.places) :
    Tamed host own mode (Installer.look host (.command c)) := look (tame_command hs ho)

theorem exec {c : Command} (hs : c.shapes = false)
    (ho : mode = .dryRun → OwnFiles host own → OwnOnly own c.places) :
    Tamed host own mode (exec host c) := map (must (tame_command hs ho))

/-! ## Records and endings -/

theorem journalEmit (stage : Stage) (status : Status) (message : Bytes) (detail : Detail) :
    Tamed host own mode (journalEmit host stage status message detail) :=
  bind assign fun _ => vars.bind fun _ => askRecord _

theorem assignLeave (stage : Stage) : Tamed host own mode (Act.assign (leaveStage stage)) := by
  have h : ∀ v, (leaveStage stage v).targetMounted = v.targetMounted ∧
      (leaveStage stage v).cryptOpened = v.cryptOpened ∧ (leaveStage stage v).workDir = v.workDir := by
    intro v
    unfold leaveStage
    split <;> simp
  exact assign h

theorem journalBegin (stage : Stage) (message : Bytes) :
    Tamed host own mode (journalBegin host stage message) :=
  (answer _).bind fun _ => bind assign fun _ =>
    (journalEmit _ _ _ _).bind fun _ => settle _

theorem journalProgress (stage : Stage) (pct : ℕ) (detail : Bytes) :
    Tamed host own mode (journalProgress host stage pct detail) :=
  (journalEmit _ _ _ _).bind fun _ => settle _

theorem journalOk (stage : Stage) (message : Bytes) : Tamed host own mode (journalOk host stage message) :=
  vars.bind fun _ => (ite (answer _) (pure _)).bind fun _ => (journalEmit _ _ _ _).bind fun _ =>
    (settle _).bind fun _ => vars.bind fun _ => (assignLeave stage).bind fun _ => whenever (fail _)

theorem journalFail (stage : Stage) (exit : ℕ) (cause : Cause) (message : Bytes)
    (remediation : List Remedy) :
    Tamed host own mode (journalFail host stage exit cause message remediation) := journalEmit _ _ _ _

theorem journalInit (word target : Bytes) : Tamed host own mode (journalInit host word target) :=
  (lookQuery _).bind fun _ => (lookQuery _).bind fun _ => (look tame_newJournal).bind fun _ =>
    ite ((journalEmit _ _ _ _).bind fun _ => (heed _).bind fun _ => pure _) (pure _)

theorem die (message : Bytes) : Tamed host own mode (die host message : Engine α) := by
  refine vars.bind fun v => ?_
  split
  · exact (journalFail _ _ _ _ _).bind fun _ => (settle _).bind fun _ =>
      (assignLeave _).bind fun _ => fail _
  · exact fail _

theorem orDie (c : Bool) (message : Bytes) : Tamed host own mode (orDie host c message) :=
  ite (pure _) (die _)

theorem checks (cs : List (Bool × Bytes)) : Tamed host own mode (checks host cs) := by
  induction cs with
  | nil => exact pure ()
  | cons c cs ih => exact (orDie _ _).bind fun _ => ih

/-! ## The options -/

theorem choose {ι : Type} (values : List ι) (word : ι → Bytes) (w message : Bytes) :
    Tamed host own mode (choose host values word w message) := by
  unfold Installer.choose
  split
  · exact pure _
  · exact die _

theorem canonicalDevice (value : Bytes) : Tamed host own mode (canonicalDevice host value) :=
  (asks _).bind fun _ => ite (answer _) (pure _)

theorem secureBootValidateMaterial (key cert : Bytes) :
    Tamed host own mode (secureBootValidateMaterial host key cert) :=
  (orDie _ _).bind fun _ => (asks _).bind fun _ => (orDie _ _).bind fun _ => (asks _).bind fun _ =>
    (orDie _ _).bind fun _ => (lookQuery _).bind fun _ => (orDie _ _).bind fun _ =>
    (asks _).bind fun _ => (orDie _ _).bind fun _ => (lookQuery _).bind fun _ =>
    (orDie _ _).bind fun _ => (lookQuery _).bind fun _ => (orDie _ _).bind fun _ => orDie _ _

theorem fileChecks (o : Options) : Tamed host own mode (fileChecks host o) :=
  (asks _).bind fun _ => (orDie _ _).bind fun _ => (lookQuery _).bind fun _ =>
    (orDie _ _).bind fun _ => (asks _).bind fun _ => (orDie _ _).bind fun _ =>
    (whenever ((asks _).bind fun _ => (orDie _ _).bind fun _ => (asks _).bind fun _ =>
      (orDie _ _).bind fun _ => (lookQuery _).bind fun _ => orDie _ _)).bind fun _ =>
    (asks _).bind fun _ => (orDie _ _).bind fun _ => (asks _).bind fun _ => (orDie _ _).bind fun _ =>
    forEach fun _ => (asks _).bind fun _ => (orDie _ _).bind fun _ => (asks _).bind fun _ =>
      (andAsks _ _).bind fun _ => (andAsks _ _).bind fun _ => orDie _ _

/-! ## The traps -/

/-- What `mktemp` prints is the engine's, where the directory of the template is. -/
theorem askMktemp {dir name : Bytes} (h : mode = .dryRun → OwnFiles host own → OwnDir own dir) :
    Yields (fun _ => Tame host own mode) (Unmounted host own mode)
      (fun r => mode = .dryRun → OwnFiles host own → r.ok = true → OwnDir own r.line)
      (Act.ask host.reply (.command (.mktemp (dir ++ 47 :: name))) : Engine Reply) :=
  Yields.ask (fun _ => tame_command rfl fun hm hown =>
      (ownOnly_paths [dir ++ 47 :: name]).2 (by simpa using h hm hown _ (Or.inr ⟨name, rfl⟩)))
    fun before hm hown => hown.made before dir name (h hm hown)

theorem preserveFailure : Tamed host own mode (preserveFailure host) := by
  refine Makes.ite (fun hset => ?_) fun _ => pure ()
  refine (askQuery _).bind fun _ => whenever ?_
  have hdir : OwnFiles host own → OwnDir own host.failureJournalDir := fun hown =>
    hown.failures fun hnil => by simp [hnil] at hset
  refine (askCommand rfl fun _ hown => ?_).bind fun _ => whenever ?_
  · exact (ownOnly_paths [_]).2 (by simpa using (hdir hown).self)
  refine Yields.bindMakes (askMktemp fun _ hown => hdir hown) fun made hmade =>
    Makes.ite (fun hok => ?_) fun _ => pure ()
  refine (askCommand rfl fun hm hown => ?_).bind fun _ => whenever (map (askCommand rfl fun hm hown => ?_))
  · exact (ownOnly_paths [_]).2 (by simpa using (hmade hm hown hok).inside rfl)
  · exact (ownOnly_paths [_]).2 (by simpa using (hmade hm hown hok).self)

theorem failActive (status : ℕ) (cause : Cause) (message : Bytes) :
    Tamed host own mode (failActive host status cause message) := by
  refine vars.bind fun v => ?_
  split
  · exact (map (journalFail _ _ _ _ _)).bind fun _ => assignLeave _
  · exact pure ()

theorem handleCancel (status : ℕ) : Tamed host own mode (handleCancel host status) :=
  (failActive _ _ _).bind fun _ => preserveFailure

theorem removeWork : Tamed host own mode (removeWork host) := by
  refine Yields.bindMakes Yields.vars fun v hv => ?_
  split
  · next dir hdir =>
    refine (askQuery _).bind fun _ => (whenever (map (askCommand rfl fun _ _ => ownOnly_nil))).bind
      fun _ => map (askCommand rfl fun hm hown => ?_)
    exact (ownOnly_paths [dir]).2 (by simpa using ((hv hm).2.2 hown dir hdir).self)
  · exact pure ()

theorem cleanup (mountpoint : Bytes) (status : ℕ) : Tamed host own mode (cleanup host mountpoint status) := by
  refine Yields.bindMakes Yields.vars fun v hv => ?_
  refine (whenever (map (askCommand rfl fun _ _ => ownOnly_nil))).bind fun _ => ?_
  refine (whenever ((failActive _ _ _).bind fun _ => preserveFailure)).bind fun _ => ?_
  -- in a dry run neither of the two is reached
  refine (Makes.ite (fun hmounted => map (askCommand rfl fun hm _ => ?_)) fun _ => pure ()).bind
    fun _ => ?_
  · simp [(hv hm).1] at hmounted
  refine (Makes.ite (fun hopened => map (askCommand rfl fun hm _ => ?_)) fun _ => pure ()).bind
    fun _ => removeWork
  simp [(hv hm).2.1] at hopened

/-- The script with its traps keeps to what the script keeps to. -/
theorem withTraps {script : Engine Unit} (mountpoint : Bytes) (h : Tamed host own mode script) :
    Tamed host own mode (withTraps host mountpoint script) := by
  refine bind (Makes.attempt h) fun ended => ?_
  split
  · exact cleanup _ _
  · exact cleanup _ _
  · exact (handleCancel _).bind fun _ => cleanup _ _
  · exact (handleCancel _).bind fun _ => cleanup _ _

/-! ## Before the disk is touched -/

variable {s : Settings} {p : Packages} {w : Work} {c : Checked}

theorem choosePackages : Tamed host own mode (choosePackages host s) :=
  (lookQuery _).bind fun _ => (orDie _ _).bind fun _ => (orDie _ _).bind fun _ =>
    (orDie _ _).bind fun _ => (listing _).bind fun _ => (ite (listing _) (pure _)).bind fun _ =>
    (ite (listing _) (pure _)).bind fun _ => pure _

theorem requireProgram (name : Bytes) : Tamed host own mode (requireProgram host name) :=
  (asks _).bind fun _ => orDie _ _

theorem requireShapeTools : Tamed host own mode (requireShapeTools host s) :=
  (whenever (requireProgram _)).bind fun _ => (whenever (requireProgram _)).bind fun _ =>
    whenever ((requireProgram _).bind fun _ =>
      (whenever ((requireProgram _).bind fun _ => (asks _).bind fun _ => orDie _ _)).bind fun _ =>
      whenever (requireProgram _))

theorem largestFreeBytes (disk : Bytes) : Tamed host own mode (largestFreeBytes host disk) :=
  (lookQuery _).bind fun _ => (lookQuery _).bind fun _ => (lookQuery _).bind fun _ =>
    ite (pure _) (pure _)

theorem inUseChecks (target : Bytes) : Tamed host own mode (inUseChecks host target) :=
  (answer _).bind fun _ => (lookQuery _).bind fun _ => (orDie _ _).bind fun _ =>
    (listing _).bind fun _ => (forEach fun _ => orDie _ _).bind fun _ => (listing _).bind fun _ =>
    (forEach fun _ => orDie _ _).bind fun _ => (lookQuery _).bind fun _ =>
    forEach fun _ => whenever ((ite (pure _) (lookQuery _)).bind fun _ => orDie _ _)

theorem roomChecks : Tamed host own mode (roomChecks host s) := by
  refine (answer _).bind fun _ => ?_
  split
  · refine (listing _).bind fun types => ?_
    split
    · exact die _
    · exact (largestFreeBytes _).bind fun _ => (orDie _ _).bind fun _ => pure _
  · exact (orDie _ _).bind fun _ => pure _

theorem secureBootState : Tamed host own mode (secureBootState host s) :=
  (lookQuery _).bind fun _ => (ite (pure _) (lookQuery _)).bind fun _ =>
    ite ((lookQuery _).bind fun _ => ite (pure _) (pure _)) (ite (pure _) (pure _))

theorem executeChecks : Tamed host own mode (executeChecks host s) :=
  (answer _).bind fun _ => (orDie _ _).bind fun _ => (orDie _ _).bind fun _ => (asks _).bind fun _ =>
    (orDie _ _).bind fun _ => (asks _).bind fun _ => (orDie _ _).bind fun _ => (answer _).bind fun _ =>
    (orDie _ _).bind fun _ => (orDie _ _).bind fun _ => (inUseChecks _).bind fun _ =>
    roomChecks.bind fun _ => (forEach fun _ => requireProgram _).bind fun _ =>
    requireShapeTools.bind fun _ => (whenever (requireProgram _)).bind fun _ =>
    secureBootState.bind fun _ =>
    (whenever ((forEach fun _ => (asks _).bind fun _ => orDie _ _).bind fun _ =>
      whenever ((asks _).bind fun _ => orDie _ _))).bind fun _ => pure _

/-- The work directory is the engine's, in a dry run. -/
abbrev OwnWork (host : Host) (own : Bytes → Prop) (mode : Mode) (dir : Bytes) : Prop :=
  mode = .dryRun → OwnFiles host own → OwnDir own dir

/-- A command on one file that is the engine's. -/
theorem execOwn {cmd : Command} {path : Bytes} (hs : cmd.shapes = false) (hp : cmd.places = [.path path])
    (h : mode = .dryRun → OwnFiles host own → own path) : Tamed host own mode (Installer.exec host cmd) :=
  exec hs fun hm hown => hp ▸ (ownOnly_paths [path]).2 (by simpa using h hm hown)

theorem lookMktemp {dir name : Bytes} (h : OwnWork host own mode dir) :
    Yields (fun _ => Tame host own mode) (Unmounted host own mode)
      (fun r => r.ok = true → OwnWork host own mode r.line)
      (Installer.look host (.command (.mktemp (dir ++ 47 :: name)))) :=
  Yields.bind (askMktemp h) fun _ hr => Yields.bind (Yields.of_makes (heed _) fun _ => trivial)
    fun _ _ => Yields.pure fun hok hm hown => hr hm hown hok

theorem mustMktemp {dir name : Bytes} (h : OwnWork host own mode dir) :
    Yields (fun _ => Tame host own mode) (Unmounted host own mode) (fun r => OwnWork host own mode r.line)
      (Installer.must host (.command (.mktemp (dir ++ 47 :: name)))) := by
  refine Yields.bind (lookMktemp h) fun r hr => ?_
  split
  · next hok => exact Yields.pure (hr hok)
  · exact fun s _ => Within.refl s

/-- The work directory is noted once it is made. -/
theorem assignWork {dir : Bytes} (h : OwnWork host own mode dir) :
    Tamed host own mode (Act.assign fun v => { v with workDir := some dir }) :=
  Makes.assign fun v hv hm => ⟨(hv hm).1, (hv hm).2.1, fun hown d hd => by
    obtain rfl : dir = d := Option.some.inj hd
    exact h hm hown⟩

theorem workParent :
    Yields (fun _ => Tame host own mode) (Unmounted host own mode)
      (fun r => ∀ parent, r = some parent → parent = host.installWorkDir) (workParent host) := by
  refine Yields.bind (Yields.of_makes (asks _) fun _ => trivial) fun there _ => ?_
  split
  · refine Yields.bind (Yields.of_makes (asks _) fun _ => trivial) fun _ _ =>
      Yields.bind (Yields.of_makes (andAsks _ _) fun _ => trivial) fun _ _ =>
      Yields.bind (Yields.of_makes (andAsks _ _) fun _ => trivial) fun _ _ => Yields.pure ?_
    intro parent h
    split at h <;> simp_all
  · refine Yields.bind (Yields.of_makes (lookCommand rfl fun hm hown => ?_) fun _ => trivial)
      fun made _ => Yields.pure ?_
    · exact (ownOnly_paths [host.installWorkDir]).2 (by simpa using hown.workDir.self)
    · intro parent h
      split at h <;> simp_all

theorem makeWorkDir :
    Yields (fun _ => Tame host own mode) (Unmounted host own mode)
      (fun r => OwnWork host own mode r.1) (makeWorkDir host) := by
  refine Yields.bind (Yields.of_makes (orDie _ _) fun _ => trivial) fun _ _ => ?_
  refine Yields.bind workParent fun parent hparent => ?_
  refine Yields.bind (T := fun r : Reply => r.ok = true → OwnWork host own mode r.line) ?_
    fun made hmade => ?_
  · split
    · next dir =>
      obtain rfl := hparent dir rfl
      exact lookMktemp fun _ hown => hown.workDir
    · exact Yields.pure nofun
  split
  · next hok =>
    exact Yields.bind (Yields.of_makes (assignWork (hmade hok)) fun _ => trivial)
      fun _ _ => Yields.pure (hmade hok)
  · refine Yields.bind (Yields.of_makes (asks _) fun _ => trivial) fun _ _ =>
      Yields.bind (Yields.of_makes (andAsks _ _) fun _ => trivial) fun _ _ =>
      Yields.bind (Yields.of_makes (andAsks _ _) fun _ => trivial) fun _ _ =>
      Yields.bind (Yields.of_makes (orDie _ _) fun _ => trivial) fun _ _ =>
      Yields.bind (mustMktemp fun _ hown => hown.tmp) fun r hr => ?_
    exact Yields.bind (Yields.of_makes (assignWork hr) fun _ => trivial) fun _ _ => Yields.pure hr

theorem writeArchPacmanConf (cache : Bytes) (hw : OwnWork host own mode w.dir) :
    Tamed host own mode (writeArchPacmanConf host s w cache) :=
  execOwn rfl rfl fun hm hown => (hw hm hown).inside rfl

theorem writeArchLocalPacmanConf (cache : Bytes) (hw : OwnWork host own mode w.dir) :
    Tamed host own mode (writeArchLocalPacmanConf host w cache) :=
  execOwn rfl rfl fun hm hown => (hw hm hown).inside rfl

theorem secureBootGenerateMaterial {dir : Bytes} (h : OwnWork host own mode dir) :
    Tamed host own mode (secureBootGenerateMaterial host dir) := by
  refine (asks _).bind fun _ => (orDie _ _).bind fun _ => (lookCommand rfl fun hm hown => ?_).bind
    fun _ => (orDie _ _).bind fun _ =>
    (execOwn rfl rfl fun hm hown => (h hm hown).inside rfl).bind fun _ =>
    (execOwn rfl rfl fun hm hown => (h hm hown).inside rfl).bind fun _ => pure _
  exact (ownOnly_paths [_, _]).2
    (by simpa using ⟨(h hm hown).inside rfl, (h hm hown).inside rfl⟩)

theorem prepareWork :
    Yields (fun _ => Tame host own mode) (Unmounted host own mode)
      (fun w => OwnWork host own mode w.dir) (prepareWork host s c) := by
  refine Yields.bind makeWorkDir fun made hmade => ?_
  have hdir : OwnWork host own mode made.1 := hmade
  refine Yields.bind (Yields.of_makes (execOwn rfl rfl fun hm hown => (hdir hm hown).self)
    fun _ => trivial) fun _ _ => ?_
  refine Yields.bind (Yields.of_makes (lookQuery _) fun _ => trivial) fun _ _ =>
    Yields.bind (Yields.of_makes (orDie _ _) fun _ => trivial) fun _ _ =>
    Yields.bind (Yields.of_makes (orDie _ _) fun _ => trivial) fun _ _ =>
    Yields.bind (Yields.of_makes (ite (secureBootGenerateMaterial hdir) (pure _)) fun _ => trivial)
      fun _ _ =>
    Yields.bind (Yields.of_makes (whenever (secureBootValidateMaterial _ _)) fun _ => trivial)
      fun _ _ => ?_
  refine Yields.bind (Yields.of_makes (exec rfl fun hm hown => ?_) fun _ => trivial) fun _ _ =>
    Yields.bind (Yields.of_makes (writeArchPacmanConf _ hdir) fun _ => trivial)
      fun _ _ => Yields.pure hdir
  exact (ownOnly_paths [_, _]).2
    (by simpa using ⟨(hdir hm hown).inside rfl, (hdir hm hown).inside rfl⟩)

/-! ## The packages -/

/-- In a run that executes, nothing has to be the engine's. -/
theorem execNow {cmd : Command} (hm : mode = .execute) (hs : cmd.shapes = false) :
    Tamed host own mode (Installer.exec host cmd) :=
  exec hs fun hd => nomatch hm.symm.trans hd

theorem lookNow {cmd : Command} (hm : mode = .execute) (hs : cmd.shapes = false) :
    Tamed host own mode (Installer.look host (.command cmd)) :=
  lookCommand hs fun hd => nomatch hm.symm.trans hd

theorem dieKeyringFailure : Tamed host own mode (dieKeyringFailure host : Engine α) := die _

theorem copyPublicKeyring (hm : mode = .execute) (source destination : Bytes) :
    Tamed host own mode (copyPublicKeyring host source destination) :=
  (execNow hm rfl).bind fun _ =>
    (forEach fun _ => (asks _).bind fun _ => whenever (execNow hm rfl)).bind fun _ => execNow hm rfl

theorem prepareArchKeyring (hm : mode = .execute) : Tamed host own mode (prepareArchKeyring host w) :=
  (asks _).bind fun _ => (orDie _ _).bind fun _ => (asks _).bind fun _ => (orDie _ _).bind fun _ =>
    (copyPublicKeyring hm _ _).bind fun _ => (asks _).bind fun _ => (andAsks _ _).bind fun _ =>
    (whenever ((lookNow hm rfl).bind fun _ => whenever dieKeyringFailure)).bind fun _ =>
    (asks _).bind fun _ => (orDie _ _).bind fun _ => (lookNow hm rfl).bind fun _ =>
    (whenever dieKeyringFailure).bind fun _ => (asks _).bind fun _ => (andAsks _ _).bind fun _ =>
    (andAsks _ _).bind fun _ => whenever dieKeyringFailure

theorem planArchPackageSet (hm : mode = .execute) (packages : List Bytes) :
    Tamed host own mode (planArchPackageSet host w packages) := by
  refine (asks _).bind fun _ => (orDie _ _).bind fun _ => (asks _).bind fun _ =>
    (orDie _ _).bind fun _ => (each fun attempt => ?_).bind fun planned => ?_
  · refine (execNow hm rfl).bind fun _ => (lookNow hm rfl).bind fun _ => ite ?_ (pure _)
    refine (lookQuery _).bind fun plan => ite ?_ (pure _)
    split
    · exact die _
    · exact (orDie _ _).bind fun _ => (orDie _ _).bind fun _ => pure _
  · split
    · exact die _
    · exact (requireProgram _).bind fun _ => (asks _).bind fun _ => (orDie _ _).bind fun _ => pure _

theorem selectPackageStaging (requested : Staging) (bytes : ℕ) (path : Bytes) :
    Tamed host own mode (selectPackageStaging host requested bytes path) := by
  unfold Installer.selectPackageStaging
  split
  · exact pure _
  · exact (lookQuery _).bind fun _ => ite (pure _) (pure _)

theorem acquireArchPackages (hw : OwnWork host own s.mode w.dir) :
    Tamed host own s.mode (acquireArchPackages host s p w) := by
  unfold Installer.acquireArchPackages
  split
  · exact (writeArchLocalPacmanConf _ hw).bind fun _ => pure _
  · next hm =>
    refine (asks _).bind fun _ => (orDie _ _).bind fun _ => (asks _).bind fun _ =>
      (orDie _ _).bind fun _ => (execNow hm rfl).bind fun _ => (planArchPackageSet hm _).bind fun _ =>
      (selectPackageStaging _ _ _).bind fun selected => ?_
    split
    · exact die _
    · exact pure _

theorem signaturesGood (ring : Bytes) (packages : List Bytes) :
    Tamed host own mode (signaturesGood host ring packages) := by
  induction packages with
  | nil => exact pure _
  | cons package rest ih =>
    exact (asks _).bind fun _ => (andAsks _ _).bind fun _ => ih.bind fun _ => pure _

theorem verifyArchPackageSignatures (packages : List Bytes) :
    Tamed host own mode (verifyArchPackageSignatures host w packages) :=
  (asks _).bind fun _ => ite (signaturesGood _ _) (pure _)

theorem downloadAttempts (hm : mode = .execute) (stage : Stage) (cache : Bytes) (packages : List Bytes)
    (n attempt failures : ℕ) (bad : Bool) :
    Tamed host own mode (downloadAttempts host stage w cache packages n attempt failures bad) := by
  induction n generalizing attempt failures bad with
  | zero => exact pure _
  | succ n ih =>
    refine ite (pure _) ((execNow hm rfl).bind fun _ => (lookQuery _).bind fun _ =>
      (execNow hm rfl).bind fun _ => (lookNow hm rfl).bind fun got =>
      (forEach fun _ => journalProgress _ _ _).bind fun _ => ite ?_ ?_)
    · exact (listing _).bind fun _ => (orDie _ _).bind fun _ =>
        (verifyArchPackageSignatures _).bind fun _ => ite (pure _) ((asks _).bind fun _ =>
          (whenever dieKeyringFailure).bind fun _ => (execNow hm rfl).bind fun _ => ih _ _ _)
    · exact (asks _).bind fun _ => (whenever dieKeyringFailure).bind fun _ =>
        (lookQuery _).bind fun _ => ih _ _ _

theorem downloadArchPackages (hm : mode = .execute) (cache : Bytes) (changedDisk : Bool) :
    Tamed host own mode (downloadArchPackages host p w cache changedDisk) := by
  refine (asks _).bind fun _ => (orDie _ _).bind fun _ => (asks _).bind fun _ =>
    (orDie _ _).bind fun _ => (execNow hm rfl).bind fun _ => (andAsks _ _).bind fun _ =>
    (whenever ((map (lookNow hm rfl)).bind fun _ => assign)).bind fun _ =>
    (downloadAttempts hm _ _ _ _ _ _ _).bind fun got => vars.bind fun _ =>
    (whenever (map (lookNow hm rfl))).bind fun _ => bind assign fun _ => ?_
  split
  · exact ite (ite (die _) (die _)) (ite (die _) (die _))
  · exact (lookNow hm rfl).bind fun _ => (orDie _ _).bind fun _ =>
      (execNow hm rfl).bind fun _ => pure _

theorem acquireStage (selected : Staging) (hw : OwnWork host own s.mode w.dir) :
    Tamed host own s.mode (acquireStage host s p w selected) := by
  refine ite ((journalBegin _ _).bind fun _ => ?_) (pure _)
  split
  · next hm =>
    exact (downloadArchPackages hm _ _).bind fun _ => (journalOk _ _).bind fun _ => pure _
  · exact (writeArchLocalPacmanConf _ hw).bind fun _ => (journalOk _ _).bind fun _ => pure _

/-! ## The stages -/

/-- What a dry run does not do at all. -/
theorem executing {m : Engine Unit} (h : s.mode = .execute → Tamed host own s.mode m) :
    Tamed host own s.mode (executing s m) := Makes.ite h fun _ => pure ()

theorem run {cmd : Command} (hs : cmd.shapes = false) : Tamed host own s.mode (run host s cmd) :=
  Makes.ite (fun hm => execNow hm hs) fun _ => pure ()

theorem chroot (argv : List Bytes) : Tamed host own s.mode (chroot host s argv) := run rfl

theorem writeTargetFile (relative mode content : Bytes) :
    Tamed host own s.mode (writeTargetFile host s relative mode content) :=
  executing fun hm => (execNow hm rfl).bind fun _ => (execNow hm rfl).bind fun _ => execNow hm rfl

theorem before :
    Yields (fun _ => Tame host own s.mode) (Unmounted host own s.mode)
      (fun r => OwnWork host own s.mode r.1.dir) (before host s p c) := by
  refine Yields.bind (Yields.of_makes (journalInit _ _) fun _ => trivial) fun _ _ =>
    Yields.bind (Yields.of_makes (orDie _ _) fun _ => trivial) fun _ _ =>
    Yields.bind (Yields.of_makes (journalBegin _ _) fun _ => trivial) fun _ _ =>
    Yields.bind (Yields.of_makes (journalOk _ _) fun _ => trivial) fun _ _ =>
    Yields.bind prepareWork fun w hw => ?_
  refine Yields.bind (Yields.of_makes (executing fun hm => prepareArchKeyring hm) fun _ => trivial)
    fun _ _ =>
    Yields.bind (Yields.of_makes (journalBegin _ _) fun _ => trivial) fun _ _ =>
    Yields.bind (Yields.of_makes (acquireArchPackages hw) fun _ => trivial) fun _ _ =>
    Yields.bind (Yields.of_makes (journalOk _ _) fun _ => trivial) fun _ _ =>
    Yields.bind (Yields.of_makes (acquireStage _ hw) fun _ => trivial) fun _ _ =>
    Yields.bind (Yields.of_makes (journalBegin _ _) fun _ => trivial) fun _ _ =>
    Yields.bind (Yields.of_makes (journalOk _ _) fun _ => trivial) fun _ _ => Yields.pure hw

theorem acquireTargetStage (selected : Staging) (cache : Cache) (hw : OwnWork host own s.mode w.dir) :
    Tamed host own s.mode (acquireTargetStage host s p w selected cache) := by
  unfold Installer.acquireTargetStage
  split
  · next hm =>
    exact ite ((run rfl).bind fun _ => (writeArchPacmanConf _ hw).bind fun _ =>
      (journalBegin _ _).bind fun _ => (downloadArchPackages hm _ _).bind fun _ =>
      (journalOk _ _).bind fun _ => pure _) (pure _)
  · exact ite ((run rfl).bind fun _ => (writeArchPacmanConf _ hw).bind fun _ =>
      (writeArchLocalPacmanConf _ hw).bind fun _ => pure _) (pure _)

theorem swapMib : Tamed host own mode (swapMib host s) :=
  ite (pure _) (ite (pure _) (ite (pure _) ((lookQuery _).bind fun _ => ite (pure _) (pure _))))

theorem makeSwapFile (mib : ℕ) (file : Bytes) : Tamed host own s.mode (makeSwapFile host s mib file) := by
  unfold Installer.makeSwapFile
  split
  · exact run rfl
  · exact (run rfl).bind fun _ => (run rfl).bind fun _ => run rfl
  · exact (run rfl).bind fun _ => (run rfl).bind fun _ => run rfl

theorem makeSwap : Tamed host own s.mode (makeSwap host s) :=
  swapMib.bind fun _ => ite ((run rfl).bind fun _ => (makeSwapFile _ _).bind fun _ => pure _) (pure _)

theorem runPacstrap : Tamed host own s.mode (runPacstrap host s p w) :=
  executing fun hm => (each fun _ => (execNow hm rfl).bind fun _ => (lookNow hm rfl).bind fun _ =>
    (forEach fun _ => journalProgress _ _ _).bind fun _ => ite (pure _) ((asks _).bind fun _ =>
      (whenever dieKeyringFailure).bind fun _ => pure _)).bind fun _ => whenever (die _)

theorem pacstrapStage : Tamed host own s.mode (pacstrapStage host s p w) :=
  (journalBegin _ _).bind fun _ => runPacstrap.bind fun _ => journalOk _ _

theorem addRepository (selected : Staging) (cache : Cache) :
    Tamed host own s.mode (addRepository host s p w selected cache) :=
  (executing fun hm => whenever ((forEach fun _ => execNow hm rfl).bind fun _ => execNow hm rfl)).bind
    fun _ => (run rfl).bind fun _ => (executing fun hm => copyPublicKeyring hm _ _).bind fun _ =>
    (whenever ((run rfl).bind fun _ => (chroot _).bind fun _ => (chroot _).bind fun _ =>
      (chroot _).bind fun _ => run rfl)).bind fun _ => (writeTargetFile _ _ _).bind fun _ =>
    (writeTargetFile _ _ _).bind fun _ => (run rfl).bind fun _ => (writeTargetFile _ _ _).bind fun _ =>
    (run rfl).bind fun _ => chroot _

theorem configureBasics (swapFile : Option ℕ) : Tamed host own s.mode (configureBasics host s swapFile) :=
  (run rfl).bind fun _ => (whenever (run rfl)).bind fun _ => (whenever (writeTargetFile _ _ _)).bind
    fun _ => (chroot _).bind fun _ => (chroot _).bind fun _ => (writeTargetFile _ _ _).bind fun _ =>
    (listing _).bind fun _ => (writeTargetFile _ _ _).bind fun _ => (writeTargetFile _ _ _).bind
    fun _ => pure _

theorem configureRecords : Tamed host own s.mode (configureRecords host s) :=
  (writeTargetFile _ _ _).bind fun _ => (answer _).bind fun _ => (lookQuery _).bind fun _ =>
    (whenever (writeTargetFile _ _ _)).bind fun _ => writeTargetFile _ _ _

theorem configureAccessibility : Tamed host own s.mode (configureAccessibility host s) :=
  (whenever ((writeTargetFile _ _ _).bind fun _ => (writeTargetFile _ _ _).bind fun _ =>
    (writeTargetFile _ _ _).bind fun _ => (chroot _).bind fun _ =>
    whenever (writeTargetFile _ _ _))).bind fun _ => (asks _).bind fun _ => (asks _).bind fun _ =>
    (asks _).bind fun _ => (andAsks _ _).bind fun _ =>
    (whenever ((run rfl).bind fun _ => (run rfl).bind fun _ => chroot _)).bind fun _ =>
    (whenever (chroot _)).bind fun _ => whenever (chroot _)

theorem configureAccount : Tamed host own s.mode (configureAccount host s) :=
  (run rfl).bind fun _ => (chroot _).bind fun _ => (chroot _).bind fun _ => (run rfl).bind fun _ =>
    writeTargetFile _ _ _

theorem configureDesktop : Tamed host own s.mode (configureDesktop host s p) :=
  (whenever (executing fun hm => (asks _).bind fun _ => ite (execNow hm rfl)
    ((execNow hm rfl).bind fun _ => execNow hm rfl))).bind fun _ =>
    (whenever (executing fun hm => (asks _).bind fun _ => whenever ((asks _).bind fun _ =>
      whenever ((asks _).bind fun _ => ite (execNow hm rfl) (execNow hm rfl))))).bind fun _ =>
    (whenever ((writeTargetFile _ _ _).bind fun _ => chroot _)).bind fun _ =>
    (whenever (executing fun hm => map (lookNow hm rfl))).bind fun _ =>
    (whenever (chroot _)).bind fun _ => (whenever (chroot _)).bind fun _ =>
    (whenever (writeTargetFile _ _ _)).bind fun _ => (chroot _).bind fun _ => (chroot _).bind fun _ =>
    (chroot _).bind fun _ => whenever (run rfl)

theorem secureBootSignInPlace (input : Bytes) :
    Tamed host own s.mode (secureBootSignInPlace host s w input) :=
  (asks _).bind fun _ => (orDie _ _).bind fun _ => executing fun hm =>
    (must (tame_command rfl fun hd => nomatch hm.symm.trans hd)).bind fun _ => (lookNow hm rfl).bind
    fun _ => (whenever ((execNow hm rfl).bind fun _ => die _)).bind fun _ =>
    (execNow hm rfl).bind fun _ => execNow hm rfl

theorem configureHooks (swapFile : Option ℕ) : Tamed host own s.mode (configureHooks host s p swapFile) :=
  ite ((run rfl).bind fun _ => whenever (writeTargetFile _ _ _)) (whenever (run rfl))

theorem configureBoot (xkb : List Bytes) (swapFile : Option ℕ) :
    Tamed host own s.mode (configureBoot host s p w c xkb swapFile) :=
  (configureHooks _).bind fun _ => (chroot _).bind fun _ => whenever ((run rfl).bind fun _ =>
    (run rfl).bind fun _ => (run rfl).bind fun _ => (asks _).bind fun _ => (run rfl).bind fun _ =>
    (listing _).bind fun _ => forEach fun _ => secureBootSignInPlace _)

theorem configureStage (swapFile : Option ℕ) : Tamed host own s.mode (configureStage host s p w c swapFile) :=
  (journalBegin _ _).bind fun _ => (configureBasics _).bind fun _ => configureRecords.bind fun _ =>
    configureAccessibility.bind fun _ => configureAccount.bind fun _ => configureDesktop.bind fun _ =>
    (configureBoot _ _).bind fun _ => (journalOk _ _).bind fun _ => pure _

theorem secureBootSignLoader : Tamed host own s.mode (secureBootSignLoader host s w c) :=
  whenever (executing fun hm => (asks _).bind fun _ => (orDie _ _).bind fun _ => (lookNow hm rfl).bind
    fun _ => (orDie _ _).bind fun _ => execNow hm rfl)

theorem bootRoot (parts : Parts) (swapFile : Option ℕ) :
    Tamed host own mode (bootRoot host s parts swapFile) := by
  unfold Installer.bootRoot
  dsimp only
  split
  · exact pure _
  · exact (answer _).bind fun _ => (ite (answer _) (pure _)).bind fun _ =>
      ite ((lookQuery _).bind fun _ => ite (pure _) (pure _)) (pure _)

theorem microcodeImage : Tamed host own mode (microcodeImage host s) := by
  unfold Installer.microcodeImage
  split
  · exact pure _
  · exact (answer _).bind fun _ => pure _

theorem bootloaderStage (parts : Parts) (xkb : List Bytes) (swapFile : Option ℕ) :
    Tamed host own s.mode (bootloaderStage host s p w c parts xkb swapFile) :=
  (journalBegin _ _).bind fun _ => secureBootSignLoader.bind fun _ => (run rfl).bind fun _ =>
    (bootRoot _ _).bind fun _ => (writeTargetFile _ _ _).bind fun _ => microcodeImage.bind fun _ =>
    (writeTargetFile _ _ _).bind fun _ =>
    (whenever ((run rfl).bind fun _ => (forEach fun _ => run rfl).bind fun _ =>
      writeTargetFile _ _ _)).bind fun _ => (run rfl).bind fun _ => (run rfl).bind fun _ =>
    (run rfl).bind fun _ => (run rfl).bind fun _ => (run rfl).bind fun _ =>
    (journalOk _ _).bind fun _ => pure _

theorem snapshotStage (root : BootRoot) (swapFile : Option ℕ) :
    Tamed host own s.mode (snapshotStage host s c root swapFile) :=
  (journalBegin _ _).bind fun _ => (answer _).bind fun _ => (writeTargetFile _ _ _).bind fun _ =>
    (whenever (run rfl)).bind fun _ => (run rfl).bind fun _ => journalOk _ _

theorem requireFile (path message : Bytes) : Tamed host own mode (requireFile host s path message) :=
  (asks _).bind fun _ => orDie _ _

theorem verifyRollback (artifacts : List Bytes) : Tamed host own mode (verifyRollback host s artifacts) :=
  ite ((requireFile _ _).bind fun _ => forEach fun _ => requireFile _ _)
    ((asks _).bind fun _ => orDie _ _)

theorem inTarget (argv : List String) : Tamed host own mode (inTarget host s argv) := lookQuery _

theorem verifyStage (artifacts : List Bytes) (swapFile : Option ℕ) :
    Tamed host own s.mode (verifyStage host s artifacts swapFile) :=
  (journalBegin _ _).bind fun _ => (executing fun _ => (asks _).bind fun _ => (orDie _ _).bind fun _ =>
    (requireFile _ _).bind fun _ => (forEach fun _ => requireFile _ _).bind fun _ =>
    (verifyRollback _).bind fun _ => (whenever ((requireFile _ _).bind fun _ => (asks _).bind fun _ =>
      orDie _ _)).bind fun _ => (inTarget _).bind fun _ => (orDie _ _).bind fun _ =>
    (inTarget _).bind fun _ => (orDie _ _).bind fun _ => (mustQuery _).bind fun _ =>
    (orDie _ _).bind fun _ => (asks _).bind fun _ => (orDie _ _).bind fun _ =>
    requireFile _ _).bind fun _ => journalOk _ _

/-! ## The script -/

theorem afterMount (selected : Staging) (cache : Cache) (parts : Parts)
    (hw : OwnWork host own s.mode w.dir) :
    Tamed host own s.mode (Installer.afterMount host s p c w selected cache parts) :=
  (acquireTargetStage _ _ hw).bind fun _ => makeSwap.bind fun _ => pacstrapStage.bind fun _ =>
    (addRepository _ _).bind fun _ => (configureStage _).bind fun _ =>
    (bootloaderStage _ _ _).bind fun _ => (snapshotStage _ _).bind fun _ =>
    (verifyStage _ _).bind fun _ => (journalEmit _ _ _ _).bind fun _ => settle _

/-- A dry run does not run the command. -/
theorem runDry (hm : s.mode = .dryRun) (cmd : Command) : Tamed host own s.mode (Installer.run host s cmd) :=
  Makes.ite (fun he => nomatch hm.symm.trans he) fun _ => pure ()

theorem setMounted (hm : s.mode = .dryRun) (b : Bool) : Tamed host own s.mode (setMounted s b) :=
  executing fun he => nomatch hm.symm.trans he

theorem partitionStage (hm : s.mode = .dryRun) : Tamed host own s.mode (partitionStage host s c) := by
  refine (journalBegin _ _).bind fun _ => bind ?_ fun _ => (journalOk _ _).bind fun _ => pure _
  split
  · refine (runDry hm _).bind fun _ => (runDry hm _).bind fun _ => (runDry hm _).bind fun _ => ?_
    split
    · next he => exact nomatch hm.symm.trans he
    · exact pure _
  · exact (runDry hm _).bind fun _ => (runDry hm _).bind fun _ => (runDry hm _).bind fun _ =>
      (runDry hm _).bind fun _ => (runDry hm _).bind fun _ => pure _

theorem formatStage (hm : s.mode = .dryRun) (parts : Parts) :
    Tamed host own s.mode (formatStage host s parts) :=
  (journalBegin _ _).bind fun _ => (whenever (runDry hm _)).bind fun _ =>
    (whenever ((runDry hm _).bind fun _ => (runDry hm _).bind fun _ =>
      executing fun he => nomatch hm.symm.trans he)).bind fun _ =>
    (runDry hm _).bind fun _ => journalOk _ _

theorem mountStage (hm : s.mode = .dryRun) (parts : Parts) :
    Tamed host own s.mode (mountStage host s parts) := by
  refine (journalBegin _ _).bind fun _ => (runDry hm _).bind fun _ => bind ?_ fun _ => journalOk _ _
  split
  · exact (runDry hm _).bind fun _ => (setMounted hm _).bind fun _ => (forEach fun _ => runDry hm _).bind
      fun _ => (runDry hm _).bind fun _ => (setMounted hm _).bind fun _ => (runDry hm _).bind fun _ =>
      (setMounted hm _).bind fun _ => (runDry hm _).bind fun _ => (runDry hm _).bind fun _ =>
      (runDry hm _).bind fun _ => (runDry hm _).bind fun _ => runDry hm _
  · exact (runDry hm _).bind fun _ => (setMounted hm _).bind fun _ => (runDry hm _).bind fun _ =>
      runDry hm _

/-- A dry run of the stages that write the disk. -/
theorem install (hm : s.mode = .dryRun) (selected : Staging) (cache : Cache)
    (hw : OwnWork host own s.mode w.dir) : Tamed host own s.mode (install host s p c w selected cache) :=
  (partitionStage hm).bind fun parts => (formatStage hm parts).bind fun _ =>
    (mountStage hm parts).bind fun _ => afterMount _ _ _ hw

/-- The checks change nothing of what was asked for but the target's name and the lock's. -/
theorem validateFrom (o : Options) (target : Bytes) :
    Yields (fun _ => Tame host own mode) (Unmounted host own mode)
      (fun s => ∃ lock, s.opts = { o with target := target, packageLock := lock })
      (validateFrom host o target) := by
  refine Yields.bind (Yields.of_makes (checks _) fun _ => trivial) fun _ _ =>
    Yields.bind (Yields.of_makes (choose _ _ _ _) fun _ => trivial) fun _ _ =>
    Yields.bind (Yields.of_makes (choose _ _ _ _) fun _ => trivial) fun _ _ =>
    Yields.bind (Yields.of_makes (checks _) fun _ => trivial) fun _ _ =>
    Yields.bind (Yields.of_makes (choose _ _ _ _) fun _ => trivial) fun _ _ =>
    Yields.bind (Yields.of_makes (orDie _ _) fun _ => trivial) fun _ _ =>
    Yields.bind (Yields.of_makes (choose _ _ _ _) fun _ => trivial) fun _ _ => ?_
  exact Yields.bind (Yields.of_makes (orDie _ _) fun _ => trivial) fun _ _ =>
    Yields.bind (Yields.of_makes (whenever ((orDie _ _).bind fun _ => secureBootValidateMaterial _ _))
      fun _ => trivial) fun _ _ =>
    Yields.bind (Yields.of_makes (checks _) fun _ => trivial) fun _ _ =>
    Yields.bind (Yields.of_makes (lookQuery _) fun _ => trivial) fun _ _ =>
    Yields.bind (Yields.of_makes (orDie _ _) fun _ => trivial) fun _ _ =>
    Yields.bind (Yields.of_makes (whenever (orDie _ _)) fun _ => trivial) fun _ _ =>
    Yields.bind (Yields.of_makes (fileChecks _) fun _ => trivial) fun _ _ => Yields.pure ⟨_, rfl⟩

theorem validateKeeps (o : Options) :
    Yields (fun _ => Tame host own mode) (Unmounted host own mode)
      (fun s => ∃ target lock, s.opts = { o with target := target, packageLock := lock })
      (Installer.validate host o) := by
  rw [validate_eq]
  exact Yields.bind (Yields.of_makes (orDie _ _) fun _ => trivial) fun _ _ =>
    Yields.bind (Yields.of_makes (orDie _ _) fun _ => trivial) fun _ _ =>
    Yields.bind (Yields.of_makes (canonicalDevice _) fun _ => trivial) fun target _ =>
    (validateFrom o target).mono fun _ h => ⟨target, h⟩

end Tamed

/-! ## What a part of the engine comes to know -/

/-- The call was the last one, it was made where `K` held, and `r` is its answer. -/
def Asked (host : Host) (K : History → Prop) (c : Call) (r : Reply) (l : History) : Prop :=
  ∃ before, K before ∧ r = host.reply before c ∧ l = before ++ [(c, r)]

section Learns

variable {P : History → Call → Prop} {J : Vars → Prop} {K : History → Prop}

theorem Asked.mem {c : Call} {r : Reply} {l : History} (h : Asked host K c r l) : (c, r) ∈ l := by
  obtain ⟨before, -, -, rfl⟩ := h
  exact List.mem_append_right before List.mem_cons_self

theorem Asked.lasts (hK : Lasting K) {c : Call} {r : Reply} {l : History} (h : Asked host K c r l) :
    K l := by
  obtain ⟨before, hb, -, rfl⟩ := h
  exact hK before _ hb

theorem heed_learns (r : Reply) : Learns P J K (fun _ l => K l) (heed r) := by
  unfold heed
  split
  · exact Learns.fail _
  · exact Learns.pure fun _ hl => hl

theorem look_learns {c : Call} (hP : ∀ l, K l → P l c) :
    Learns P J K (fun r l => Asked host K c r l) (look host c) :=
  Learns.bind (Learns.ask hP) fun r => Learns.bind (heed_learns r) fun _ => Learns.pure fun _ hl => hl

/-- A program that was run and did not fail. -/
theorem must_learns {c : Call} (hP : ∀ l, K l → P l c) :
    Learns P J K (fun r l => Asked host K c r l ∧ r.ok = true) (must host c) :=
  Learns.bind (look_learns hP) fun _ =>
    Learns.ite (fun hok => Learns.pure fun _ hl => ⟨hl, hok⟩) fun _ => Learns.fail _

/-- A command of a run that executes. -/
theorem run_learns {s : Settings} (hm : s.mode = .execute) {cmd : Command}
    (hP : ∀ l, K l → P l (.command cmd)) :
    Learns P J K (fun _ l => ∃ r, Asked host K (.command cmd) r l ∧ r.ok = true) (run host s cmd) := by
  refine Learns.ite (fun _ => Learns.bind (must_learns hP) fun r => Learns.pure fun _ hl => ?_) ?_
  · exact ⟨r, hl⟩
  · exact fun hd => absurd hm hd

/-- What lasts is kept by a command that may be run. -/
theorem run_keeps {s : Settings} (hK : Lasting K) {cmd : Command}
    (hP : ∀ l, K l → P l (.command cmd)) : Learns P J K (fun _ l => K l) (run host s cmd) :=
  Learns.ite (fun _ => Learns.bind (must_learns hP) fun _ => Learns.pure fun _ hl => hl.1.lasts hK)
    fun _ => Learns.pure fun _ hl => hl

end Learns

/-! ## The run -/

section Run

variable {P : History → Call → Prop} {s : Settings} {p : Packages} {w : Work} {c : Checked}

/-- The script, where the stages that write the disk are known. -/
theorem script_makes {o : Options} (hP : ∀ before call, Tame host own o.mode call → P before call)
    (hinstall : ∀ s p c w selected cache,
      (∃ target lock, s.opts = { o with target := target, packageLock := lock }) →
      Tamed.OwnWork host own o.mode w.dir →
      Makes P (Unmounted host own o.mode) (install host s p c w selected cache)) :
    Makes P (Unmounted host own o.mode) (script host o) := by
  refine Yields.bindMakes ((Tamed.validateKeeps o).calls hP) fun s hs => ?_
  obtain hmode : s.mode = o.mode := by
    obtain ⟨target, lock, h⟩ := hs
    rw [Settings.mode, h]
  refine Makes.bind (Tamed.choosePackages.mono hP) fun p =>
    Makes.bind (Tamed.requireShapeTools.mono hP) fun _ =>
    Makes.bind (Makes.ite (fun _ => Tamed.executeChecks.mono hP) fun _ => Makes.pure _) fun c => ?_
  have hbefore : Yields (fun _ => Tame host own s.mode) (Unmounted host own s.mode)
      (fun r => Tamed.OwnWork host own s.mode r.1.dir) (before host s p c) := Tamed.before
  rw [hmode] at hbefore
  exact Yields.bindMakes (hbefore.calls hP) fun b hb => hinstall s p c b.1 b.2.1 b.2.2 hs hb

/-- Any run of the stages that write the disk makes calls and keeps to its variables. -/
theorem install_calls (hm : s.mode = .execute) (selected : Staging) (cache : Cache) :
    Makes (fun _ _ => True) (Unmounted host own s.mode) (install host s p c w selected cache) := by
  have hfree : ∀ {α : Type} {m : Engine α}, Tamed host own s.mode m →
      Makes (fun _ _ => True) (Unmounted host own s.mode) m := fun h => Makes.mono h fun _ _ _ => trivial
  have hrun : ∀ cmd, Makes (fun _ _ => True) (Unmounted host own s.mode) (run host s cmd) := fun cmd =>
    Learns.makes (run_keeps (K := fun _ => True) (fun _ _ _ => trivial) fun _ _ => trivial)
  have hassign : ∀ f : Vars → Vars, Makes (fun _ _ => True) (Unmounted host own s.mode)
      (Act.assign f : Engine Unit) := fun f => Makes.assign fun _ _ hd => nomatch hm.symm.trans hd
  have hset : ∀ b, Makes (fun _ _ => True) (Unmounted host own s.mode) (setMounted s b) := fun b =>
    Makes.ite (fun _ => hassign _) fun _ => Makes.pure _
  have hpartition : Makes (fun _ _ => True) (Unmounted host own s.mode) (partitionStage host s c) := by
    refine Makes.bind (hfree (Tamed.journalBegin _ _)) fun _ => Makes.bind ?_ fun parts =>
      Makes.bind (hfree (Tamed.journalOk _ _)) fun _ => Makes.pure _
    split
    · refine Makes.bind (hrun _) fun _ => Makes.bind (hrun _) fun _ => Makes.bind (hrun _) fun _ => ?_
      split
      · exact Makes.bind (hfree (Tamed.mustQuery _)) fun _ =>
          Makes.bind (hfree (Tamed.asks _)) fun _ => Makes.bind (hfree (Tamed.orDie _ _)) fun _ =>
          Makes.pure _
      · exact Makes.pure _
    · exact Makes.bind (hrun _) fun _ => Makes.bind (hrun _) fun _ => Makes.bind (hrun _) fun _ =>
        Makes.bind (hrun _) fun _ => Makes.bind (hrun _) fun _ => Makes.pure _
  have hformat : ∀ parts, Makes (fun _ _ => True) (Unmounted host own s.mode)
      (formatStage host s parts) := fun parts =>
    Makes.bind (hfree (Tamed.journalBegin _ _)) fun _ =>
      Makes.bind (Makes.ite (fun _ => hrun _) fun _ => Makes.pure _) fun _ =>
      Makes.bind (Makes.ite (fun _ => Makes.bind (hrun _) fun _ => Makes.bind (hrun _) fun _ =>
        Makes.ite (fun _ => hassign _) fun _ => Makes.pure _) fun _ => Makes.pure _) fun _ =>
      Makes.bind (hrun _) fun _ => hfree (Tamed.journalOk _ _)
  have hmount : ∀ parts, Makes (fun _ _ => True) (Unmounted host own s.mode)
      (mountStage host s parts) := by
    intro parts
    refine Makes.bind (hfree (Tamed.journalBegin _ _)) fun _ => Makes.bind (hrun _) fun _ =>
      Makes.bind ?_ fun _ => hfree (Tamed.journalOk _ _)
    split
    · exact Makes.bind (hrun _) fun _ => Makes.bind (hset _) fun _ =>
        Makes.bind (hfree (Tamed.forEach fun _ => Tamed.run rfl)) fun _ => Makes.bind (hrun _) fun _ =>
        Makes.bind (hset _) fun _ => Makes.bind (hrun _) fun _ => Makes.bind (hset _) fun _ =>
        Makes.bind (hrun _) fun _ => Makes.bind (hrun _) fun _ => Makes.bind (hrun _) fun _ =>
        Makes.bind (hrun _) fun _ => hrun _
    · exact Makes.bind (hrun _) fun _ => Makes.bind (hset _) fun _ => Makes.bind (hrun _) fun _ => hrun _
  rw [install_eq]
  exact Makes.bind hpartition fun parts => Makes.bind (hformat parts) fun _ =>
    Makes.bind (hmount parts) fun _ =>
    hfree (Tamed.afterMount _ _ _ fun hd => nomatch hm.symm.trans hd)

/-- The engine does what its script does, and what its traps do. -/
theorem engine_makes {argv : List Bytes} {o : Options} (hparse : parse host argv = .options o)
    (hP : ∀ before call, Tame host own o.mode call → P before call)
    (h : Makes P (Unmounted host own o.mode) (script host o)) :
    Makes P (Unmounted host own o.mode) (engine host argv) := by
  rw [engine, hparse]
  refine Makes.bind (Makes.attempt h) fun ended => ?_
  split
  · exact (Tamed.cleanup _ _).mono hP
  · exact (Tamed.cleanup _ _).mono hP
  · exact ((Tamed.handleCancel _).bind fun _ => Tamed.cleanup _ _).mono hP
  · exact ((Tamed.handleCancel _).bind fun _ => Tamed.cleanup _ _).mono hP

theorem unmounted_init : Unmounted host own mode {} := fun _ => ⟨rfl, rfl, fun _ _ h => nomatch h⟩

/-- Every call of a run satisfies what the engine's calls satisfy. -/
theorem history_all {argv : List Bytes} (h : Makes P (Unmounted host own mode) (engine host argv)) :
    AllCalls P (history host argv) :=
  (h { vars := {} } unmounted_init).1.all (allCalls_nil P)

end Run

end Aurade.Installer
