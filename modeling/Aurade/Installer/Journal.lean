import Aurade.Foundations.Text
import Aurade.Installer.Commands

/-!
# The install journal, and the shell around it

`aurade-journal.sh`: the stages, what a record says, and the functions that append one. The front
ends learn from these records alone how far a run has got.

The engine is a shell script under `set -e`: a program that fails ends it, unless its status is
looked at. `must` is such a program, `look` one whose status is looked at. Both end the run when the
shell was sent a signal meanwhile, since its traps run between two commands.
-/

namespace Aurade.Installer

/-- The stages, `start` among them. -/
inductive Stage
  | start
  | preflight
  | network
  | packageCheck
  | acquire
  | verify
  | confirm
  | partition
  | format
  | mount
  | acquireTarget
  | pacstrap
  | configure
  | bootloader
  | snapshot
  | verifyInstall
  | done
  deriving DecidableEq

/-- `AURADE_STAGES`. -/
def stages : List Stage :=
  [.preflight, .network, .packageCheck, .acquire, .verify, .confirm, .partition, .format, .mount,
    .acquireTarget, .pacstrap, .configure, .bootloader, .snapshot, .verifyInstall, .done]

namespace Stage

/-- `aurade_stage_reversible`. -/
def reversible : Stage → Bool
  | .start | .preflight | .network | .packageCheck | .acquire | .verify | .confirm => true
  | _ => false

/-- `aurade_stage_idempotent`. -/
def idempotent : Stage → Bool
  | .preflight | .network | .packageCheck | .acquire | .verify => true
  | _ => false

/-- `aurade_stage_index`. -/
def index (s : Stage) : ℕ := if s ∈ stages then stages.idxOf s + 1 else 0

end Stage

/-- What a record says of its stage. -/
inductive Status
  | started
  | running
  | ok
  | failed
  deriving DecidableEq

/-- The cause codes. -/
inductive Cause
  | secureBootError
  | keyringError
  | installerError
  | capacityError
  | networkError
  | targetError
  | storageError
  | unexpectedExit
  | cancelled
  deriving DecidableEq

/-- What a failure record offers to do. -/
inductive Remedy
  | retry
  | log
  | shell
  | reboot
  deriving DecidableEq

/-- The further fields of a record. -/
inductive Detail
  | none
  | index (i n : ℕ)
  | pct (n : ℕ)
  | elapsed (ms : ℕ)
  | failure (exit : ℕ) (cause : Cause) (resumable : Bool) (remediation : List Remedy)
  deriving DecidableEq

/-- One record of the journal. -/
structure Record where
  seq : ℕ
  stage : Stage
  status : Status
  message : Bytes
  reversible : Bool
  idempotent : Bool
  detail : Detail
  deriving DecidableEq

/-- What the engine calls. -/
inductive Call
  | query (q : Query)
  | command (c : Command)
  /-- A record appended to the journal. -/
  | record (r : Record)
  /-- The journal and the raw log created anew, `path` and `raw`. -/
  | newJournal (path raw : Bytes)
  deriving DecidableEq

/-- The engine's variables that change while it runs. -/
structure Vars where
  /-- `_J_SEQ` -/
  seq : ℕ := 0
  /-- `_J_STAGE_START` -/
  stageStart : ℕ := 0
  /-- `_J_ACTIVE_STAGE` -/
  activeStage : Option Stage := none
  /-- `RATE_SAMPLER_PID` -/
  sampling : Bool := false
  /-- `CRYPT_OPENED` -/
  cryptOpened : Bool := false
  /-- `TARGET_MOUNTED` -/
  targetMounted : Bool := false
  /-- `WORK_DIR` -/
  workDir : Option Bytes := none
  deriving DecidableEq

/-- The calls of a run and their answers. -/
abbrev History := List (Call × Reply)

/-- The shell the engine runs in. -/
abbrev Shell := Recorded Call Reply Vars

/-- How the script ends before its last line. -/
inductive Exit
  | status (n : ℕ)
  | signal (s : Signal)
  deriving DecidableEq

/-- A part of the engine. -/
abbrev Engine := Act Shell Exit

/-- The machine the engine runs on: its answers, and the environment variables. -/
structure Host where
  reply : Surroundings Call Reply
  journalPath : Bytes := text "/run/aurade-install/journal.jsonl"
  journalRaw : Bytes := text "/run/aurade-install/install.log"
  failureJournalDir : Bytes := []
  installWorkDir : Bytes := text "/var/tmp"
  minDiskBytes : ℕ := 17179869184
  minWorkspaceBytes : ℕ := 268435456
  stagingReserveBytes : ℕ := 805306368
  acquireMaxAttempts : ℕ := 12
  defaultRepoUrl : Bytes := text "file:///var/cache/aurade/repo"
  hostedRepoUrl : Bytes := text "https://github.com/Cam396/aurade/releases/download/repo-x86_64"
  installStaging : Bytes := text "auto"
  hardwareSupport : Bytes := text "auto"
  secureBootKey : Bytes := []
  secureBootCert : Bytes := []
  secureBootEnroll : Bytes := text "manual"
  ratePath : Bytes := text "/run/aurade-install/acquire-rate"
  rateSampler : Bytes := text "/usr/local/bin/aurade-rate-sampler"
  selfDir : Bytes := text "/usr/local/sbin"

/-- What a call changes: a record changes the journal. -/
def Call.places (host : Host) : Call → List Place
  | .query _ => []
  | .command c => c.places
  | .record _ => [.path host.journalPath]
  | .newJournal path raw => [.path path, .path raw]

variable (host : Host)

/-! ## Calls of the shell -/

/-- The traps run between two commands. -/
def heed (r : Reply) : Engine Unit :=
  match r.signal with
  | some s => Act.fail (.signal s)
  | none => pure ()

/-- Go on after a program whose status is looked at. -/
def look (c : Call) : Engine Reply := do
  let r ← Act.ask host.reply c
  heed r
  pure r

/-- A program that ends the script when it fails. -/
def must (c : Call) : Engine Reply := do
  let r ← look host c
  if r.ok then pure r else Act.fail (.status 1)

/-- A question whose status is looked at. -/
def asks (q : Query) : Engine Bool := (·.ok) <$> look host (.query q)

/-- `A && B`: the second is asked where the first holds. -/
def andAsks (first : Bool) (q : Query) : Engine Bool := if first then asks host q else pure false

/-- A question whose answer is taken, `$(…)` under `set -e`. -/
def answer (q : Query) : Engine Bytes := (·.line) <$> must host (.query q)

/-- A question read through `< <(…)`: its status is nobody's. -/
def listing (q : Query) : Engine (List Bytes) := (·.lines) <$> look host (.query q)

/-- A command run as it stands. -/
def exec (c : Command) : Engine Unit := discard (must host (.command c))

/-- Only where the condition holds. -/
def whenever (c : Prop) [Decidable c] (m : Engine Unit) : Engine Unit := if c then m else pure ()

/-- One after the other. -/
def forEach {ι : Type} (xs : List ι) (body : ι → Engine Unit) : Engine Unit := Act.each () body xs

/-! ## Records -/

/-- `aurade_journal_emit`: whether the record could be appended. -/
def journalEmit (stage : Stage) (status : Status) (message : Bytes) (detail : Detail) :
    Engine Reply := do
  Act.assign fun v => { v with seq := v.seq + 1 }
  let v ← Act.vars
  Act.ask host.reply (.record ⟨v.seq, stage, status, message, stage.reversible, stage.idempotent, detail⟩)

/-- The way on after a record: a signal first, then the status. -/
def settle (r : Reply) : Engine Unit := do
  heed r
  if r.ok then pure () else Act.fail (.status 1)

/-- `_J_ACTIVE_STAGE=`, where it is this stage. -/
def leaveStage (stage : Stage) (v : Vars) : Vars :=
  if v.activeStage = some stage then { v with activeStage := none } else v

/-- `aurade_journal_begin`. -/
def journalBegin (stage : Stage) (message : Bytes) : Engine Unit := do
  let now ← answer host .clock
  Act.assign fun v => { v with stageStart := parseDecimal now, activeStage := some stage }
  let r ← journalEmit host stage .running message (.index stage.index stages.length)
  settle r

/-- `aurade_journal_progress`. -/
def journalProgress (stage : Stage) (pct : ℕ) (detail : Bytes) : Engine Unit := do
  let r ← journalEmit host stage .running detail (.pct pct)
  settle r

/-- `aurade_journal_ok`. -/
def journalOk (stage : Stage) (message : Bytes) : Engine Unit := do
  let v ← Act.vars
  let now ← (if v.stageStart ≠ 0 then answer host .clock else pure (decimal 0))
  let r ← journalEmit host stage .ok message (.elapsed ((parseDecimal now - v.stageStart) * 1000))
  settle r
  let v ← Act.vars
  Act.assign (leaveStage stage)
  -- the test that is the function's last command fails where another stage is active
  whenever (v.activeStage ≠ some stage) (Act.fail (.status 1))

/-- `aurade_journal_fail`. It drops `retry` for a stage that cannot be run again. -/
def journalFail (stage : Stage) (exit : ℕ) (cause : Cause) (message : Bytes)
    (remediation : List Remedy) : Engine Reply := do
  let kept := remediation.filter fun item => !(item = .retry && !stage.idempotent)
  let offered := if kept = [] then [.log, .shell, .reboot] else kept
  journalEmit host stage .failed message (.failure exit cause stage.idempotent offered)

/-- `aurade_journal_init`. -/
def journalInit (mode : Bytes) (target : Bytes) : Engine Bool := do
  let _ ← look host (.query (.lsblk .identity target))
  let _ ← look host (.query (.size target))
  let r ← look host (.newJournal host.journalPath host.journalRaw)
  if r.ok then
    let r ← journalEmit host .start .started (text "mode=" ++ mode) .none
    heed r
    pure r.ok
  else pure false

/-! ## Ending -/

/-- Whether a message holds one of the words. -/
def mentions (message : Bytes) (words : List String) : Bool :=
  words.any fun w => (findSub (text w) message).isSome

/-- The cause code `die` gives a message, by the words in it. -/
def causeOf (message : Bytes) : Cause :=
  if mentions message ["Secure Boot"] then .secureBootError
  else if mentions message ["keyring", "signature"] then .keyringError
  else if mentions message ["--staging"] then .installerError
  else if mentions message ["staging filesystem", "capacity", "free space"] then .capacityError
  else if mentions message ["archive", "acquire", "network", "DNS", "route", "clock"] then .networkError
  else if mentions message ["target", "disk", "partition"] then .targetError
  else if mentions message ["mount", "filesystem", "subvolume"] then .storageError
  else .installerError

/-- `die`. -/
def die {α : Type} (message : Bytes) : Engine α := do
  let v ← Act.vars
  match v.activeStage with
  | some stage => do
    let r ← journalFail host stage 1 (causeOf message) (message.take 256) [.log, .shell, .reboot]
    settle r
    Act.assign (leaveStage stage)
    Act.fail (.status 1)
  | none => Act.fail (.status 1)

/-- `[[ … ]] || die MESSAGE`. -/
def orDie (c : Bool) (message : Bytes) : Engine Unit := if c then pure () else die host message

/-- `[[ … ]] || die MESSAGE`, several of them in order. -/
def checks : List (Bool × Bytes) → Engine Unit
  | [] => pure ()
  | c :: cs => do
    orDie host c.1 c.2
    checks cs

/-- `aurade_journal_preserve_failure`. -/
def preserveFailure : Engine Unit := do
  let dir := host.failureJournalDir
  whenever (dir.head? = some 47 ∧ dir ≠ text "/") do
    let there ← Act.ask host.reply (.query (.test .readable host.journalPath))
    whenever there.ok do
      let made ← Act.ask host.reply (.command (.installDir 0o700 [dir]))
      whenever made.ok do
        let made ← Act.ask host.reply (.command (.mktemp (dir ++ text "/failure.XXXXXX")))
        whenever made.ok do
          let copied ← Act.ask host.reply
            (.command (.install 0o600 host.journalPath (made.line ++ text "/journal.jsonl")))
          whenever (!copied.ok) do
            discard (Act.ask host.reply (.command (.remove [made.line])))

/-- A failure record for the stage that was active, as the traps write it. -/
def failActive (status : ℕ) (cause : Cause) (message : Bytes) : Engine Unit := do
  let v ← Act.vars
  match v.activeStage with
  | some stage => do
    discard (journalFail host stage status cause message [.log, .shell, .reboot])
    Act.assign (leaveStage stage)
  | none => pure ()

/-- The work directory goes, with the agents that run in it. -/
def removeWork : Engine Unit := do
  let v ← Act.vars
  match v.workDir with
  | some dir => do
    let there ← Act.ask host.reply (.query (.test .directory (dir ++ text "/gnupg")))
    whenever there.ok (discard (Act.ask host.reply (.command .stopHelpers)))
    discard (Act.ask host.reply (.command (.remove [dir])))
  | none => pure ()

/-- `cleanup`, the trap on EXIT. It runs under `set +e`: nothing stops it. -/
def cleanup (mountpoint : Bytes) (status : ℕ) : Engine Unit := do
  let v ← Act.vars
  whenever v.sampling (discard (Act.ask host.reply (.command .stopHelpers)))
  whenever (status ≠ 0) do
    failActive host status .unexpectedExit
      (text "installer stopped unexpectedly. The private install log records where.")
    preserveFailure host
  whenever v.targetMounted (discard (Act.ask host.reply (.command (.umount true mountpoint))))
  whenever v.cryptOpened (discard (Act.ask host.reply (.command (.luksClose (text "aurade-root")))))
  removeWork host

/-- `handle_cancel`, the traps on INT and TERM. -/
def handleCancel (status : ℕ) : Engine Unit := do
  failActive host status .cancelled
    (text "installer cancelled. The private install log records how far it got.")
  preserveFailure host

/-- The script with its traps. -/
def withTraps (mountpoint : Bytes) (script : Engine Unit) : Engine Unit := do
  let ended ← Act.attempt script
  match ended with
  | .ok _ => cleanup host mountpoint 0
  | .error (.status n) => cleanup host mountpoint n
  | .error (.signal .int) => do
    handleCancel host 130
    cleanup host mountpoint 130
  | .error (.signal .term) => do
    handleCancel host 143
    cleanup host mountpoint 143

end Aurade.Installer
