import Aurade.Foundations.FieldSearch
import Aurade.Installer.Journal

/-!
# The text of the journal

`aurade-journal.sh` writes a record as one line of JSON with `printf`, every string of it through
`_json_escape`; `aurade-installer-tui` reads the lines back with `awk`, which looks for texts and
parses nothing. A record is what `line` says; the strings of one are any texts.

The reader knows two of the three letters that the writer puts behind a backslash: a carriage return
comes back as the letter `r`.
-/

namespace Aurade.Installer

/-- A stage's name in the journal, one of `AURADE_STAGES` or `start`. -/
def Stage.name : Stage → Bytes
  | .start => text "start"
  | .preflight => text "preflight"
  | .network => text "network"
  | .packageCheck => text "package-check"
  | .acquire => text "acquire"
  | .verify => text "verify"
  | .confirm => text "confirm"
  | .partition => text "partition"
  | .format => text "format"
  | .mount => text "mount"
  | .acquireTarget => text "acquire-target"
  | .pacstrap => text "pacstrap"
  | .configure => text "configure"
  | .bootloader => text "bootloader"
  | .snapshot => text "snapshot"
  | .verifyInstall => text "verify-install"
  | .done => text "done"

namespace Stream

/-! ## Writing -/

/-- `${s//c/new}` for a character. -/
def substitute (c : UInt8) (new s : Bytes) : Bytes := s.flatMap fun b => if b = c then new else [b]

/-- `_json_escape`. -/
def jsonEscape (s : Bytes) : Bytes :=
  let s := substitute 92 (text "\\\\") s
  let s := substitute 34 (text "\\\"") s
  let s := substitute 10 (text "\\n") s
  let s := substitute 13 (text "\\r") s
  let s := substitute 9 (text "\\t") s
  -- `tr -d '\000-\037'`
  s.filter fun b => 32 ≤ b

/-- `date -u +%Y-%m-%dT%H:%M:%SZ` -/
structure Moment where
  year : ℕ
  month : ℕ
  day : ℕ
  hour : ℕ
  minute : ℕ
  second : ℕ

def Moment.text (m : Moment) : Bytes :=
  padded 4 m.year ++ 45 :: padded 2 m.month ++ 45 :: padded 2 m.day ++ 84 :: padded 2 m.hour ++
    58 :: padded 2 m.minute ++ 58 :: padded 2 m.second ++ [90]

/-- The identity of the disk. -/
structure Target where
  path : Text
  serial : Text
  wwn : Text
  size : ℕ

/-- `_j_target_json`. -/
def targetJson (t : Target) : Bytes :=
  text "\x7b\"path\":\"" ++ jsonEscape t.path.val ++ text "\",\"serial\":\"" ++
    jsonEscape t.serial.val ++ text "\",\"wwn\":\"" ++ jsonEscape t.wwn.val ++
    text "\",\"size_bytes\":" ++ decimal t.size ++ text "\x7d"

/-- `aurade_stage_reversible`. -/
def stageReversible (stage : Bytes) : Bool :=
  [text "start", text "preflight", text "network", text "package-check", text "acquire",
    text "verify", text "confirm"].contains stage

/-- `aurade_stage_idempotent`. -/
def stageIdempotent (stage : Bytes) : Bool :=
  [text "preflight", text "network", text "package-check", text "acquire",
    text "verify"].contains stage

/-- `aurade_stage_index`. -/
def stageIndex (stage : Bytes) : ℕ :=
  if (stages.map Stage.name).contains stage then (stages.map Stage.name).idxOf stage + 1 else 0

/-- The engine's stages are told by their names. -/
theorem stage_name (s : Stage) : stageReversible s.name = s.reversible ∧
    stageIdempotent s.name = s.idempotent ∧ stageIndex s.name = s.index := by
  cases s <;> decide

/-- The journal's variables, and its file. -/
structure Journal where
  /-- `_J_ID` -/
  id : Text
  /-- `_J_SEQ` -/
  seq : ℕ
  /-- `_J_ATTEMPT` -/
  attempt : ℕ
  target : Target
  file : Bytes

/-- `true` and `false`. -/
def flag (b : Bool) : Bytes := if b then text "true" else text "false"

/-- `AURADE_JOURNAL_VERSION` -/
def version : ℕ := 1

/-- What `aurade_journal_emit` prints, before the newline. -/
def recordText (j : Journal) (now : Moment) (stage status message extra : Bytes) : Bytes :=
  text "\x7b\"v\":" ++ decimal version ++ text ",\"install_id\":\"" ++ jsonEscape j.id.val ++
    text "\",\"seq\":" ++ decimal j.seq ++ text ",\"attempt\":" ++ decimal j.attempt ++
    text ",\"t\":\"" ++ now.text ++ text "\"," ++
  (text "\"stage\":\"" ++ jsonEscape stage ++ text "\",\"status\":\"" ++ jsonEscape status ++
    text "\",\"reversible\":" ++ flag (stageReversible stage) ++
    text ",\"idempotent\":" ++ flag (stageIdempotent stage)) ++
  (if message ≠ [] then text ",\"message\":\"" ++ jsonEscape message ++ text "\"" else []) ++
  (if extra ≠ [] then text "," ++ extra else []) ++
  (text ",\"target\":" ++ targetJson j.target ++ text "\x7d")

/-- `aurade_journal_emit`. -/
def journalEmit (j : Journal) (now : Moment) (stage status message extra : Bytes) : Journal :=
  let j := { j with seq := j.seq + 1 }
  { j with file := j.file ++ (recordText j now stage status message extra ++ [newline]) }

/-- `aurade_journal_begin`. -/
def journalBegin (j : Journal) (now : Moment) (stage message : Bytes) : Journal :=
  journalEmit j now stage (text "running") message
    (text "\"index\":" ++ decimal (stageIndex stage) ++ text ",\"of\":" ++ decimal stages.length)

/-- `aurade_journal_progress`. -/
def journalProgress (j : Journal) (now : Moment) (stage : Bytes) (pct : ℕ) (detail : Bytes) :
    Journal :=
  journalEmit j now stage (text "running") detail (text "\"pct\":" ++ decimal pct)

/-- `aurade_journal_ok`, so many milliseconds after the stage began. -/
def journalOk (j : Journal) (now : Moment) (stage message : Bytes) (elapsed : ℕ) : Journal :=
  journalEmit j now stage (text "ok") message (text "\"elapsed_ms\":" ++ decimal elapsed)

/-- The remedies that a failed stage may have: no `retry` for one that cannot be run again. -/
def offered (stage : Bytes) (remediation : List Bytes) : List Bytes :=
  let kept := remediation.filter fun item => !(item = text "retry" && !stageIdempotent stage)
  if kept = [] then [text "log", text "shell", text "reboot"] else kept

/-- `aurade_journal_fail`. -/
def journalFail (j : Journal) (now : Moment) (stage : Bytes) (exit : ℕ) (cause message : Bytes)
    (remediation : List Bytes) : Journal :=
  journalEmit j now stage (text "failed") message
    (text "\"exit\":" ++ decimal exit ++ text ",\"cause\":\"" ++ jsonEscape cause ++
      text "\",\"resumable\":" ++ flag (stageIdempotent stage) ++ text ",\"remediation\":[" ++
      [44].intercalate ((offered stage remediation).map fun item =>
        text "\"" ++ jsonEscape item ++ text "\"") ++ text "]")

/-- What is written to the journal. -/
inductive Entry
  /-- A record without further fields, as the first one is. -/
  | emit (stage status message : Text)
  | begin (stage message : Text)
  | progress (stage : Text) (pct : ℕ) (detail : Text)
  | ok (stage message : Text) (elapsed : ℕ)
  | fail (stage : Text) (exit : ℕ) (cause message : Text) (remediation : List Text)

/-- Write an entry. -/
def append (j : Journal) (now : Moment) : Entry → Journal
  | .emit stage status message => journalEmit j now stage.val status.val message.val []
  | .begin stage message => journalBegin j now stage.val message.val
  | .progress stage pct detail => journalProgress j now stage.val pct detail.val
  | .ok stage message elapsed => journalOk j now stage.val message.val elapsed
  | .fail stage exit cause message remediation =>
    journalFail j now stage.val exit cause.val message.val (remediation.map (·.val))

/-- Write entries, each at its moment. -/
def run (j : Journal) (es : List (Moment × Entry)) : Journal :=
  es.foldl (fun j e => append j e.1 e.2) j

/-! ## Reading -/

/-- The loop of `json_field` over the rest of a string: what is printed at its closing quote. -/
def scan (escaped : Bool) (result : Bytes) : Bytes → Bytes
  | [] => []
  | c :: r =>
    if escaped then
      if c = 110 then scan false (result ++ [32]) r
      else if c = 116 then scan false (result ++ [32]) r
      else scan false (result ++ [c]) r
    else if c = 92 then scan true result r
    else if c = 34 then result
    else scan false (result ++ [c]) r

/-- `json_field`. -/
def jsonField (field line : Bytes) : Bytes :=
  match Json.after (text "\"" ++ field ++ text "\":") line with
  | none => []
  | some rest =>
    if rest.head? = some 34 then scan false [] (rest.drop 1)
    else rest.takeWhile fun c => c ≠ 44 && c ≠ 125

/-- The lines that awk reads. -/
def awkLines (file : Bytes) : List Bytes :=
  let parts := file.splitOn newline
  if parts.getLast? = some [] then parts.dropLast else parts

/-- `awk 'index($0, want) … END`: the last line that holds a text. -/
def lastWith (want file : Bytes) : Bytes :=
  (((awkLines file).filter fun line => (findSub want line).isSome).getLast?).getD []

/-- `journal_last_for_stage`. What `awk -v` makes of an assigned text is `assigned`. -/
def journalLastForStage (assigned : Bytes → Bytes) (stage : Bytes) (file : Option Bytes) : Bytes :=
  match file with
  | none => []
  | some file => lastWith (assigned (text "\"stage\":\"" ++ stage ++ text "\"")) file

/-- `journal_last_failed`. -/
def journalLastFailed (file : Option Bytes) : Bytes :=
  match file with
  | none => []
  | some file => lastWith (text "\"status\":\"failed\"") file

end Stream

end Aurade.Installer
