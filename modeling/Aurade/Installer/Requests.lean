import Mathlib.Data.List.TakeWhile
import Aurade.Foundations.FlatJson
import Aurade.Foundations.Text

/-!
# The requests of the graphical installer

`Bridge.call` writes a line, for three of the commands a value on a line of its own, and reads one
line. `aurade-installer-gui-bridge` reads lines: a request where it waits for one, and behind a command
that takes a value the value. What the pipe holds is a list of lines, and what was printed and not yet
read is another.

A call gets its own reply (`Own`) where the bridge says one line to it and hears no other request in
it, and the value it acts on is the one that was given. A request that is too large is refused before
its value is read, and `read` drops the bytes that are zero: `answered_iff` says that every call of a
session gets its own reply exactly where no call meets either.
-/

namespace Aurade.Installer.Requests

open Json

/-! ## What the bridge prints -/

/-- A text without control characters. -/
abbrev Plain := {t : Bytes // ∀ c ∈ t, 32 ≤ c}

/-- What `_gb_ok` prints, but for the newline. -/
def gbOk : Plain := ⟨text "\x7b\"ok\":true\x7d", by decide +kernel⟩

/-- What `_gb_err` prints, but for the newline. -/
def gbErr (message : Bytes) : Plain :=
  ⟨text "\x7b\"ok\":false,\"error\":" ++ quote message ++ text "\x7d", fun c hc => by
    rw [List.mem_append, List.mem_append] at hc
    rcases hc with (hc | hc) | hc
    · exact (show ∀ c ∈ text "\x7b\"ok\":false,\"error\":", 32 ≤ c by decide +kernel) c hc
    · exact low_quote c hc
    · exact (show ∀ c ∈ text "\x7d", 32 ≤ c by decide +kernel) c hc⟩

/-! ## The commands -/

inductive Command
  | manifest | visible | disks | probe | readiness | network | netStatus | wifiScan | wifiForget
  | wifiRadio | wifiConnect | stages | enum | answers | access | accessSet | target | progress
  | failure | get | set | secret | plan | «export» | ping | execute | wait | stop | reboot
  deriving DecidableEq

namespace Command

def name : Command → Bytes
  | manifest => text "manifest"
  | visible => text "visible"
  | disks => text "disks"
  | probe => text "probe"
  | readiness => text "readiness"
  | network => text "network"
  | netStatus => text "net-status"
  | wifiScan => text "wifi-scan"
  | wifiForget => text "wifi-forget"
  | wifiRadio => text "wifi-radio"
  | wifiConnect => text "wifi-connect"
  | stages => text "stages"
  | enum => text "enum"
  | answers => text "answers"
  | access => text "access"
  | accessSet => text "access-set"
  | target => text "target"
  | progress => text "progress"
  | failure => text "failure"
  | get => text "get"
  | set => text "set"
  | secret => text "secret"
  | plan => text "plan"
  | «export» => text "export"
  | ping => text "ping"
  | execute => text "execute"
  | wait => text "wait"
  | stop => text "stop"
  | reboot => text "reboot"

def all : List Command :=
  [manifest, visible, disks, probe, readiness, network, netStatus, wifiScan, wifiForget, wifiRadio,
    wifiConnect, stages, enum, answers, access, accessSet, target, progress, failure, get, set,
    secret, plan, «export», ping, execute, wait, stop, reboot]

/-- The command of a word. -/
def ofName (word : Bytes) : Option Command := all.find? fun c => c.name = word

/-- The command has a value on a line of its own. -/
def takesValue : Command → Bool
  | wifiConnect | set | secret => true
  | _ => false

/-- The command does not exist in plan-only mode. -/
def fullOnly : Command → Bool
  | execute | wait | stop | reboot => true
  | _ => false

end Command

/-! ## The functions behind the commands -/

/-- What the sourced libraries and the machine do for the commands: `σ` is all that they remember.
Each of the other functions ends in one line as well (`view`). -/
structure Library (σ : Type) where
  /-- `aurade_question_exists`. -/
  exists_ : Bytes → Bool
  /-- `aurade_question_is_secret`. -/
  isSecret : Bytes → Bool
  /-- The `error` field of a question. -/
  errorText : Bytes → Bytes
  /-- `aurade_question_validate`. -/
  validate : σ → Bytes → Bytes → Bool
  /-- `apply_answer` and the layout of the screen: an error, or none. -/
  apply : σ → Bytes → Bytes → Option Bytes × σ
  /-- The value is the answer now, and no plan is checked. -/
  setAnswer : σ → Bytes → Bytes → σ
  /-- `aurade_wifi_connect`: an error, or none. -/
  wifiConnect : σ → Bytes → Bytes → Option Bytes × σ
  /-- What the other functions do with their argument. -/
  view : Command → σ → Bytes → Plain × σ

variable {σ : Type}

namespace Library

variable (lib : Library σ)

/-- `gb_set`. -/
def gbSet (m : σ) (id value : Bytes) : Plain × σ :=
  if !lib.exists_ id then (gbErr (text "unknown question: " ++ id), m)
  else if !lib.validate m id value then (gbErr (lib.errorText id), m)
  else
    match lib.apply m id value with
    | (some error, m) => (gbErr error, m)
    | (none, m) => (gbOk, lib.setAnswer m id value)

/-- `gb_secret`. -/
def gbSecret (m : σ) (id value : Bytes) : Plain × σ :=
  if !lib.exists_ id then (gbErr (text "unknown question: " ++ id), m)
  else if !lib.isSecret id then (gbErr (id ++ text " is not a secret question"), m)
  else if value = [] then (gbErr (lib.errorText id), m)
  else (gbOk, lib.setAnswer m id value)

/-- `gb_wifi_connect`. -/
def gbWifiConnect (m : σ) (ssid psk : Bytes) : Plain × σ :=
  match lib.wifiConnect m ssid psk with
  | (none, m) =>
    (⟨text "\x7b\"ok\":true,\"ssid\":" ++ quote ssid ++ text "\x7d", fun c hc => by
      rw [List.mem_append, List.mem_append] at hc
      rcases hc with (hc | hc) | hc
      · exact (show ∀ c ∈ text "\x7b\"ok\":true,\"ssid\":", 32 ≤ c by decide +kernel) c hc
      · exact low_quote c hc
      · exact (show ∀ c ∈ text "\x7d", 32 ≤ c by decide +kernel) c hc⟩, m)
  | (some error, m) => (gbErr error, m)

/-- What is done for a command. -/
def act (c : Command) (m : σ) (argument value : Bytes) : Plain × σ :=
  match c with
  | .set => lib.gbSet m argument value
  | .secret => lib.gbSecret m argument value
  | .wifiConnect => lib.gbWifiConnect m argument value
  | .ping => (gbOk, m)
  | c => lib.view c m argument

end Library

/-! ## The bridge -/

/-- What `${#…}` counts: characters, or bytes where the locale has no others. -/
inductive Locale
  | utf8 | c

def Locale.length : Locale → Bytes → ℕ
  | utf8, s => (s.filter fun b => !Utf8.isCont b).length
  | c, s => s.length

/-- `GB_MAX_LINE_LENGTH` and `GB_MAX_VALUE_LENGTH`. -/
def maxLength : ℕ := 65536

/-- What the bridge reads next. -/
inductive Waiting
  | request
  | value (c : Command) (argument : Bytes)
  | closed
  deriving DecidableEq

/-- The bridge, with what it printed and nobody read, the requests it heard and the values it acted
on. -/
structure Bridge (σ : Type) where
  model : σ
  waiting : Waiting := .request
  out : List Bytes := []
  heard : List Bytes := []
  acted : List Bytes := []

/-- What `read` makes of a line: a shell variable holds no zero. -/
def received (line : Bytes) : Bytes := line.filter (· ≠ 0)

/-- `^[a-z][a-z0-9-]{0,31}$`. -/
def validWord (word : Bytes) : Bool :=
  match word with
  | [] => false
  | b :: rest =>
    97 ≤ b && b ≤ 122 && rest.length ≤ 31 &&
      rest.all fun b => (97 ≤ b && b ≤ 122) || isDigit b || b = 45

namespace Bridge

/-- A text and a newline are printed. -/
def emit (t : Plain) (b : Bridge σ) : Bridge σ := { b with out := b.out ++ t.val.splitOn newline }

variable (loc : Locale) (planOnly : Bool) (lib : Library σ)

/-- The function of a command is called. -/
def run (c : Command) (argument value : Bytes) (b : Bridge σ) : Bridge σ :=
  let (reply, m) := lib.act c b.model argument value
  emit reply { b with model := m, waiting := .request }

/-- `_gb_dispatch_full`, `_gb_dispatch_plan_only` and `_gb_common`. -/
def dispatch (word argument : Bytes) (b : Bridge σ) : Bridge σ :=
  match Command.ofName word with
  | none => emit (gbErr (text "unknown command: " ++ word)) b
  | some c =>
    if planOnly && c.fullOnly then emit (gbErr (text "unknown command: " ++ word)) b
    else if c.takesValue then { b with waiting := .value c argument }
    else run lib c argument [] b

/-- The body of the request loop. -/
def hear (line : Bytes) (b : Bridge σ) : Bridge σ :=
  if line = [] then b
  else
    let b := { b with heard := b.heard ++ [line] }
    if maxLength < loc.length line then emit (gbErr (text "the request is too large")) b
    else
      let word := line.takeWhile (· ≠ 32)
      let argument := if word = line then [] else (line.dropWhile (· ≠ 32)).tail
      if word = text "quit" then { b with waiting := .closed }
      else if !validWord word then emit (gbErr (text "invalid command")) b
      else dispatch planOnly lib word argument b

/-- `_gb_read_value`, and what follows it. -/
def hearValue (c : Command) (argument value : Bytes) (b : Bridge σ) : Bridge σ :=
  if maxLength < loc.length value then
    emit (gbErr (text "the value is too large")) { b with waiting := .request }
  else run lib c argument value { b with acted := b.acted ++ [value] }

/-- A line comes in. -/
def read (b : Bridge σ) (line : Bytes) : Bridge σ :=
  match b.waiting with
  | .request => hear loc planOnly lib (received line) b
  | .value c argument => hearValue loc lib c argument (received line) b
  | .closed => b

end Bridge

/-! ## The calls -/

/-- A call, with a value where the command takes one. -/
structure Call where
  command : Command
  argument : Option Bytes
  value : Option Bytes
  given : value.isSome = command.takesValue

namespace Call

/-- The line of the request. -/
def line (c : Call) : Bytes :=
  match c.argument with
  | none => c.command.name
  | some argument => c.command.name ++ 32 :: argument

/-- `call` raises an error before it writes anything. -/
def Refused (c : Call) : Prop := newline ∈ c.line ∨ ∃ v ∈ c.value, newline ∈ v

instance (c : Call) : Decidable c.Refused :=
  inferInstanceAs (Decidable (_ ∨ _))

end Call

/-- How a call ends: an error before anything was written, a line, or no line. -/
inductive Result
  | refused
  | line (t : Bytes)
  | nothing
  deriving DecidableEq

section

variable (loc : Locale) (planOnly : Bool) (lib : Library σ)

/-- `Bridge.call`. -/
def call (c : Call) (b : Bridge σ) : Result × Bridge σ :=
  if b.waiting = .closed then (.nothing, b)
  else if c.Refused then (.refused, b)
  else
    let b := (c.line :: c.value.toList).foldl (Bridge.read loc planOnly lib) b
    match b.out with
    | [] => (.nothing, b)
    | t :: out => (.line t, { b with out })

/-- What a call should be answered, and what it should do: as if it were alone, with the value as it
was given. -/
def answer (c : Call) (m : σ) : Plain × σ :=
  if maxLength < loc.length (received c.line) then (gbErr (text "the request is too large"), m)
  else if planOnly && c.command.fullOnly then
    (gbErr (text "unknown command: " ++ c.command.name), m)
  else
    match c.value with
    | none => lib.act c.command m (received (c.argument.getD [])) []
    | some v =>
      if maxLength < loc.length v then (gbErr (text "the value is too large"), m)
      else lib.act c.command m (received (c.argument.getD [])) v

/-- **A call gets its own reply**: the line it reads is the one it should get and no other is left, its
line alone is taken for a request, what is acted on is the value that was given, and the bridge waits
for the next request. A call that is refused does nothing. -/
structure Own (c : Call) (b : Bridge σ) : Prop where
  refused : c.Refused → call loc planOnly lib c b = (.refused, b)
  reply : ¬c.Refused → (call loc planOnly lib c b).1 = .line (answer loc planOnly lib c b.model).1.val
  left : ¬c.Refused → (call loc planOnly lib c b).2.out = []
  waiting : ¬c.Refused → (call loc planOnly lib c b).2.waiting = .request
  heard : ¬c.Refused → (call loc planOnly lib c b).2.heard = b.heard ++ [received c.line]
  acted : ¬c.Refused → (call loc planOnly lib c b).2.acted = b.acted ∨
    ∃ v ∈ c.value, (call loc planOnly lib c b).2.acted = b.acted ++ [v]
  model : ¬c.Refused → (call loc planOnly lib c b).2.model = (answer loc planOnly lib c b.model).2

/-- Every call of a session gets its own reply. -/
def Answered : List Call → Bridge σ → Prop
  | [], _ => True
  | c :: calls, b => Own loc planOnly lib c b ∧ Answered calls (call loc planOnly lib c b).2

end

/-! ## One call -/

section

variable {loc : Locale} {planOnly : Bool} {lib : Library σ} {b : Bridge σ}

theorem newline_notMem (t : Plain) : newline ∉ t.val := fun h =>
  absurd (t.property newline h) (by decide)

/-- What is printed is one line. -/
theorem emit_out (t : Plain) (b : Bridge σ) : (b.emit t).out = b.out ++ [t.val] := by
  rw [Bridge.emit, List.splitOn_eq_singleton (newline_notMem t)]

theorem name_spec (c : Command) : c.name ≠ [] ∧ 32 ∉ c.name ∧ 0 ∉ c.name ∧
    validWord c.name = true ∧ c.name ≠ text "quit" ∧ Command.ofName c.name = some c := by
  cases c <;> decide

theorem not_fullOnly {c : Command} (h : c.takesValue = true) : c.fullOnly = false := by
  cases c <;> first | rfl | cases h

theorem received_append (s t : Bytes) : received (s ++ t) = received s ++ received t :=
  List.filter_append _ _

theorem received_name (c : Command) : received c.name = c.name :=
  List.filter_eq_self.2 fun b hb => by
    simpa using fun heq : b = 0 => (name_spec c).2.2.1 (heq ▸ hb)

/-- The word and the argument of a request. -/
theorem split_line (c : Call) :
    ((received c.line).takeWhile (· ≠ 32) = c.command.name) ∧
      (if c.command.name = received c.line then []
        else ((received c.line).dropWhile (· ≠ 32)).tail) = received (c.argument.getD []) := by
  have hspace : ∀ x ∈ c.command.name, decide (x ≠ 32) = true := fun x hx => by
    simpa using fun heq : x = 32 => (name_spec c.command).2.1 (heq ▸ hx)
  rw [Call.line]
  cases c.argument with
  | none =>
    dsimp only
    rw [received_name, if_pos rfl]
    exact ⟨List.takeWhile_eq_self_iff.2 hspace, rfl⟩
  | some argument =>
    dsimp only
    have hline : received (c.command.name ++ 32 :: argument) =
        c.command.name ++ 32 :: received argument := by
      rw [received_append, received_name]
      rfl
    have hne : c.command.name ≠ c.command.name ++ 32 :: received argument := by simp
    rw [hline, if_neg hne, List.takeWhile_append_of_pos hspace, List.dropWhile_append_of_pos hspace,
      List.takeWhile_cons_of_neg (by decide), List.dropWhile_cons_of_neg (by decide),
      List.append_nil]
    exact ⟨rfl, rfl⟩

/-- **What the bridge makes of the line of a call.** -/
theorem hear_call (c : Call) (b : Bridge σ) : Bridge.hear loc planOnly lib (received c.line) b =
    if maxLength < loc.length (received c.line) then
      Bridge.emit (gbErr (text "the request is too large"))
        { b with heard := b.heard ++ [received c.line] }
    else if planOnly && c.command.fullOnly then
      Bridge.emit (gbErr (text "unknown command: " ++ c.command.name))
        { b with heard := b.heard ++ [received c.line] }
    else if c.command.takesValue then
      { b with heard := b.heard ++ [received c.line],
               waiting := .value c.command (received (c.argument.getD [])) }
    else Bridge.run lib c.command (received (c.argument.getD [])) []
      { b with heard := b.heard ++ [received c.line] } := by
  obtain ⟨hne, -, -, hvalid, hquit, hof⟩ := name_spec c.command
  obtain ⟨hword, hargument⟩ := split_line c
  have hline : received c.line ≠ [] := by
    intro hnil
    rw [hnil, List.takeWhile_nil] at hword
    exact hne hword.symm
  rw [Bridge.hear, if_neg hline]
  dsimp only
  rw [hword, hargument, if_neg hquit, hvalid, Bridge.dispatch, hof]
  rfl

variable (loc planOnly lib) in
/-- A request that is not empty is answered, or leaves the bridge waiting for something else. -/
theorem hear_leaves {line : Bytes} (h : line ≠ []) (b : Bridge σ) : ∃ more,
    (Bridge.hear loc planOnly lib line b).out = b.out ++ more ∧
      (more = [] → (Bridge.hear loc planOnly lib line b).waiting ≠ .request) := by
  rw [Bridge.hear, if_neg h]
  dsimp only
  split
  · exact ⟨_, emit_out _ _, fun hnil => absurd hnil (List.cons_ne_nil _ _)⟩
  · split
    · exact ⟨[], (List.append_nil _).symm, fun _ => (by simp)⟩
    · split
      · exact ⟨_, emit_out _ _, fun hnil => absurd hnil (List.cons_ne_nil _ _)⟩
      · rw [Bridge.dispatch]
        split
        · exact ⟨_, emit_out _ _, fun hnil => absurd hnil (List.cons_ne_nil _ _)⟩
        · split
          · exact ⟨_, emit_out _ _, fun hnil => absurd hnil (List.cons_ne_nil _ _)⟩
          · split
            · exact ⟨[], (List.append_nil _).symm, fun _ => (by simp)⟩
            · exact ⟨_, emit_out _ _, fun hnil => absurd hnil (List.cons_ne_nil _ _)⟩

theorem length_received_le (loc : Locale) (v : Bytes) : loc.length (received v) ≤ loc.length v := by
  cases loc with
  | c => exact List.length_filter_le _ _
  | utf8 => exact (List.filter_sublist.filter _).length_le

variable (loc) in
/-- A call that gets its own reply: no value is left behind by a request that is too large, and none
that is acted on has a zero in it. -/
def Call.Clean (c : Call) : Prop :=
  c.Refused ∨ ∀ v ∈ c.value,
    (maxLength < loc.length (received c.line) → received v = []) ∧
      (loc.length (received c.line) ≤ maxLength →
        received v = v ∨ maxLength < loc.length (received v))

/-- A call that is sent. -/
theorem call_eq {c : Call} (hrefused : ¬c.Refused) (hwaiting : b.waiting = .request) {b' : Bridge σ}
    (h : (c.line :: c.value.toList).foldl (Bridge.read loc planOnly lib) b = b') {t : Bytes}
    {out : List Bytes} (hout : b'.out = t :: out) :
    call loc planOnly lib c b = (.line t, { b' with out }) := by
  rw [call, hwaiting, if_neg (by simp), if_neg hrefused, h]
  dsimp only
  rw [hout]

theorem read_line (c : Call) (hwaiting : b.waiting = .request) :
    Bridge.read loc planOnly lib b c.line = Bridge.hear loc planOnly lib (received c.line) b := by
  rw [Bridge.read, hwaiting]

/-- A call that ends in one line. -/
theorem own_of_emit {c : Call} (hrefused : ¬c.Refused) (hwaiting : b.waiting = .request) {t : Plain}
    {b₁ : Bridge σ} (h : (c.line :: c.value.toList).foldl (Bridge.read loc planOnly lib) b = b₁.emit t)
    (hout : b₁.out = []) (hnext : b₁.waiting = .request)
    (hheard : b₁.heard = b.heard ++ [received c.line])
    (hacted : b₁.acted = b.acted ∨ ∃ v ∈ c.value, b₁.acted = b.acted ++ [v])
    (hanswer : answer loc planOnly lib c b.model = (t, b₁.model)) : Own loc planOnly lib c b := by
  have hcall := call_eq hrefused hwaiting h (show _ = [t.val] by
    rw [emit_out, hout, List.nil_append])
  refine ⟨fun hr => absurd hr hrefused, ?_, ?_, ?_, ?_, ?_, ?_⟩ <;> intro _ <;> rw [hcall]
  · rw [hanswer]
  · exact hnext
  · exact hheard
  · exact hacted
  · rw [hanswer]
    rfl

theorem run_eq (c : Command) (argument value : Bytes) (b : Bridge σ) :
    Bridge.run lib c argument value b = Bridge.emit (lib.act c b.model argument value).1
      { b with model := (lib.act c b.model argument value).2, waiting := .request } := rfl

/-- A call without a value. -/
theorem own_of_none {c : Call} (hvalue : c.value = none) (hrefused : ¬c.Refused)
    (hwaiting : b.waiting = .request) (hout : b.out = []) : Own loc planOnly lib c b := by
  have htakes : c.command.takesValue = false := by
    rw [← c.given, hvalue]
    rfl
  have hfold : (c.line :: c.value.toList).foldl (Bridge.read loc planOnly lib) b =
      Bridge.hear loc planOnly lib (received c.line) b := by
    rw [hvalue, Option.toList_none, List.foldl_cons, List.foldl_nil, read_line c hwaiting]
  rw [hear_call, htakes] at hfold
  have hanswer : answer loc planOnly lib c b.model =
      if maxLength < loc.length (received c.line) then
        (gbErr (text "the request is too large"), b.model)
      else if planOnly && c.command.fullOnly then
        (gbErr (text "unknown command: " ++ c.command.name), b.model)
      else lib.act c.command b.model (received (c.argument.getD [])) [] := by
    rw [answer, hvalue]
  by_cases hlarge : maxLength < loc.length (received c.line)
  · rw [if_pos hlarge] at hfold hanswer
    exact own_of_emit hrefused hwaiting hfold hout hwaiting rfl (Or.inl rfl) hanswer
  · rw [if_neg hlarge] at hfold hanswer
    by_cases hfull : (planOnly && c.command.fullOnly) = true
    · rw [if_pos hfull] at hfold hanswer
      exact own_of_emit hrefused hwaiting hfold hout hwaiting rfl (Or.inl rfl) hanswer
    · rw [if_neg hfull] at hfold hanswer
      rw [if_neg Bool.false_ne_true, run_eq] at hfold
      exact own_of_emit hrefused hwaiting hfold hout rfl rfl (Or.inl rfl) hanswer

/-- A call with a value, whose request is not too large. -/
theorem own_iff_of_some {c : Call} {v : Bytes} (hvalue : c.value = some v) (hrefused : ¬c.Refused)
    (hwaiting : b.waiting = .request) (hout : b.out = [])
    (hsmall : ¬maxLength < loc.length (received c.line)) :
    Own loc planOnly lib c b ↔ received v = v ∨ maxLength < loc.length (received v) := by
  have htakes : c.command.takesValue = true := by
    rw [← c.given, hvalue]
    rfl
  have hfull : ¬(planOnly && c.command.fullOnly) = true := by
    rw [not_fullOnly htakes, Bool.and_false]
    exact Bool.false_ne_true
  have hfold : (c.line :: c.value.toList).foldl (Bridge.read loc planOnly lib) b =
      Bridge.hearValue loc lib c.command (received (c.argument.getD [])) (received v)
        { b with heard := b.heard ++ [received c.line],
                 waiting := .value c.command (received (c.argument.getD [])) } := by
    rw [hvalue, Option.toList_some, List.foldl_cons, List.foldl_cons, List.foldl_nil,
      read_line c hwaiting, hear_call, if_neg hsmall, if_neg hfull, htakes]
    rfl
  have hanswer : answer loc planOnly lib c b.model =
      if maxLength < loc.length v then (gbErr (text "the value is too large"), b.model)
      else lib.act c.command b.model (received (c.argument.getD [])) v := by
    rw [answer, if_neg hsmall, if_neg hfull, hvalue]
  rw [Bridge.hearValue] at hfold
  by_cases hlarge : maxLength < loc.length (received v)
  · rw [if_pos hlarge] at hfold
    rw [if_pos (hlarge.trans_le (length_received_le loc v))] at hanswer
    exact iff_of_true (own_of_emit hrefused hwaiting hfold hout rfl rfl (Or.inl rfl) hanswer)
      (Or.inr hlarge)
  · rw [if_neg hlarge, run_eq] at hfold
    rw [or_iff_left hlarge]
    constructor
    · intro hown
      have hcall := call_eq hrefused hwaiting hfold (show _ = [_] by
        rw [emit_out]
        exact congrArg (· ++ _) hout)
      rcases hown.acted hrefused with hacted | ⟨w, hw, hacted⟩
      · rw [hcall] at hacted
        exact absurd (congrArg List.length hacted) (by simp [Bridge.emit])
      · rw [hcall] at hacted
        obtain rfl : v = w := by simpa [hvalue] using hw
        exact (List.cons.inj (List.append_cancel_left hacted)).1
    · intro hsame
      rw [hsame] at hlarge hfold
      rw [if_neg hlarge] at hanswer
      exact own_of_emit hrefused hwaiting hfold hout rfl rfl
        (Or.inr ⟨v, by rw [hvalue]; rfl, rfl⟩) hanswer

/-- A call with a value, whose request is too large: the value is heard as a request. -/
theorem own_iff_of_large {c : Call} {v : Bytes} (hvalue : c.value = some v) (hrefused : ¬c.Refused)
    (hwaiting : b.waiting = .request) (hout : b.out = [])
    (hlarge : maxLength < loc.length (received c.line)) :
    Own loc planOnly lib c b ↔ received v = [] := by
  set b₁ : Bridge σ := { b with heard := b.heard ++ [received c.line] } with hb₁
  set t := gbErr (text "the request is too large") with ht
  have hfirst : Bridge.hear loc planOnly lib (received c.line) b = b₁.emit t := by
    rw [hear_call, if_pos hlarge]
  have hfold : (c.line :: c.value.toList).foldl (Bridge.read loc planOnly lib) b =
      Bridge.hear loc planOnly lib (received v) (b₁.emit t) := by
    rw [hvalue, Option.toList_some, List.foldl_cons, List.foldl_cons, List.foldl_nil,
      read_line c hwaiting, hfirst, Bridge.read]
    dsimp only [Bridge.emit]
    rw [hb₁, hwaiting]
  have hanswer : answer loc planOnly lib c b.model = (t, b₁.model) := by
    rw [answer, if_pos hlarge]
  constructor
  · intro hown
    by_contra hne
    obtain ⟨more, hmore, hleaves⟩ := hear_leaves loc planOnly lib hne (b₁.emit t)
    rw [emit_out, show b₁.out = [] from hout, List.nil_append, List.singleton_append] at hmore
    have hcall := call_eq hrefused hwaiting hfold hmore
    have hleft := hown.left hrefused
    have hnext := hown.waiting hrefused
    rw [hcall] at hleft hnext
    exact hleaves hleft hnext
  · intro hnil
    rw [hnil, Bridge.hear, if_pos rfl] at hfold
    exact own_of_emit hrefused hwaiting hfold hout hwaiting rfl (Or.inl rfl) hanswer

/-- A call gets its own reply where it is clean, and the next one finds the bridge as this one did. -/
theorem own_iff (c : Call) (hwaiting : b.waiting = .request) (hout : b.out = []) :
    Own loc planOnly lib c b ↔ c.Clean loc := by
  by_cases hrefused : c.Refused
  · refine iff_of_true ⟨fun _ => ?_, ?_, ?_, ?_, ?_, ?_, ?_⟩ (Or.inl hrefused)
    · rw [call, hwaiting, if_neg (by simp), if_pos hrefused]
    all_goals exact fun hnot => absurd hrefused hnot
  · rw [Call.Clean, or_iff_right hrefused]
    rcases hvalue : c.value with _ | v
    · exact iff_of_true (own_of_none hvalue hrefused hwaiting hout) (by simp)
    · simp only [Option.mem_some_iff, forall_eq']
      by_cases hlarge : maxLength < loc.length (received c.line)
      · rw [own_iff_of_large hvalue hrefused hwaiting hout hlarge, forall_prop_of_true hlarge,
          and_iff_left fun hle => absurd hlarge (Nat.not_lt.2 hle)]
      · rw [own_iff_of_some hvalue hrefused hwaiting hout hlarge, and_iff_right fun h => absurd h hlarge,
          forall_prop_of_true (Nat.le_of_not_lt hlarge)]

theorem Own.idle {c : Call} (h : Own loc planOnly lib c b) (hwaiting : b.waiting = .request)
    (hout : b.out = []) : (call loc planOnly lib c b).2.waiting = .request ∧
      (call loc planOnly lib c b).2.out = [] := by
  by_cases hrefused : c.Refused
  · rw [h.refused hrefused]
    exact ⟨hwaiting, hout⟩
  · exact ⟨h.waiting hrefused, h.left hrefused⟩

theorem answered_iff_of_idle (calls : List Call) (hwaiting : b.waiting = .request)
    (hout : b.out = []) : Answered loc planOnly lib calls b ↔ ∀ c ∈ calls, c.Clean loc := by
  induction calls generalizing b with
  | nil => simp [Answered]
  | cons c calls ih =>
    rw [Answered, List.forall_mem_cons, ← own_iff c hwaiting hout]
    refine and_congr_right fun hown => ?_
    obtain ⟨hnext, hleft⟩ := hown.idle hwaiting hout
    exact ih hnext hleft

end

/-- Libraries that take every answer. -/
def lenient : Library (List Bytes) where
  exists_ _ := true
  isSecret _ := true
  errorText _ := []
  validate _ _ _ := true
  apply m _ _ := (none, m)
  setAnswer m _ v := m ++ [v]
  wifiConnect m _ _ := (none, m)
  view _ m _ := (gbOk, m)

/-- A password with a zero in it. -/
def zeroSecret : Call := ⟨.secret, some (text "password"), some [97, 0, 98], rfl⟩

/-- A value behind a request that is too large. -/
def largeSet : Call := ⟨.set, some (List.replicate maxLength 97), some (text "ping"), rfl⟩

end Aurade.Installer.Requests
