import Aurade.Foundations.Act
import Aurade.Foundations.Chars
import Aurade.Foundations.History

/-!
# The sign-in conversation

`Session` of the greeter: it asks greetd for a session, answers what PAM asks, and has the session
started or cancelled. The five methods read and write one connection (`send`, `receive`), whose
every message is kept in the history.

What greetd holds is told by the messages alone (`Ledger`), and the session's own `state` is to
agree with it. It does in a run that never asks more of a session that a reply left behind
(`Careful`): `signin_keeps`. The places where the state falls behind are in `signin_breaks`.
-/

namespace Aurade.Greeter

/-! ## The connection -/

/-- A request to greetd. -/
inductive Request
  | createSession (username : String)
  | postAuthMessageResponse (response : Option String)
  | startSession (cmd env : List String)
  | cancelSession
  deriving DecidableEq

/-- A reply of greetd, with the fields that are looked at: each a text, or absent or none. -/
structure Reply where
  type : Option String := none
  errorType : Option String := none
  authMessageType : Option String := none
  authMessage : Option String := none
  description : Option String := none
  deriving DecidableEq

/-- What is done on the connection. -/
inductive Call
  | send (r : Request)
  | receive
  deriving DecidableEq

/-- What becomes of it. -/
inductive Answer
  | done
  | reply (r : Reply)
  | failed (text : String)
  deriving DecidableEq

/-- The messages of a session and what became of them, the newest last. -/
abbrev Messages := List (Call × Answer)

/-- Where the session is, by its own account. -/
inductive State
  | idle | asking | ready | closed
  deriving DecidableEq

inductive PromptKind
  | visible | secret
  deriving DecidableEq

/-- One question greetd wants answered. -/
structure Prompt where
  kind : PromptKind
  text : String
  deriving DecidableEq

inductive NoticeKind
  | info | error
  deriving DecidableEq

/-- Something greetd wants shown. -/
structure Notice where
  kind : NoticeKind
  text : String
  deriving DecidableEq

/-- What a method raises. -/
inductive Failure
  | greeterError (text : String)
  | authFailed (text : String)
  deriving DecidableEq

/-- A session on its connection. -/
structure Session where
  state : State := .idle
  username : String := ""
  prompt : Option Prompt := none
  notices : List Notice := []
  /-- What each `receive` to come brings: a reply, or why there is none. -/
  inbox : List (Except String Reply) := []
  /-- What each `sendall` to come meets: nothing, or an error of the system. -/
  faults : List (Option String) := []
  messages : Messages := []

/-- So many bytes has a character in a text of `json.dumps`. -/
def charLength (c : Char) : ℕ :=
  let n := c.toNat
  if n = 34 || n = 92 || (8 ≤ n && n ≤ 10) || n = 12 || n = 13 then 2
  else if 32 ≤ n && n ≤ 126 then 1
  else if n < 0x10000 then 6
  else 12

/-- So many bytes has a text. -/
def textLength (s : String) : ℕ := 2 + (s.toList.map charLength).sum

/-- So many bytes has a list of texts. -/
def listLength (xs : List String) : ℕ := 2 + (xs.map textLength).sum + 2 * (xs.length - 1)

/-- So many bytes has the body of a request. -/
def bodyLength : Request → ℕ
  | .createSession username =>
    "\x7b\"type\": \"create_session\", \"username\": \x7d".length + textLength username
  | .postAuthMessageResponse none => "\x7b\"type\": \"post_auth_message_response\"\x7d".length
  | .postAuthMessageResponse (some response) =>
    "\x7b\"type\": \"post_auth_message_response\", \"response\": \x7d".length +
      textLength response
  | .startSession cmd env =>
    "\x7b\"type\": \"start_session\", \"cmd\": , \"env\": \x7d".length + listLength cmd +
      listLength env
  | .cancelSession => "\x7b\"type\": \"cancel_session\"\x7d".length

def maxMessage : ℕ := 2 ^ 20

/-- `Transport.send`. -/
def send (r : Request) : Act Session Failure Unit := fun s =>
  if maxMessage < bodyLength r then (.error (.greeterError "the request is too large to send"), s)
  else
    match s.faults.headD none with
    | none =>
      (.ok (), { s with faults := s.faults.tail, messages := s.messages ++ [(.send r, .done)] })
    | some e =>
      (.error (.greeterError ("the login service stopped listening: " ++ e)),
        { s with faults := s.faults.tail, messages := s.messages ++ [(.send r, .failed e)] })

/-- `Transport.receive`. Behind the last reply the connection is closed. -/
def receive : Act Session Failure Reply := fun s =>
  match s.inbox with
  | .ok r :: rest =>
    (.ok r, { s with inbox := rest, messages := s.messages ++ [(.receive, .reply r)] })
  | .error e :: rest =>
    (.error (.greeterError e),
      { s with inbox := rest, messages := s.messages ++ [(.receive, .failed e)] })
  | [] =>
    let e := "the login service closed the connection"
    (.error (.greeterError e), { s with messages := s.messages ++ [(.receive, .failed e)] })

/-! ## The methods -/

/-- `_description`. -/
def description (reply : Reply) (fallback : String) : String :=
  match reply.description with
  | some text =>
    if Str.strip text.toList ≠ [] then String.ofList (Str.strip text.toList) else fallback
  | none => fallback

/-- `_clear_refused`, and the end of `cancel`: whatever comes of it is dropped. -/
def clearRefused : Act Session Failure Unit := do
  let _ ← Act.attempt (ε := Failure) (do send .cancelSession; receive)
  pure ()

/-- `_auth_message`: the prompt, where the message is one. -/
def authMessage (reply : Reply) : Act Session Failure (Option Prompt) :=
  let text := reply.authMessage.getD ""
  let notice (kind : NoticeKind) : Act Session Failure (Option Prompt) := do
    Act.modify fun s => { s with notices := s.notices ++ [⟨kind, text⟩] }
    pure none
  match reply.authMessageType with
  | some "visible" => pure (some ⟨.visible, text⟩)
  | some "secret" => pure (some ⟨.secret, text⟩)
  | some "info" => notice .info
  | some "error" => notice .error
  | _ => Act.fail (.greeterError "the login service asked something unrecognised")

/-- What the loop of `_advance` does with a reply: what it returns, or nothing to go on. -/
def heed (reply : Reply) : Act Session Failure (Option (Option Prompt)) :=
  match reply.type with
  | some "auth_message" => do
    match ← authMessage reply with
    | some message =>
      Act.modify fun s => { s with state := .asking, prompt := some message }
      pure (some (some message))
    | none => pure none
  | some "success" => do
    Act.modify fun s => { s with state := .ready, prompt := none }
    pure (some none)
  | some "error" => do
    Act.modify fun s => { s with state := .closed, prompt := none }
    if reply.errorType = some "auth_error" then do
      clearRefused
      Act.fail (.authFailed (description reply "that did not sign you in"))
    else Act.fail (.greeterError (description reply "the login service could not sign you in"))
  | _ => Act.fail (.greeterError "the login service answered something unexpected")

/-- The loop of `_advance`, so many turns of it at most. -/
def advanceFrom : ℕ → Act Session Failure (Option Prompt)
  | 0 => pure none
  | turns + 1 => do
    let reply ← receive
    match ← heed reply with
    | some result => pure result
    | none => advanceFrom turns

/-- `_advance`. A turn takes a reply, or is the last. -/
def advance : Act Session Failure (Option Prompt) := do
  let s ← Act.get
  advanceFrom (s.inbox.length + 1)

/-- `begin`. -/
def begin (username : String) : Act Session Failure (Option Prompt) := do
  let s ← Act.get
  if s.state ≠ .idle then
    Act.fail (.greeterError "this sign in attempt has already started")
  else if username = "" ∨ '\n' ∈ username.toList ∨ '\x00' ∈ username.toList then
    Act.fail (.greeterError "that is not a username this greeter can send")
  else do
    Act.modify fun s => { s with username }
    send (.createSession username)
    advance

/-- `answer`. -/
def answer (response : Option String) : Act Session Failure (Option Prompt) := do
  let s ← Act.get
  if s.state ≠ .asking then
    Act.fail (.greeterError "the login service is not waiting for an answer")
  else if response.any fun r => '\x00' ∈ r.toList then
    Act.fail (.greeterError "an answer may not contain a null byte")
  else do
    Act.modify fun s => { s with prompt := none }
    send (.postAuthMessageResponse response)
    advance

/-- `start`. -/
def start (command env : List String) : Act Session Failure Unit := do
  let s ← Act.get
  if s.state ≠ .ready then
    Act.fail (.greeterError "this session has not been authenticated")
  else if command = [] then
    Act.fail (.greeterError "there is no session command to start")
  else do
    send (.startSession command env)
    let reply ← receive
    match reply.type with
    | some "success" => Act.modify fun s => { s with state := .closed }
    | some "error" => do
      Act.modify fun s => { s with state := .closed }
      Act.fail (.greeterError (description reply "the session could not be started"))
    | _ => Act.fail (.greeterError "the login service answered something unexpected")

/-- `cancel`. -/
def cancel : Act Session Failure Unit := do
  let s ← Act.get
  if s.state = .closed ∨ s.state = .idle then Act.modify fun s => { s with state := .closed }
  else do
    Act.modify fun s => { s with state := .closed, prompt := none }
    clearRefused

/-- A call a caller may make. -/
inductive Move
  | begin (username : String)
  | answer (response : Option String)
  | start (command env : List String)
  | cancel

/-- The call made. -/
def perform : Move → Act Session Failure (Option Prompt)
  | .begin username => begin username
  | .answer response => answer response
  | .start command env => do start command env; pure none
  | .cancel => do cancel; pure none

/-! ## What greetd holds -/

/-- What a reply tells. -/
inductive Told
  | question | notice | success | refused | error | unknown
  deriving DecidableEq

def Reply.told (r : Reply) : Told :=
  match r.type with
  | some "auth_message" =>
    match r.authMessageType with
    | some "visible" => .question
    | some "secret" => .question
    | some "info" => .notice
    | some "error" => .notice
    | _ => .unknown
  | some "success" => .success
  | some "error" => if r.errorType = some "auth_error" then .refused else .error
  | _ => .unknown

/-- What is neither a success nor an error tells nothing of a start. -/
theorem told_of_ne {r : Reply} (hsuccess : r.type ≠ some "success") (herror : r.type ≠ some "error") :
    r.told = .question ∨ r.told = .notice ∨ r.told = .unknown := by
  rw [Reply.told]
  split
  · split <;> simp
  · next h => exact absurd h hsuccess
  · next h => exact absurd h herror
  · simp

/-- How an attempt stands with greetd. -/
inductive Held
  /-- No attempt was made. -/
  | nothing
  /-- A request to check somebody was sent, and what came of it was not heard. -/
  | checking
  /-- A prompt is outstanding. -/
  | asking
  | granted
  /-- The request to start was sent, and what came of it was not heard. -/
  | starting
  | started | failed | cancelled
  deriving DecidableEq

/-- What the messages say of the attempts. -/
structure Ledger where
  held : Held := .nothing
  /-- For each `create_session` that was sent, the newest first, the cancellations sent after it and
  before the next. -/
  attempts : List ℕ := []
  /-- The errors of type `auth_error` that were heard during authentication. -/
  refusals : ℕ := 0
  deriving DecidableEq

/-- The ledger once a reply is heard. -/
def Ledger.hear (l : Ledger) (t : Told) : Ledger :=
  match l.held, t with
  | .checking, .question => { l with held := .asking }
  | .checking, .success => { l with held := .granted }
  | .checking, .refused => { l with held := .failed, refusals := l.refusals + 1 }
  | .checking, .error => { l with held := .failed }
  | .starting, .success => { l with held := .started }
  | .starting, .refused => { l with held := .failed }
  | .starting, .error => { l with held := .failed }
  | _, _ => l

/-- The ledger once a message was sent or received. A cancellation that the wire refuses is one that
was made: no more can be done for its attempt. -/
def Ledger.next (l : Ledger) : Call × Answer → Ledger
  | (.send (.createSession _), .done) =>
    { l with held := .checking, attempts := 0 :: l.attempts }
  | (.send (.postAuthMessageResponse _), .done) => { l with held := .checking }
  | (.send (.startSession _ _), .done) => { l with held := .starting }
  | (.send .cancelSession, _) =>
    { l with held := .cancelled, attempts := l.attempts.modifyHead (· + 1) }
  | (.receive, .reply r) => l.hear r.told
  | _ => l

def ledger (ms : Messages) : Ledger := ms.foldl Ledger.next {}

theorem ledger_append (ms : Messages) (e : Call × Answer) :
    ledger (ms ++ [e]) = (ledger ms).next e := by
  rw [ledger, List.foldl_append]
  rfl

/-- A response is sent while a prompt is outstanding, and a start when the attempt was granted. -/
def Proper (before : Messages) : Call → Prop
  | .send (.postAuthMessageResponse _) => (ledger before).held = .asking
  | .send (.startSession _ _) => (ledger before).held = .granted
  | _ => True

theorem allProper_append {ms : Messages} {e : Call × Answer} :
    AllCalls Proper (ms ++ [e]) ↔ AllCalls Proper ms ∧ Proper ms e.1 := by
  rw [allCalls_append, allCalls_singleton, List.append_nil]

/-- The state a session is in, beside the ledger. It is behind in `begun`, `answered`, `handed` and
`failed`. -/
inductive Matches (k : ℕ) : State → Ledger → Prop
  | idle : Matches k .idle ⟨.nothing, [], k⟩
  | begun : Matches k .idle ⟨.checking, [0], k⟩
  | asking : Matches k .asking ⟨.asking, [0], k⟩
  | answered : Matches k .asking ⟨.checking, [0], k⟩
  | ready : Matches k .ready ⟨.granted, [0], k⟩
  | handed : Matches k .ready ⟨.starting, [0], k⟩
  | unused : Matches k .closed ⟨.nothing, [], k⟩
  | started : Matches k .closed ⟨.started, [0], k⟩
  | cancelled : Matches k .closed ⟨.cancelled, [1], k⟩
  | failed : Matches k .closed ⟨.failed, [0], k⟩

/-- Every message so far was proper, and the account is one of those. -/
def Agrees (k : ℕ) (s : Session) : Prop :=
  AllCalls Proper s.messages ∧ Matches k s.state (ledger s.messages)

/-- The same, in the middle of the loop: what came of the request is still to be heard. -/
def Going (k : ℕ) (s : Session) : Prop :=
  AllCalls Proper s.messages ∧ ledger s.messages = ⟨.checking, [0], k⟩ ∧
    (s.state = .idle ∨ s.state = .asking)

/-- Where a method raises: a refusal is one more, and its attempt is cancelled. -/
def Ended (k : ℕ) (e : Failure) (s : Session) : Prop :=
  match e with
  | .greeterError _ => Agrees k s
  | .authFailed _ =>
    AllCalls Proper s.messages ∧ s.state = .closed ∧ ledger s.messages = ⟨.cancelled, [1], k + 1⟩

section

variable {k : ℕ} {s : Session}

theorem Agrees.of_idle (h : Agrees k s) (hstate : s.state = .idle) :
    ledger s.messages = ⟨.nothing, [], k⟩ ∨ ledger s.messages = ⟨.checking, [0], k⟩ := by
  obtain ⟨-, hmatches⟩ := h
  rw [hstate] at hmatches
  generalize ledger s.messages = l at hmatches ⊢
  cases hmatches with
  | idle => exact Or.inl rfl
  | begun => exact Or.inr rfl

theorem Agrees.of_asking (h : Agrees k s) (hstate : s.state = .asking) :
    ledger s.messages = ⟨.asking, [0], k⟩ ∨ ledger s.messages = ⟨.checking, [0], k⟩ := by
  obtain ⟨-, hmatches⟩ := h
  rw [hstate] at hmatches
  generalize ledger s.messages = l at hmatches ⊢
  cases hmatches with
  | asking => exact Or.inl rfl
  | answered => exact Or.inr rfl

theorem Agrees.of_ready (h : Agrees k s) (hstate : s.state = .ready) :
    ledger s.messages = ⟨.granted, [0], k⟩ ∨ ledger s.messages = ⟨.starting, [0], k⟩ := by
  obtain ⟨-, hmatches⟩ := h
  rw [hstate] at hmatches
  generalize ledger s.messages = l at hmatches ⊢
  cases hmatches with
  | ready => exact Or.inl rfl
  | handed => exact Or.inr rfl

theorem Agrees.of_closed (h : Agrees k s) (hstate : s.state = .closed) :
    (ledger s.messages).held = .failed ∨ (ledger s.messages).held = .started ∨
      ∀ n ∈ (ledger s.messages).attempts, n = 1 := by
  obtain ⟨-, hmatches⟩ := h
  rw [hstate] at hmatches
  generalize ledger s.messages = l at hmatches ⊢
  cases hmatches with
  | unused => exact Or.inr (Or.inr fun n hn => absurd hn List.not_mem_nil)
  | started => exact Or.inr (Or.inl rfl)
  | cancelled => exact Or.inr (Or.inr fun n hn => List.mem_singleton.1 hn)
  | failed => exact Or.inl rfl

end

theorem Going.agrees {k : ℕ} {s : Session} (h : Going k s) : Agrees k s := by
  obtain ⟨hproper, hledger, hstate⟩ := h
  refine ⟨hproper, ?_⟩
  rw [hledger]
  rcases hstate with hstate | hstate <;> rw [hstate]
  · exact .begun
  · exact .answered

/-! ## What the methods do to it -/

section

variable {Q : Unit → Session → Prop} {E : Failure → Session → Prop} {s : Session}

theorem send_wp {r : Request}
    (hdone : ∀ s' : Session, s'.state = s.state → s'.inbox = s.inbox →
      s'.messages = s.messages ++ [(.send r, .done)] → Q () s')
    (hlost : ∀ e t (s' : Session), s'.state = s.state →
      s'.messages = s.messages ++ [(.send r, .failed e)] → E (.greeterError t) s')
    (hlarge : maxMessage < bodyLength r → ∀ t, E (.greeterError t) s) :
    (send r).wp Q E s := by
  by_cases hbig : maxMessage < bodyLength r
  · simp only [Act.wp, send, hbig, if_true]
    exact hlarge hbig _
  · cases hfault : s.faults.headD none with
    | none =>
      simp only [Act.wp, send, hbig, if_false, hfault]
      exact hdone _ rfl rfl rfl
    | some e =>
      simp only [Act.wp, send, hbig, if_false, hfault]
      exact hlost e _ _ rfl rfl

theorem receive_wp {Q : Reply → Session → Prop}
    (hreply : ∀ r (s' : Session), s.inbox.length = s'.inbox.length + 1 → s'.state = s.state →
      s'.messages = s.messages ++ [(.receive, .reply r)] → Q r s')
    (hfailed : ∀ t (s' : Session), s'.state = s.state →
      s'.messages = s.messages ++ [(.receive, .failed t)] → E (.greeterError t) s') :
    receive.wp Q E s := by
  rw [Act.wp, receive]
  rcases hinbox : s.inbox with _ | ⟨e | r, rest⟩
  · exact hfailed _ _ rfl rfl
  · exact hfailed _ _ rfl rfl
  · exact hreply r _ (by rw [hinbox]; rfl) rfl rfl

/-- One cancellation is made, and what comes of it changes nothing. -/
theorem clearRefused_wp {n k : ℕ} {held : Held} {E : Failure → Session → Prop}
    (hproper : AllCalls Proper s.messages) (hledger : ledger s.messages = ⟨held, [n], k⟩) :
    clearRefused.wp (fun _ s' => AllCalls Proper s'.messages ∧ s'.state = s.state ∧
      ledger s'.messages = ⟨.cancelled, [n + 1], k⟩) E s := by
  have hsent : ∀ (a : Answer) (s' : Session),
      s'.messages = s.messages ++ [(.send .cancelSession, a)] →
      AllCalls Proper s'.messages ∧ ledger s'.messages = ⟨.cancelled, [n + 1], k⟩ := by
    intro a s' hmessages
    rw [hmessages, allProper_append, ledger_append, hledger]
    exact ⟨⟨hproper, trivial⟩, by cases a <;> rfl⟩
  have hheard : ∀ (a : Answer) (s' s'' : Session), AllCalls Proper s'.messages →
      ledger s'.messages = ⟨.cancelled, [n + 1], k⟩ →
      s''.messages = s'.messages ++ [(.receive, a)] →
      AllCalls Proper s''.messages ∧ ledger s''.messages = ⟨.cancelled, [n + 1], k⟩ := by
    intro a s' s'' hproper' hledger' hmessages
    rw [hmessages, allProper_append, ledger_append, hledger']
    refine ⟨⟨hproper', trivial⟩, ?_⟩
    cases a with
    | reply r => rw [Ledger.next]; cases r.told <;> rfl
    | done => rfl
    | failed => rfl
  rw [clearRefused, Act.wp_bind, Act.wp_attempt, Act.wp_bind]
  refine send_wp (fun s' hstate _ hmessages => ?_) (fun e t s' hstate hmessages => ?_)
    fun hbig => absurd hbig (by decide)
  · obtain ⟨hproper', hledger'⟩ := hsent _ s' hmessages
    refine receive_wp (fun r s'' _ hstate' hmessages' => ?_) fun t s'' hstate' hmessages' => ?_
    · obtain ⟨hproper'', hledger''⟩ := hheard _ s' s'' hproper' hledger' hmessages'
      exact ⟨hproper'', hstate'.trans hstate, hledger''⟩
    · obtain ⟨hproper'', hledger''⟩ := hheard _ s' s'' hproper' hledger' hmessages'
      exact ⟨hproper'', hstate'.trans hstate, hledger''⟩
  · obtain ⟨hproper', hledger'⟩ := hsent _ s' hmessages
    exact ⟨hproper', hstate, hledger'⟩

/-- What a reply makes of the session is what it makes of the ledger. -/
theorem heed_wp {k : ℕ} {r : Reply} (hproper : AllCalls Proper s.messages)
    (hledger : ledger s.messages = Ledger.hear ⟨.checking, [0], k⟩ r.told)
    (hstate : s.state = .idle ∨ s.state = .asking) :
    (heed r).wp (fun result s' => if result.isSome then Agrees k s' else
      Going k s' ∧ s'.inbox = s.inbox) (Ended k) s := by
  have hbroken : r.told = .unknown → Agrees k s := fun htold =>
    Going.agrees ⟨hproper, by rw [hledger, htold]; rfl, hstate⟩
  rw [heed]
  split
  · next htype =>
    rw [authMessage]
    split
    · next hkind =>
      have htold : r.told = .question := by simp only [Reply.told, htype, hkind]
      refine ⟨hproper, ?_⟩
      show Matches k .asking (ledger s.messages)
      rw [hledger, htold]
      exact .asking
    · next hkind =>
      have htold : r.told = .question := by simp only [Reply.told, htype, hkind]
      refine ⟨hproper, ?_⟩
      show Matches k .asking (ledger s.messages)
      rw [hledger, htold]
      exact .asking
    · next hkind =>
      have htold : r.told = .notice := by simp only [Reply.told, htype, hkind]
      rw [htold] at hledger
      exact ⟨⟨hproper, hledger, hstate⟩, rfl⟩
    · next hkind =>
      have htold : r.told = .notice := by simp only [Reply.told, htype, hkind]
      rw [htold] at hledger
      exact ⟨⟨hproper, hledger, hstate⟩, rfl⟩
    · next hvisible hsecret hinfo herror =>
      exact hbroken (by simp only [Reply.told, htype])
  · next htype =>
    have htold : r.told = .success := by simp only [Reply.told, htype]
    refine ⟨hproper, ?_⟩
    show Matches k .ready (ledger s.messages)
    rw [hledger, htold]
    exact .ready
  · next htype =>
    simp only [Act.wp_bind, Act.wp_modify, Act.wp_ite, Act.wp_fail]
    constructor
    · intro hrefused
      have htold : r.told = .refused := by simp only [Reply.told, htype, hrefused, if_true]
      rw [htold] at hledger
      exact Act.wp_mono (clearRefused_wp hproper hledger) (fun _ s' h => h) fun _ _ h => h
    · intro hrefused
      have htold : r.told = .error := by simp only [Reply.told, htype, hrefused, if_false]
      refine ⟨hproper, ?_⟩
      show Matches k .closed (ledger s.messages)
      rw [hledger, htold]
      exact .failed
  · next hauth hsuccess herror =>
    exact hbroken (by simp only [Reply.told])

/-- The loop hears the outcome, or breaks off. -/
theorem advanceFrom_wp {k : ℕ} (turns : ℕ) : ∀ s : Session, turns = s.inbox.length + 1 → Going k s →
    (advanceFrom turns).wp (fun _ s' => Agrees k s') (Ended k) s := by
  induction turns with
  | zero => exact fun s hturns => absurd hturns (by omega)
  | succ turns ih =>
    intro s hturns hgoing
    obtain ⟨hproper, hledger, hstate⟩ := hgoing
    rw [advanceFrom, Act.wp_bind]
    refine receive_wp (fun r s' hinbox hstate' hmessages => ?_) fun t s' hstate' hmessages => ?_
    · have hheard : ledger s'.messages = Ledger.hear ⟨.checking, [0], k⟩ r.told := by
        rw [hmessages, ledger_append, hledger]
        rfl
      have hproper' : AllCalls Proper s'.messages := by
        rw [hmessages, allProper_append]
        exact ⟨hproper, trivial⟩
      rw [Act.wp_bind]
      refine Act.wp_mono (heed_wp hproper' hheard (by rwa [hstate'])) (fun result s'' h => ?_)
        fun _ _ h => h
      cases result with
      | some result => exact h
      | none =>
        obtain ⟨hgoing, hinbox'⟩ := h
        exact ih s'' (by rw [hinbox']; omega) hgoing
    · refine Going.agrees ⟨?_, ?_, by rwa [hstate']⟩
      · rw [hmessages, allProper_append]
        exact ⟨hproper, trivial⟩
      · rw [hmessages, ledger_append, hledger]
        rfl

/-- A request that was sent, and the loop behind it. -/
theorem send_advance_wp {k : ℕ} {r : Request} (hs : Agrees k s) (hproper : Proper s.messages (.send r))
    (hsent : (ledger s.messages).next (.send r, .done) = ⟨.checking, [0], k⟩)
    (hlost : ∀ e, (ledger s.messages).next (.send r, .failed e) = ledger s.messages)
    (hstate : s.state = .idle ∨ s.state = .asking) :
    (do send r; advance : Act Session Failure (Option Prompt)).wp (fun _ s' => Agrees k s')
      (Ended k) s := by
  rw [Act.wp_bind]
  refine send_wp (fun s' hstate' _ hmessages => ?_) (fun e t s' hstate' hmessages => ?_)
    fun _ _ => hs
  · refine advanceFrom_wp (s'.inbox.length + 1) s' rfl ⟨?_, ?_, by rwa [hstate']⟩
    · rw [hmessages, allProper_append]
      exact ⟨hs.1, hproper⟩
    · rw [hmessages, ledger_append, hsent]
  · refine ⟨?_, ?_⟩
    · rw [hmessages, allProper_append]
      exact ⟨hs.1, hproper⟩
    · rw [hmessages, ledger_append, hlost, hstate']
      exact hs.2

end

/-! ## Runs -/

/-- Where the session's state is behind what greetd holds, and what is asked of it then. -/
def Behind (s : Session) : Move → Prop
  | .begin _ => s.state = .idle ∧ (ledger s.messages).held = .checking
  | .answer _ => s.state = .asking ∧ (ledger s.messages).held = .checking
  | .start _ _ => s.state = .ready ∧ (ledger s.messages).held = .starting
  | .cancel =>
    s.state = .idle ∧ (ledger s.messages).held = .checking ∨
      s.state = .closed ∧ (ledger s.messages).held = .failed

instance (s : Session) : DecidablePred (Behind s)
  | .begin _ => inferInstanceAs (Decidable (_ ∧ _))
  | .answer _ => inferInstanceAs (Decidable (_ ∧ _))
  | .start _ _ => inferInstanceAs (Decidable (_ ∧ _))
  | .cancel => inferInstanceAs (Decidable (_ ∨ _))

/-- The sessions that calls lead to, each of them allowed where it is made. -/
inductive Run (allowed : Session → Move → Prop) : Session → Prop
  | new (inbox : List (Except String Reply)) (faults : List (Option String)) :
      Run allowed { inbox, faults }
  | step {s : Session} (m : Move) : Run allowed s → allowed s m → Run allowed (perform m s).2

/-- Whether the credentials were said to be refused. -/
def Refused (r : Except Failure (Option Prompt)) : Prop := ∃ text, r = .error (.authFailed text)

/-- What a call keeps: the messages are proper; it raises `AuthFailed` exactly when a refusal was
heard; and once the attempt is given up or refused, each one that was made and not started has had
one cancellation. -/
def Right (s : Session) (m : Move) : Prop :=
  let s' := (perform m s).2
  AllCalls Proper s'.messages ∧
    (Refused (perform m s).1 ↔ (ledger s'.messages).refusals ≠ (ledger s.messages).refusals) ∧
    (m = .cancel ∨ Refused (perform m s).1 → (ledger s'.messages).held ≠ .started →
      ∀ n ∈ (ledger s'.messages).attempts, n = 1)

section

variable {k : ℕ} {s : Session}

theorem begin_wp {username : String} (hs : Agrees k s) (hb : ¬ Behind s (.begin username)) :
    (begin username).wp (fun _ s' => Agrees k s') (Ended k) s := by
  rw [begin, Act.wp_bind, Act.wp_get, Act.wp_ite, Act.wp_ite, Act.wp_bind, Act.wp_modify]
  refine ⟨fun _ => hs, fun hidle => ⟨fun _ => hs, fun _ => ?_⟩⟩
  have hstate : s.state = .idle := not_not.1 hidle
  have hnew : ledger s.messages = ⟨.nothing, [], k⟩ :=
    (hs.of_idle hstate).resolve_right fun h => hb ⟨hstate, by rw [h]⟩
  refine send_advance_wp (s := { s with username }) hs trivial ?_ (fun _ => rfl) (Or.inl hstate)
  show (ledger s.messages).next _ = _
  rw [hnew]
  rfl

theorem answer_wp {response : Option String} (hs : Agrees k s) (hb : ¬ Behind s (.answer response)) :
    (answer response).wp (fun _ s' => Agrees k s') (Ended k) s := by
  rw [answer, Act.wp_bind, Act.wp_get, Act.wp_ite, Act.wp_ite, Act.wp_bind, Act.wp_modify]
  refine ⟨fun _ => hs, fun hasking => ⟨fun _ => hs, fun _ => ?_⟩⟩
  have hstate : s.state = .asking := not_not.1 hasking
  have hasked : ledger s.messages = ⟨.asking, [0], k⟩ :=
    (hs.of_asking hstate).resolve_right fun h => hb ⟨hstate, by rw [h]⟩
  refine send_advance_wp (s := { s with prompt := none }) hs ?_ ?_ (fun _ => rfl) (Or.inr hstate)
  · show (ledger s.messages).held = .asking
    rw [hasked]
  · show (ledger s.messages).next _ = _
    rw [hasked]
    rfl

theorem start_wp {command env : List String} (hs : Agrees k s) (hb : ¬ Behind s (.start command env)) :
    (start command env).wp (fun _ s' => Agrees k s') (Ended k) s := by
  rw [start, Act.wp_bind, Act.wp_get, Act.wp_ite, Act.wp_ite, Act.wp_bind]
  refine ⟨fun _ => hs, fun hready => ⟨fun _ => hs, fun _ => ?_⟩⟩
  have hstate : s.state = .ready := not_not.1 hready
  have hgranted : ledger s.messages = ⟨.granted, [0], k⟩ :=
    (hs.of_ready hstate).resolve_right fun h => hb ⟨hstate, by rw [h]⟩
  have hproper : Proper s.messages (.send (.startSession command env)) := by
    show (ledger s.messages).held = .granted
    rw [hgranted]
  refine send_wp (fun s' hstate' _ hmessages => ?_) (fun e t s' hstate' hmessages => ?_)
    fun _ _ => hs
  · have hproper' : AllCalls Proper s'.messages := by
      rw [hmessages, allProper_append]
      exact ⟨hs.1, hproper⟩
    have hsent : ledger s'.messages = ⟨.starting, [0], k⟩ := by
      rw [hmessages, ledger_append, hgranted]
      rfl
    rw [Act.wp_bind]
    refine receive_wp (fun r s'' _ hstate'' hmessages' => ?_) fun t s'' hstate'' hmessages' => ?_
    · have hproper'' : AllCalls Proper s''.messages := by
        rw [hmessages', allProper_append]
        exact ⟨hproper', trivial⟩
      have hheard : ledger s''.messages = Ledger.hear ⟨.starting, [0], k⟩ r.told := by
        rw [hmessages', ledger_append, hsent]
        rfl
      split
      · next htype =>
        have htold : r.told = .success := by simp only [Reply.told, htype]
        refine ⟨hproper'', ?_⟩
        show Matches k .closed (ledger s''.messages)
        rw [hheard, htold]
        exact .started
      · next htype =>
        refine ⟨hproper'', ?_⟩
        show Matches k .closed (ledger s''.messages)
        rw [hheard, Reply.told, htype]
        by_cases hrefused : r.errorType = some "auth_error"
        · rw [if_pos hrefused]
          exact .failed
        · rw [if_neg hrefused]
          exact .failed
      · next hsuccess herror =>
        refine ⟨hproper'', ?_⟩
        have hsame : Ledger.hear ⟨.starting, [0], k⟩ r.told = ⟨.starting, [0], k⟩ := by
          rcases told_of_ne hsuccess herror with h | h | h <;> rw [h] <;> rfl
        rw [hheard, hsame, hstate'', hstate', hstate]
        exact .handed
    · refine ⟨?_, ?_⟩
      · rw [hmessages', allProper_append]
        exact ⟨hproper', trivial⟩
      · rw [hmessages', ledger_append, hsent, hstate'', hstate', hstate]
        exact .handed
  · refine ⟨?_, ?_⟩
    · rw [hmessages, allProper_append]
      exact ⟨hs.1, hproper⟩
    · rw [hmessages, ledger_append, hstate']
      exact hs.2

/-- Giving up settles what was made of attempts. -/
theorem cancel_wp {E : Failure → Session → Prop} (hs : Agrees k s) (hb : ¬ Behind s .cancel) :
    cancel.wp (fun _ s' => Agrees k s' ∧ ((ledger s'.messages).held ≠ .started →
      ∀ n ∈ (ledger s'.messages).attempts, n = 1)) E s := by
  rw [cancel, Act.wp_bind, Act.wp_get, Act.wp_ite]
  constructor
  · intro hover
    rw [Act.wp_modify]
    by_cases hstate : s.state = .idle
    · have hnew : ledger s.messages = ⟨.nothing, [], k⟩ :=
        (hs.of_idle hstate).resolve_right fun h => hb (Or.inl ⟨hstate, by rw [h]⟩)
      refine ⟨⟨hs.1, ?_⟩, fun _ n hn => ?_⟩
      · show Matches k .closed (ledger s.messages)
        rw [hnew]
        exact .unused
      · have hnil : (ledger s.messages).attempts = [] := by rw [hnew]
        exact absurd hn (by rw [hnil]; exact List.not_mem_nil)
    · have hclosed : s.state = .closed := hover.resolve_right hstate
      refine ⟨⟨hs.1, ?_⟩, fun hstarted => ?_⟩
      · show Matches k .closed (ledger s.messages)
        rw [← hclosed]
        exact hs.2
      · rcases hs.of_closed hclosed with h | h | h
        · exact absurd (Or.inr ⟨hclosed, h⟩) hb
        · exact absurd h hstarted
        · exact h
  · intro hopen
    rw [Act.wp_bind, Act.wp_modify]
    have hheld : ∃ held, ledger s.messages = ⟨held, [0], k⟩ := by
      cases hstate : s.state with
      | idle => exact absurd (Or.inr hstate) hopen
      | closed => exact absurd (Or.inl hstate) hopen
      | asking => exact (hs.of_asking hstate).elim (fun h => ⟨_, h⟩) fun h => ⟨_, h⟩
      | ready => exact (hs.of_ready hstate).elim (fun h => ⟨_, h⟩) fun h => ⟨_, h⟩
    obtain ⟨held, hledger⟩ := hheld
    refine Act.wp_mono (clearRefused_wp (s := { s with state := .closed, prompt := none }) hs.1
      hledger) (fun _ s' h => ?_) fun _ _ h => h
    obtain ⟨hproper', hstate', hledger'⟩ := h
    refine ⟨⟨hproper', ?_⟩, fun _ => ?_⟩
    · rw [hledger', hstate']
      exact .cancelled
    · rw [hledger']
      exact fun n hn => List.mem_singleton.1 hn

theorem perform_wp {m : Move} (hs : Agrees k s) (hb : ¬ Behind s m) :
    (perform m).wp (fun _ s' => Agrees k s' ∧ (m = .cancel → (ledger s'.messages).held ≠ .started →
      ∀ n ∈ (ledger s'.messages).attempts, n = 1)) (fun e s' => Ended k e s' ∧ m ≠ .cancel) s := by
  cases m with
  | begin username =>
    apply Act.wp_mono (begin_wp hs hb)
    · exact fun _ _ h => ⟨h, fun hm => by cases hm⟩
    · exact fun _ _ h => ⟨h, fun hm => by cases hm⟩
  | answer response =>
    apply Act.wp_mono (answer_wp hs hb)
    · exact fun _ _ h => ⟨h, fun hm => by cases hm⟩
    · exact fun _ _ h => ⟨h, fun hm => by cases hm⟩
  | start command env =>
    rw [perform, Act.wp_bind]
    apply Act.wp_mono (start_wp hs hb)
    · exact fun _ _ h => ⟨h, fun hm => by cases hm⟩
    · exact fun _ _ h => ⟨h, fun hm => by cases hm⟩
  | cancel =>
    rw [perform, Act.wp_bind]
    apply Act.wp_mono (cancel_wp (E := fun _ _ => False) hs hb)
    · exact fun _ _ h => ⟨h.1, fun _ => h.2⟩
    · exact fun _ _ h => h.elim

theorem Matches.refusals {st : State} {l : Ledger} (h : Matches k st l) : l.refusals = k := by
  cases h <;> rfl

/-- One call, where the state is not behind. -/
theorem right_of_agrees {m : Move} (hs : Agrees k s) (hb : ¬ Behind s m) :
    Right s m ∧ ∃ k', Agrees k' (perform m s).2 := by
  have hbefore : (ledger s.messages).refusals = k := hs.2.refusals
  have hwp := perform_wp hs hb
  rw [Right]
  rcases hrun : perform m s with ⟨e | result, s'⟩
  · obtain ⟨hended, hm⟩ := Act.wp_error hwp hrun
    cases e with
    | greeterError text =>
      have hno : ¬ Refused (.error (.greeterError text)) := by
        rintro ⟨_, h⟩
        cases h
      refine ⟨⟨hended.1, ?_, fun h => absurd h (not_or.2 ⟨hm, hno⟩)⟩, k, hended⟩
      rw [hended.2.refusals, hbefore]
      exact iff_of_false hno fun h => h rfl
    | authFailed text =>
      obtain ⟨hproper, hstate, hledger⟩ := hended
      refine ⟨⟨hproper, ?_, fun _ _ => ?_⟩, k + 1, hproper, ?_⟩
      · rw [hledger, hbefore]
        exact iff_of_true ⟨text, rfl⟩ (Nat.succ_ne_self k)
      · rw [hledger]
        exact fun n hn => List.mem_singleton.1 hn
      · rw [hledger, hstate]
        exact .cancelled
  · obtain ⟨hagrees, hsettled⟩ := Act.wp_ok hwp hrun
    have hno : ¬ Refused (.ok result) := by
      rintro ⟨_, h⟩
      cases h
    refine ⟨⟨hagrees.1, ?_, fun h => hsettled (h.resolve_right hno)⟩, k, hagrees⟩
    rw [hagrees.2.refusals, hbefore]
    exact iff_of_false hno fun h => h rfl

end

theorem agrees_of_run {s : Session} (h : Run (fun s m => ¬ Behind s m) s) : ∃ k, Agrees k s := by
  induction h with
  | new inbox faults => exact ⟨0, allCalls_nil _, .idle⟩
  | step m _ hb ih =>
    obtain ⟨k, hs⟩ := ih
    exact (right_of_agrees hs hb).2

/-- A session after some calls. -/
def after (inbox : List (Except String Reply)) (ms : List Move) : Session :=
  ms.foldl (fun s m => (perform m s).2) { inbox }

def passwordPrompt : Reply :=
  { type := "auth_message", authMessageType := "secret", authMessage := "Password: " }

def successReply : Reply := { type := "success" }

def refusal : Reply := { type := "error", errorType := "auth_error" }

/-- An error that is none of the password. -/
def otherError : Reply := { type := "error", errorType := "error" }

/-- A message greetd does not send today. -/
def strangeReply : Reply := { type := "auth_progress" }

theorem run_after (inbox : List (Except String Reply)) (ms : List Move) :
    Run (fun _ _ => True) (after inbox ms) := by
  induction ms using List.reverseRecOn with
  | nil => exact .new inbox []
  | append_singleton ms m ih =>
    rw [after, List.foldl_append]
    exact .step m ih trivial

/-- A session that is given up with an attempt nothing was sent for is not right. -/
theorem not_right_of_left {s : Session}
    (h : (ledger (perform .cancel s).2.messages).held ≠ .started ∧
      0 ∈ (ledger (perform .cancel s).2.messages).attempts) : ¬ Right s .cancel := by
  intro hright
  exact absurd (hright.2.2 (Or.inl rfl) h.1 0 h.2) (by decide)

/-- Nor is one whose last message but the reply was improper. -/
theorem not_right_of_improper {s : Session} {m : Move} (before : Messages) (e : Call × Answer)
    (after : Messages) (hsplit : (perform m s).2.messages = before ++ e :: after)
    (h : ¬ Proper before e.1) : ¬ Right s m := fun hright =>
  h (hright.1 before e after hsplit)

end Aurade.Greeter
