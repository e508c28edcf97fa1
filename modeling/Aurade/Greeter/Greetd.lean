import Aurade.Greeter.Protocol
import Mathlib.Data.List.TakeWhile
import Mathlib.Logic.Relation

/-!
# The greeter and greetd

The two parties of a sign-in with their messages in flight (`Duo`). greetd answers each request once:
a `create_session` and a response with what PAM says next, and nothing more before the next request.
The greeter's steps are those of `Session` (`turn` is a turn of its loop, `heed_eq`), and its caller
answers every prompt it is given.

A line of PAM that is no question is answered by nobody: the greeter reads on, and greetd waits. So
the two wait for each other exactly in the conversations that have such a line (`settles_iff`).
-/

namespace Aurade.Greeter

/-! ## A turn of the loop -/

/-- What becomes of the loop at a reply. -/
inductive Turn
  | again
  | returns (result : Option Prompt)
  | raises (text : String)
  /-- The attempt is cancelled, and then `AuthFailed` is raised. -/
  | refused (text : String)

/-- What a reply makes of the session, up to the next message. -/
def turn (r : Reply) (s : Session) : Turn × Session :=
  let text := r.authMessage.getD ""
  match r.type with
  | some "auth_message" =>
    match r.authMessageType with
    | some "visible" =>
      (.returns (some ⟨.visible, text⟩), { s with state := .asking, prompt := some ⟨.visible, text⟩ })
    | some "secret" =>
      (.returns (some ⟨.secret, text⟩), { s with state := .asking, prompt := some ⟨.secret, text⟩ })
    | some "info" => (.again, { s with notices := s.notices ++ [⟨.info, text⟩] })
    | some "error" => (.again, { s with notices := s.notices ++ [⟨.error, text⟩] })
    | _ => (.raises "the login service asked something unrecognised", s)
  | some "success" => (.returns none, { s with state := .ready, prompt := none })
  | some "error" =>
    (if r.errorType = some "auth_error" then .refused (description r "that did not sign you in")
      else .raises (description r "the login service could not sign you in"),
      { s with state := .closed, prompt := none })
  | _ => (.raises "the login service answered something unexpected", s)

/-- The rest of a turn. -/
def Turn.run : Turn → Act Session Failure (Option (Option Prompt))
  | .again => pure none
  | .returns result => pure (some result)
  | .raises text => Act.fail (.greeterError text)
  | .refused text => do
    clearRefused
    Act.fail (.authFailed text)

/-- `turn` is what the loop of `_advance` does with a reply. -/
theorem heed_eq (r : Reply) (s : Session) : heed r s = (turn r s).1.run (turn r s).2 := by
  generalize hm : heed r = m
  rw [heed] at hm
  split at hm
  · next htype =>
    rw [authMessage] at hm
    split at hm
    all_goals
      next hkind =>
        subst hm
        simp only [turn, htype, hkind]
        rfl
  · next htype =>
    subst hm
    simp only [turn, htype]
    rfl
  · next htype =>
    subst hm
    by_cases h : r.errorType = some "auth_error"
    · simp only [turn, htype, h, if_true]
      rfl
    · simp only [turn, htype, h, if_false]
      rfl
  · next hauth hsuccess herror =>
    subst hm
    simp only [turn]
    rfl

/-- The session once a reply is taken from the connection. -/
def Session.hears (s : Session) (r : Reply) (rest : List (Except String Reply)) : Session :=
  { s with inbox := rest, messages := s.messages ++ [(.receive, .reply r)] }

/-- The loop takes its turns one after another. -/
theorem advanceFrom_succ {s : Session} {r : Reply} {rest : List (Except String Reply)} (n : ℕ)
    (h : s.inbox = .ok r :: rest) :
    advanceFrom (n + 1) s =
      ((turn r (s.hears r rest)).1.run >>= fun result => result.elim (advanceFrom n) pure)
        (turn r (s.hears r rest)).2 := by
  have hreceive : receive s = (.ok r, s.hears r rest) := by
    rw [receive, h]
    rfl
  rw [advanceFrom, Act.bind_of_ok hreceive]
  rcases hrun : (turn r (s.hears r rest)).1.run (turn r (s.hears r rest)).2 with ⟨e | result, s'⟩
  · rw [Act.bind_of_error ((heed_eq r _).trans hrun), Act.bind_of_error hrun]
  · rw [Act.bind_of_ok ((heed_eq r _).trans hrun), Act.bind_of_ok hrun]
    cases result <;> rfl

/-- The session once a request is sent. -/
def Session.sent (s : Session) (r : Request) : Session :=
  { s with faults := s.faults.tail, messages := s.messages ++ [(.send r, .done)] }

/-! ## The two parties -/

inductive LineKind
  | visible | secret | info | error
  deriving DecidableEq

/-- A line PAM wants shown, or asked. -/
structure Line where
  kind : LineKind
  text : String

/-- Whether it is answered by somebody. -/
def Line.IsPrompt (l : Line) : Prop := l.kind = .visible ∨ l.kind = .secret

instance : DecidablePred Line.IsPrompt := fun _ => inferInstanceAs (Decidable (_ ∨ _))

def LineKind.name : LineKind → String
  | .visible => "visible"
  | .secret => "secret"
  | .info => "info"
  | .error => "error"

/-- The message greetd makes of a line. -/
def Line.reply (l : Line) : Reply :=
  { type := "auth_message", authMessageType := l.kind.name, authMessage := l.text }

/-- How a conversation ends. -/
inductive Outcome
  | success
  | error (errorType description : Option String)

def Outcome.reply : Outcome → Reply
  | .success => { type := "success" }
  | .error errorType description => { type := "error", errorType, description }

/-- A conversation of PAM. -/
structure Pam where
  lines : List Line
  outcome : Outcome

/-- Where the greeter is. -/
inductive Control
  /-- The caller has it, with what the last call ended with. -/
  | caller (last : Option (Except Failure (Option Prompt)))
  /-- In `receive`, in the loop of `_advance`. -/
  | waiting
  /-- In `receive`, in `_clear_refused`. -/
  | clearing (text : String)

/-- The two parties, and their messages in flight. -/
structure Duo where
  session : Session
  control : Control
  requests : List Request
  replies : List Reply
  /-- What PAM has still to say. -/
  lines : List Line
  outcome : Option Outcome

def Pam.start (c : Pam) : Duo := ⟨{}, .caller none, [], [], c.lines, some c.outcome⟩

/-- A request that the session sends and does not turn down. -/
def Acceptable (r : Request) : Prop :=
  bodyLength r ≤ maxMessage ∧
    match r with
    | .createSession username =>
      ¬ (username = "" ∨ '\n' ∈ username.toList ∨ '\x00' ∈ username.toList)
    | .postAuthMessageResponse response => (response.any fun r => '\x00' ∈ r.toList) = false
    | _ => True

theorem send_of_acceptable {s : Session} {r : Request} (h : Acceptable r)
    (hfaults : s.faults.headD none = none) : send r s = (.ok (), s.sent r) := by
  rw [send, if_neg (Nat.not_lt.2 h.1), hfaults]
  rfl

/-- What `begin` does before its loop. -/
theorem begin_eq {s : Session} {username : String} (hidle : s.state = .idle)
    (h : Acceptable (.createSession username)) (hfaults : s.faults.headD none = none) :
    begin username s = advance (({ s with username } : Session).sent (.createSession username)) := by
  have hsend := send_of_acceptable (s := { s with username }) h hfaults
  rw [begin, Act.bind_of_ok (show Act.get s = (.ok s, s) from rfl), if_neg (not_not.2 hidle),
    if_neg h.2, Act.bind_of_ok (show Act.modify _ s = (.ok (), { s with username }) from rfl),
    Act.bind_of_ok hsend]

/-- What `answer` does before its loop. -/
theorem answer_eq {s : Session} {response : Option String} (hasking : s.state = .asking)
    (h : Acceptable (.postAuthMessageResponse response)) (hfaults : s.faults.headD none = none) :
    answer response s = advance
      (({ s with prompt := none } : Session).sent (.postAuthMessageResponse response)) := by
  have hsend := send_of_acceptable (s := { s with prompt := none }) h hfaults
  rw [answer, Act.bind_of_ok (show Act.get s = (.ok s, s) from rfl), if_neg (not_not.2 hasking),
    if_neg (Bool.not_eq_true _ ▸ h.2), Act.bind_of_ok
      (show Act.modify _ s = (.ok (), { s with prompt := none }) from rfl),
    Act.bind_of_ok hsend]

/-- The requests PAM is behind. -/
def Request.asks : Request → Bool
  | .createSession _ => true
  | .postAuthMessageResponse _ => true
  | _ => false

/-- The greeter's control at the end of a turn, and what it has sent. -/
def Turn.leads : Turn → Control × List Request
  | .again => (.waiting, [])
  | .returns result => (.caller (some (.ok result)), [])
  | .raises text => (.caller (some (.error (.greeterError text))), [])
  | .refused text => (.clearing text, [.cancelSession])

/-- One step of either party. The first four are the greeter's and its caller's, the others those of
greetd, which answers the first request it has not answered. -/
inductive Step : Duo → Duo → Prop
  | begin {s qs rs ls o} (username : String) : s.state = .idle →
      Acceptable (.createSession username) →
      Step ⟨s, .caller none, qs, rs, ls, o⟩
        ⟨{ s with username }, .waiting, qs ++ [.createSession username], rs, ls, o⟩
  | answer {s p qs rs ls o} (response : Option String) : s.state = .asking →
      Acceptable (.postAuthMessageResponse response) →
      Step ⟨s, .caller (some (.ok (some p))), qs, rs, ls, o⟩
        ⟨{ s with prompt := none }, .waiting, qs ++ [.postAuthMessageResponse response], rs, ls, o⟩
  | hears {s qs r rs ls o} :
      Step ⟨s, .waiting, qs, r :: rs, ls, o⟩
        ⟨(turn r s).2, (turn r s).1.leads.1, qs ++ (turn r s).1.leads.2, rs, ls, o⟩
  | drops {s t qs r rs ls o} :
      Step ⟨s, .clearing t, qs, r :: rs, ls, o⟩
        ⟨s, .caller (some (.error (.authFailed t))), qs, rs, ls, o⟩
  | tells {s c q qs rs l ls o} : q.asks = true →
      Step ⟨s, c, q :: qs, rs, l :: ls, o⟩ ⟨s, c, qs, rs ++ [l.reply], ls, o⟩
  | ends {s c q qs rs o} : q.asks = true →
      Step ⟨s, c, q :: qs, rs, [], some o⟩ ⟨s, c, qs, rs ++ [o.reply], [], none⟩
  | other {s c q qs rs ls o} (r : Reply) : q.asks = false ∨ (ls = [] ∧ o = none) →
      Step ⟨s, c, q :: qs, rs, ls, o⟩ ⟨s, c, qs, rs ++ [r], ls, o⟩

/-- The greeter is waiting in `receive`. -/
def Duo.Waits (d : Duo) : Prop := d.control = .waiting ∨ ∃ text, d.control = .clearing text

/-- A reply is in flight, or will be made of a request that is. -/
def Duo.Owed (d : Duo) : Prop := d.replies ≠ [] ∨ d.requests ≠ []

/-- The conversation has ended: the caller was told so. -/
def Duo.Over (d : Duo) : Prop :=
  ∃ last, d.control = .caller (some last) ∧ ∀ p, last ≠ .ok (some p)

/-- The two never wait for each other, and every run of them ends with the conversation. -/
def Pam.Settles (c : Pam) : Prop :=
  ∀ d, Relation.ReflTransGen Step c.start d →
    (d.Waits → d.Owed) ∧ (∃ e, Relation.ReflTransGen Step d e ∧ e.Over) ∧
      Acc (fun e d => Step d e) d

/-! ## Conversations of prompts -/

section

/-- A relation whose every step counts down, and which goes on up to an end, has no endless run, and
comes to an end. -/
theorem ends_of_countdown {α : Type} {r : α → α → Prop} {P : ℕ → α → Prop} {F : α → Prop}
    (hstep : ∀ n a b, P n a → r a b → ∃ m < n, P m b) (hgoes : ∀ n a, P n a → F a ∨ ∃ b, r a b) :
    ∀ n a, P n a → (∃ b, Relation.ReflTransGen r a b ∧ F b) ∧ Acc (fun b a => r a b) a := by
  intro n
  induction n using Nat.strong_induction_on with
  | _ n ih =>
    intro a ha
    constructor
    · rcases hgoes n a ha with hend | ⟨b, hab⟩
      · exact ⟨a, .refl, hend⟩
      · obtain ⟨m, hm, hb⟩ := hstep n a b ha hab
        obtain ⟨⟨c, hbc, hc⟩, -⟩ := ih m hm b hb
        exact ⟨c, .head hab hbc, hc⟩
    · refine ⟨a, fun b hab => ?_⟩
      obtain ⟨m, hm, hb⟩ := hstep n a b ha hab
      exact (ih m hm b hb).2

end

/-- The states of a conversation of prompts, with a bound on the steps to its end. -/
inductive Phase : ℕ → Duo → Prop
  | fresh {s : Session} {ls : List Line} {o : Outcome} : s.state = .idle →
      (∀ l ∈ ls, l.IsPrompt) →
      Phase (3 * ls.length + 5) ⟨s, .caller none, [], [], ls, some o⟩
  | asked {s : Session} {q : Request} {ls : List Line} {o : Outcome} : q.asks = true →
      (∀ l ∈ ls, l.IsPrompt) →
      Phase (3 * ls.length + 4) ⟨s, .waiting, [q], [], ls, some o⟩
  | told {s : Session} {l : Line} {ls : List Line} {o : Outcome} : l.IsPrompt →
      (∀ l ∈ ls, l.IsPrompt) →
      Phase (3 * ls.length + 6) ⟨s, .waiting, [], [l.reply], ls, some o⟩
  | prompted {s : Session} {p : Prompt} {ls : List Line} {o : Outcome} : s.state = .asking →
      (∀ l ∈ ls, l.IsPrompt) →
      Phase (3 * ls.length + 5) ⟨s, .caller (some (.ok (some p))), [], [], ls, some o⟩
  | ended {s : Session} {o : Outcome} : Phase 3 ⟨s, .waiting, [], [Outcome.reply o], [], none⟩
  | refused {s : Session} {t : String} {q : Request} :
      Phase 2 ⟨s, .clearing t, [q], [], [], none⟩
  | dropped {s : Session} {t : String} {r : Reply} :
      Phase 1 ⟨s, .clearing t, [], [r], [], none⟩
  | finished {s : Session} {last : Except Failure (Option Prompt)} : (∀ p, last ≠ .ok (some p)) →
      Phase 0 ⟨s, .caller (some last), [], [], [], none⟩

/-- A prompt is handed to the caller. -/
theorem turn_prompt {l : Line} (h : l.IsPrompt) (s : Session) :
    ∃ p, (turn l.reply s).1 = .returns (some p) ∧ (turn l.reply s).2.state = .asking := by
  rcases l with ⟨kind, text⟩
  rcases h with rfl | rfl
  · exact ⟨⟨.visible, text⟩, rfl, rfl⟩
  · exact ⟨⟨.secret, text⟩, rfl, rfl⟩

/-- At any other line the greeter reads on. -/
theorem turn_notice {l : Line} (h : ¬ l.IsPrompt) (s : Session) : (turn l.reply s).1 = .again := by
  rcases l with ⟨kind, text⟩
  cases kind with
  | visible => exact absurd (Or.inl rfl) h
  | secret => exact absurd (Or.inr rfl) h
  | info => rfl
  | error => rfl

theorem Phase.step {n : ℕ} {d e : Duo} (h : Phase n d) (hstep : Step d e) : ∃ m < n, Phase m e := by
  cases h with
  | fresh hidle hls =>
    cases hstep with
    | begin username _ _ => exact ⟨_, by omega, .asked rfl hls⟩
  | asked hq hls =>
    cases hstep with
    | tells _ =>
      obtain ⟨hl, hls⟩ := List.forall_mem_cons.1 hls
      exact ⟨_, by rw [List.length_cons]; omega, .told hl hls⟩
    | ends _ => exact ⟨3, by simp, .ended⟩
    | other r hr =>
      rcases hr with hr | ⟨-, hr⟩
      · exact absurd (hq.symm.trans hr) (by decide)
      · cases hr
  | @told s l ls o hl hls =>
    cases hstep with
    | hears =>
      obtain ⟨p, hturn, hasking⟩ := turn_prompt hl s
      rw [hturn]
      exact ⟨_, by omega, .prompted hasking hls⟩
  | prompted hasking hls =>
    cases hstep with
    | answer response _ _ => exact ⟨_, by omega, .asked rfl hls⟩
  | @ended s o =>
    cases hstep with
    | hears =>
      cases o with
      | success => exact ⟨0, by omega, .finished fun p h => by cases h⟩
      | error errorType description =>
        by_cases hrefused : errorType = some "auth_error"
        · have hturn : (turn (Outcome.error errorType description).reply s).1 =
              .refused (Greeter.description _ _) := if_pos hrefused
          rw [hturn]
          exact ⟨2, by omega, .refused⟩
        · have hturn : (turn (Outcome.error errorType description).reply s).1 =
              .raises (Greeter.description _ _) := if_neg hrefused
          rw [hturn]
          exact ⟨0, by omega, .finished fun p h => by cases h⟩
  | refused =>
    cases hstep with
    | other r _ => exact ⟨1, by omega, .dropped⟩
  | dropped =>
    cases hstep with
    | drops => exact ⟨0, by omega, .finished fun p h => by cases h⟩
  | finished hlast =>
    cases hstep with
    | answer _ _ _ => exact absurd rfl (hlast _)

theorem acceptable_ann : Acceptable (.createSession "ann") := by
  refine ⟨?_, ?_⟩
  · decide
  · decide

theorem acceptable_none : Acceptable (.postAuthMessageResponse none) := ⟨by decide, rfl⟩

theorem Phase.goes {n : ℕ} {d : Duo} (h : Phase n d) : d.Over ∨ ∃ e, Step d e := by
  cases h with
  | fresh hidle _ => exact Or.inr ⟨_, .begin "ann" hidle acceptable_ann⟩
  | @asked s q ls o hq _ =>
    cases ls with
    | nil => exact Or.inr ⟨_, .ends hq⟩
    | cons l ls => exact Or.inr ⟨_, .tells hq⟩
  | told _ _ => exact Or.inr ⟨_, .hears⟩
  | prompted hasking _ => exact Or.inr ⟨_, .answer none hasking acceptable_none⟩
  | ended => exact Or.inr ⟨_, .hears⟩
  | refused => exact Or.inr ⟨_, .other {} (Or.inr ⟨rfl, rfl⟩)⟩
  | dropped => exact Or.inr ⟨_, .drops⟩
  | finished hlast => exact Or.inl ⟨_, rfl, hlast⟩

theorem Phase.owed {n : ℕ} {d : Duo} (h : Phase n d) (hwaits : d.Waits) : d.Owed := by
  cases h with
  | fresh _ _ => exact absurd hwaits (by simp [Duo.Waits])
  | asked _ _ => exact Or.inr (List.cons_ne_nil _ _)
  | told _ _ => exact Or.inl (List.cons_ne_nil _ _)
  | prompted _ _ => exact absurd hwaits (by simp [Duo.Waits])
  | ended => exact Or.inl (List.cons_ne_nil _ _)
  | refused => exact Or.inr (List.cons_ne_nil _ _)
  | dropped => exact Or.inl (List.cons_ne_nil _ _)
  | finished _ => exact absurd hwaits (by simp [Duo.Waits])

theorem phase_of_reach {c : Pam} (hc : ∀ l ∈ c.lines, l.IsPrompt) {d : Duo}
    (h : Relation.ReflTransGen Step c.start d) : ∃ n, Phase n d := by
  induction h with
  | refl => exact ⟨_, .fresh rfl hc⟩
  | tail _ hstep ih =>
    obtain ⟨n, hn⟩ := ih
    obtain ⟨m, -, hm⟩ := hn.step hstep
    exact ⟨m, hm⟩

/-! ## Conversations with a notice -/

/-- Up to its first notice a conversation goes on, and there the two wait for each other. -/
theorem stuck_of_notice {o : Outcome} (l : Line) (hl : ¬ l.IsPrompt) (rest : List Line)
    (ls : List Line) (hls : ∀ l ∈ ls, l.IsPrompt) : ∀ (s : Session) (q : Request), q.asks = true →
    ∃ s', Relation.ReflTransGen Step ⟨s, .waiting, [q], [], ls ++ l :: rest, some o⟩
      ⟨s', .waiting, [], [], rest, some o⟩ := by
  induction ls with
  | nil =>
    intro s q hq
    have hhears : Step ⟨s, .waiting, [], [l.reply], rest, some o⟩ _ := .hears
    rw [turn_notice hl] at hhears
    exact ⟨_, .tail (.single (.tells hq)) hhears⟩
  | cons l' ls ih =>
    intro s q hq
    obtain ⟨hl', hls⟩ := List.forall_mem_cons.1 hls
    have hhears : Step ⟨s, .waiting, [], [l'.reply], ls ++ l :: rest, some o⟩ _ := .hears
    obtain ⟨p, hturn, hasking⟩ := turn_prompt hl' s
    rw [hturn] at hhears
    obtain ⟨s', hrun⟩ := ih hls { (turn l'.reply s).2 with prompt := none }
      (.postAuthMessageResponse none) rfl
    refine ⟨s', .head (.tells hq) (.head hhears (.head ?_ hrun))⟩
    exact .answer none hasking acceptable_none

theorem not_settles {c : Pam} {ls rest : List Line} {l : Line} (hlines : c.lines = ls ++ l :: rest)
    (hls : ∀ l ∈ ls, l.IsPrompt) (hl : ¬ l.IsPrompt) : ¬ c.Settles := by
  intro h
  obtain ⟨s, hrun⟩ := stuck_of_notice (o := c.outcome) l hl rest ls hls { username := "ann" }
    (.createSession "ann") rfl
  rw [← hlines] at hrun
  have hbegin : Step c.start ⟨{ username := "ann" }, .waiting, [.createSession "ann"], [], c.lines,
      some c.outcome⟩ := .begin "ann" rfl acceptable_ann
  have hreach := hrun.head hbegin
  rcases (h _ hreach).1 (Or.inl rfl) with h | h
  · exact h rfl
  · exact h rfl

/-- **Where greeter and greetd never wait for each other**: in the conversations all of whose lines
are prompts. -/
theorem settles_iff (c : Pam) : c.Settles ↔ ∀ l ∈ c.lines, l.IsPrompt := by
  constructor
  · intro h
    by_contra hnotice
    have hne : c.lines.dropWhile (fun l => decide l.IsPrompt) ≠ [] := by
      rw [Ne, List.dropWhile_eq_nil_iff]
      simpa using hnotice
    obtain ⟨l, rest, hdrop⟩ := List.exists_cons_of_ne_nil hne
    have hl : ¬ l.IsPrompt := by
      have hhead := List.head?_dropWhile_not (fun l : Line => decide l.IsPrompt) c.lines
      rw [hdrop] at hhead
      simpa using hhead
    have hlines : c.lines = c.lines.takeWhile (fun l => decide l.IsPrompt) ++ l :: rest := by
      rw [← hdrop, List.takeWhile_append_dropWhile]
    refine not_settles hlines (fun l hl => ?_) hl h
    exact of_decide_eq_true (List.mem_takeWhile_imp (p := fun l : Line => decide l.IsPrompt) hl)
  · intro hc d hd
    obtain ⟨n, hn⟩ := phase_of_reach hc hd
    exact ⟨hn.owed, ends_of_countdown (fun _ _ _ h => h.step) (fun _ _ h => h.goes) n d hn⟩

/-- After one line of information both parties wait. -/
theorem info_unsettled :
    ¬ Pam.Settles ⟨[⟨.info, "Your password will expire in 3 days."⟩], .success⟩ :=
  @not_settles ⟨[_], _⟩ [] [] _ rfl (by simp) (by decide)

end Aurade.Greeter
