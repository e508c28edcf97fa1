import Aurade.Foundations.History
import Aurade.Foundations.Text
import Aurade.Vm.Release

/-!
# Downloading an ISO and checking it

`Client.Fetch` of `aurade-vm`, over the files of the base folder. Every request, read and write is
answered by the surroundings, and each may be the last thing the program does. Between runs others
may change the folder.

A stamp is taken for granted, without a look at the ISO. What is known without one is that the file
at the path has just been checked (`fetch_wp`). `Kept` is the invariant between runs that nobody
disturbs: beside every stamp there is an ISO that a run has checked.
-/

namespace Aurade.Vm.Fetch

open Release

/-! ## Paths -/

/-- A cleaned path from the root, the last name first. -/
abbrev Path := List Bytes

/-- A name put after a path, as `filepath.Clean` does. -/
def push (path : Path) (name : Bytes) : Path :=
  if name = [] ∨ name = text "." then path
  else if name = text ".." then path.tail else name :: path

/-- `filepath.Join`, of a folder and a name that may have slashes in it. -/
def join (dir : Path) (name : Bytes) : Path := (name.splitOn 47).foldl push dir

/-- The path with another last name. -/
def beside (f : Bytes → Bytes) : Path → Path
  | [] => []
  | name :: up => f name :: up

/-- Where the ISO of a tag is put. -/
def isoPath (dir : Path) (tag : Bytes) : Path := join dir (isoName tag)

/-! ## The calls -/

inductive Call
  | readStamp | getSum (tag : Bytes)
  | statPart | getISO (tag : Bytes) (offset : ℕ) | openPart | write | hash | removePart
  | rename | getSig (tag : Bytes) | getKey (tag : Bytes)
  | verify | removeISO | writeStamp
  deriving DecidableEq

inductive Answer
  | done
  | failed
  /-- A write that fails with so much written. -/
  | cut (n : ℕ)
  /-- The program is stopped before the call. -/
  | killed
  /-- The program is stopped in a write, with so much written. -/
  | torn (n : ℕ)
  /-- A body with the status 200. -/
  | got (body : Bytes)
  /-- The answer to the request for the ISO: its status, what is read of it, and whether it ends. -/
  | response (status : ℕ) (chunks : List Bytes) (whole : Bool)
  deriving DecidableEq

/-- How a run fails. -/
inductive Fault
  | killed
  | sum | malformed
  | request | status | openPart | write | interrupted
  | hash | mismatch | rename | untrusted | signature
  deriving DecidableEq

/-- What `Fetch` says was checked. -/
inductive Verified
  /-- What the stamp says. -/
  | recorded (stamp : Bytes)
  | signature
  deriving DecidableEq

/-- The files. -/
abbrev Files := Path → Option Bytes

abbrev Job := Act (Recorded Call Answer Files) Fault

/-- The program is stopped at the call. -/
def Answer.stops : Answer → Bool
  | .killed | .torn _ => true
  | _ => false

/-- How much of the bytes a write leaves. -/
def Answer.leaves (a : Answer) (bs : Bytes) : Option Bytes :=
  match a with
  | .done => some bs
  | .cut n | .torn n => some (bs.take n)
  | _ => none

/-- The first of `strings.Fields`, from where it begins. -/
def field : Bytes → Bytes
  | [] => []
  | b :: bs => if spaces.any (·.isPrefixOf (b :: bs)) then [] else b :: field bs

/-- The first of `strings.Fields`, or nothing. -/
def firstField (bs : Bytes) : Bytes := field (trimStart bs)

section Program

variable (env : Surroundings Call Answer)

def call (c : Call) : Job Answer := do
  let a ← Act.ask env c
  if a.stops then Act.fail .killed else pure a

/-- Put a file there, or take it away. -/
def set (p : Path) (content : Option Bytes) : Job Unit :=
  Act.assign fun files => Function.update files p content

/-- `small`: at most 1 MiB of the body. -/
def small (c : Call) : Job (Option Bytes) := do
  match ← call env c with
  | .got body => pure (some (body.take (2 ^ 20)))
  | _ => pure none

/-! ## The download -/

/-- One turn of the loop that copies the body. -/
def write (part : Path) (chunk : Bytes) : Job Unit := do
  let a ← Act.ask env .write
  let files ← Act.vars
  set part (some ((files part).getD [] ++ (a.leaves chunk).getD []))
  if a = .done then pure () else Act.fail (if a.stops then .killed else .write)

def copy (part : Path) : List Bytes → Job Unit
  | [] => pure ()
  | chunk :: rest => do
    write env part chunk
    copy part rest

/-- What follows the request: the body is put after what is there, or in its place. -/
def receive (part : Path) (resumed : Bool) (chunks : List Bytes) (whole : Bool) : Job Unit := do
  let a ← call env .openPart
  if a = .failed then Act.fail .openPart else do
    let files ← Act.vars
    set part (some (if resumed then (files part).getD [] else []))
    copy env part chunks
    if whole then pure () else Act.fail .interrupted

def download (tag : Bytes) (part : Path) : Job Unit := do
  let files ← Act.vars
  let st ← call env .statPart
  let held := if st = .failed then 0 else ((files part).getD []).length
  match ← call env (.getISO tag held) with
  | .response 206 chunks whole => receive env part true chunks whole
  | .response 200 chunks whole => receive env part false chunks whole
  | .response 416 _ _ => pure ()  -- already complete; the checksum decides
  | .response _ _ _ => Act.fail .status
  | _ => Act.fail .request

/-! ## The checks -/

-- `sha256File` of the bytes, in hexadecimal; `VerifySignature` of bytes, signature and key;
-- `strings.ToLower`
variable (sha : Bytes → Bytes) (signed : Bytes → Bytes → Bytes → Bool) (lower : Bytes → Bytes)

/-- `sha256File`, of what is there. -/
def sha256File (part : Path) : Job Bytes := do
  let files ← Act.vars
  let a ← call env .hash
  match files part with
  | none => Act.fail .hash
  | some content => if a = .failed then Act.fail .hash else pure content

/-- `os.Remove`, its failure ignored. -/
def remove (c : Call) (p : Path) : Job Unit := do
  let a ← call env c
  if a = .failed then pure () else set p none

/-- `os.Rename`. -/
def rename (part iso : Path) : Job Unit := do
  let files ← Act.vars
  let a ← call env .rename
  if a = .failed then Act.fail .rename else do
    set iso (files part)
    set part none

/-- The download compared with its published sum, then put in its place. -/
def settle (sum : Bytes) (part iso : Path) : Job Unit := do
  let content ← sha256File env part
  if sha content ≠ lower (firstField sum) then do
    remove env .removePart part
    Act.fail .mismatch
  else rename env part iso

/-- `os.WriteFile` of the stamp, its failure ignored. -/
def stamp (iso : Path) : Job Unit := do
  let a ← Act.ask env .writeStamp
  let files ← Act.vars
  set (beside checked iso) ((a.leaves (text "sha256+signature\n")).or (files (beside checked iso)))
  if a.stops then Act.fail .killed else pure ()

/-- The signature checked, and the stamp written. -/
def certify (sig key : Bytes) (iso : Path) : Job Unit := do
  let files ← Act.vars
  let a ← call env .verify
  if a ≠ .failed ∧ (files iso).any (signed · sig key) then stamp env iso else do
    remove env .removeISO iso
    Act.fail .signature

/-- The stamp's content, where it can be read. -/
def readStamp (iso : Path) : Job (Option Bytes) := do
  let files ← Act.vars
  let a ← call env .readStamp
  pure (if a = .failed then none else files (beside checked iso))

/-- `Fetch` where there is no stamp to go by. -/
def obtainChecked (tag : Bytes) (iso : Path) : Job Unit := do
  match ← small env (.getSum tag) with
  | none => Act.fail .sum
  | some sum =>
    if (firstField sum).length ≠ 64 then Act.fail .malformed else do
      download env tag (beside part iso)
      settle env sha lower sum (beside part iso) iso
      let sig ← small env (.getSig tag)
      let key ← small env (.getKey tag)
      match sig, key with
      | some sig, some key => certify env signed sig key iso
      | _, _ => Act.fail .untrusted

/-- `Fetch`. -/
def fetch (dir : Path) (tag : Bytes) : Job (Path × Verified) := do
  let iso := isoPath dir tag
  match ← readStamp env iso with
  | some b => pure (iso, .recorded (trimBytes b))
  | none => do
    obtainChecked env sha signed lower tag iso
    pure (iso, .signature)

end Program

/-! ## Which files a step touches -/

abbrev State := Recorded Call Answer Files

variable {env : Surroundings Call Answer} {S : Path → Prop} {α β : Type}

/-- Calls are made, and only files of `S` are touched. -/
def Off (S : Path → Prop) (s s' : State) : Prop :=
  s.history <+: s'.history ∧ ∀ q, ¬ S q → s'.vars q = s.vars q

theorem Off.refl (s : State) : Off S s s := ⟨List.prefix_rfl, fun _ _ => rfl⟩

theorem Off.trans {a b c : State} (h : Off S a b) (h' : Off S b c) : Off S a c :=
  ⟨h.1.trans h'.1, fun q hq => (h'.2 q hq).trans (h.2 q hq)⟩

theorem Off.mono {T : Path → Prop} {s s' : State} (h : Off S s s') (hST : ∀ q, S q → T q) :
    Off T s s' := ⟨h.1, fun q hq => h.2 q fun hS => hq (hST q hS)⟩

/-- However it ends, `m` touches only files of `S`. -/
abbrev Touches (S : Path → Prop) (m : Job α) : Prop := Act.Stays (Off S) m

theorem touches_bind {m : Job α} {f : α → Job β} (hm : Touches S m) (hf : ∀ a, Touches S (f a)) :
    Touches S (m >>= f) := Act.Stays.bind (R := Off S) (fun _ _ _ => Off.trans) hm hf

theorem touches_pure (a : α) : Touches S (pure a : Job α) := Act.Stays.pure Off.refl a

theorem touches_fail (e : Fault) : Touches S (Act.fail e : Job α) := Act.Stays.fail Off.refl e

theorem touches_vars : Touches S (Act.vars : Job Files) := Off.refl

theorem touches_ask (c : Call) : Touches S (Act.ask env c : Job Answer) := fun _ =>
  ⟨List.prefix_append _ _, fun _ _ => rfl⟩

theorem touches_call (c : Call) : Touches S (call env c) :=
  touches_bind (touches_ask c) fun _ => Act.Stays.ite (fun _ => touches_fail _) fun _ => touches_pure _

theorem touches_set {p : Path} (hp : S p) (content : Option Bytes) : Touches S (set p content) :=
  fun _ => ⟨List.prefix_rfl, fun q hq => Function.update_of_ne (fun h : q = p => hq (h ▸ hp)) _ _⟩

theorem touches_small (c : Call) : Touches S (small env c) :=
  touches_bind (touches_call c) fun a => by cases a <;> exact touches_pure _

theorem touches_write {p : Path} (hp : S p) (chunk : Bytes) : Touches S (write env p chunk) :=
  touches_bind (touches_ask _) fun _ => touches_bind touches_vars fun _ =>
    touches_bind (touches_set hp _) fun _ =>
      Act.Stays.ite (fun _ => touches_pure _) fun _ => touches_fail _

theorem touches_copy {p : Path} (hp : S p) (chunks : List Bytes) : Touches S (copy env p chunks) := by
  induction chunks with
  | nil => exact touches_pure _
  | cons chunk rest ih => exact touches_bind (touches_write hp chunk) fun _ => ih

theorem touches_receive {p : Path} (hp : S p) (resumed : Bool) (chunks : List Bytes)
    (whole : Bool) : Touches S (receive env p resumed chunks whole) := by
  refine touches_bind (touches_call _) fun a => Act.Stays.ite (fun _ => touches_fail _) fun _ => ?_
  refine touches_bind touches_vars fun files => touches_bind (touches_set hp _) fun _ => ?_
  refine touches_bind (touches_copy hp chunks) fun _ => ?_
  exact Act.Stays.ite (fun _ => touches_pure _) fun _ => touches_fail _

theorem touches_download {p : Path} (hp : S p) (tag : Bytes) : Touches S (download env tag p) := by
  refine touches_bind touches_vars fun files => touches_bind (touches_call _) fun st => ?_
  refine touches_bind (touches_call _) fun a => ?_
  split
  · exact touches_receive hp _ _ _
  · exact touches_receive hp _ _ _
  · exact touches_pure _
  · exact touches_fail _
  · exact touches_fail _

theorem touches_remove {p : Path} (hp : S p) (c : Call) : Touches S (remove env c p) :=
  touches_bind (touches_call c) fun _ =>
    Act.Stays.ite (fun _ => touches_pure _) fun _ => touches_set hp none

/-! ## What has been checked -/

/-- A body the server sent, after the first `n` calls. -/
def Served (n : ℕ) (h : List (Call × Answer)) (c : Call) (body : Bytes) : Prop :=
  ∃ i full, n ≤ i ∧ h[i]? = some (c, .got full) ∧ body = full.take (2 ^ 20)

theorem Served.mono {n m : ℕ} {h h' : List (Call × Answer)} {c : Call} {body : Bytes}
    (hs : Served n h c body) (hm : m ≤ n) (hh : h <+: h') : Served m h' c body := by
  obtain ⟨i, full, hi, hget, hbody⟩ := hs
  obtain ⟨rest, rfl⟩ := hh
  have hlt := (List.getElem?_eq_some_iff.1 hget).1
  exact ⟨i, full, hm.trans hi, by rwa [List.getElem?_append_left hlt], hbody⟩

variable (sha : Bytes → Bytes) (signed : Bytes → Bytes → Bytes → Bool) (lower : Bytes → Bytes)

/-- The content has the published sum and a good signature, after the first `n` calls. -/
structure Checked (n : ℕ) (h : List (Call × Answer)) (tag content sum sig key : Bytes) : Prop where
  sum_served : Served n h (.getSum tag) sum
  sig_served : Served n h (.getSig tag) sig
  key_served : Served n h (.getKey tag) key
  matched : sha content = lower (firstField sum)
  good : signed content sig key = true

/-- The state with a call noted. -/
def noted (env : Surroundings Call Answer) (c : Call) (s : State) : State :=
  { s with history := s.history ++ [(c, env s.history c)] }

theorem off_noted (c : Call) (s : State) : Off S s (noted env c s) :=
  ⟨List.prefix_append _ _, fun _ _ => rfl⟩

theorem call_wp {c : Call} {Q : Answer → State → Prop} {E : Fault → State → Prop} {s : State}
    (hE : E .killed (noted env c s)) (hQ : ∀ a, env s.history c = a → Q a (noted env c s)) :
    Act.wp (call env c) Q E s := by
  rw [call, Act.wp_bind, Act.wp_ask, Act.wp_ite]
  exact ⟨fun _ => hE, fun _ => hQ _ rfl⟩

theorem wp_vars {Q : Files → State → Prop} {E : Fault → State → Prop} {s : State} :
    Act.wp (Act.vars : Job Files) Q E s ↔ Q s.vars s := Iff.rfl

theorem small_wp (c : Call) (s : State) : Act.wp (small env c)
    (fun r s' => Off S s s' ∧ ∀ body, r = some body → Served s.history.length s'.history c body)
    (fun _ s' => Off S s s') s := by
  rw [small, Act.wp_bind]
  refine call_wp (off_noted c s) fun a ha => ?_
  cases a with
  | got full =>
    refine ⟨off_noted c s, fun body hbody => ⟨s.history.length, full, le_rfl, ?_, ?_⟩⟩
    · rw [noted, ha, List.getElem?_concat_length]
    · exact (Option.some.inj hbody).symm
  | _ => exact ⟨off_noted c s, fun _ h => by cases h⟩

theorem sha256File_wp (part : Path) (s : State) : Act.wp (sha256File env part)
    (fun content s' => Off S s s' ∧ s'.vars part = some content) (fun _ s' => Off S s s') s := by
  rw [sha256File, Act.wp_bind, wp_vars, Act.wp_bind]
  refine call_wp (off_noted _ s) fun a _ => ?_
  cases hpart : s.vars part with
  | none => exact off_noted _ s
  | some content =>
    rw [Act.wp_ite]
    exact ⟨fun _ => off_noted _ s, fun _ => ⟨off_noted _ s, hpart⟩⟩

theorem rename_wp {part iso : Path} (hne : part ≠ iso) (hpart : S part) (hiso : S iso) (s : State) :
    Act.wp (rename env part iso) (fun _ s' => Off S s s' ∧ s'.vars iso = s.vars part)
      (fun _ s' => Off S s s') s := by
  rw [rename, Act.wp_bind, wp_vars, Act.wp_bind]
  refine call_wp (off_noted _ s) fun a _ => ?_
  rw [Act.wp_ite]
  refine ⟨fun _ => off_noted _ s, fun _ => ?_⟩
  have hboth : Touches S (set iso (s.vars part) >>= fun _ => set part none) :=
    touches_bind (touches_set hiso _) fun _ => touches_set hpart none
  refine ⟨(off_noted .rename s).trans (hboth _), ?_⟩
  exact (Function.update_of_ne hne.symm _ _).trans (Function.update_self _ _ _)

theorem settle_wp {part iso : Path} (hne : part ≠ iso) (hpart : S part) (hiso : S iso)
    (sum : Bytes) (s : State) : Act.wp (settle env sha lower sum part iso)
      (fun _ s' => Off S s s' ∧ ∃ content, s'.vars iso = some content ∧
        sha content = lower (firstField sum))
      (fun _ s' => Off S s s') s := by
  rw [settle, Act.wp_bind]
  refine Act.wp_mono (sha256File_wp (S := S) part s) (fun content t h => ?_) (fun _ _ h => h)
  rw [Act.wp_ite]
  refine ⟨fun _ => ?_, fun hsum => ?_⟩
  · rw [Act.wp_bind]
    exact Act.wp_mono ((touches_remove hpart _).wp t) (fun _ _ h' => h.1.trans h')
      (fun _ _ h' => h.1.trans h')
  · refine Act.wp_mono (rename_wp hne hpart hiso t) (fun _ t' h' => ?_)
      (fun _ _ h' => h.1.trans h')
    exact ⟨h.1.trans h'.1, content, h'.2.trans h.2, not_not.1 hsum⟩

/-- The path of the ISO's stamp. -/
abbrev stampPath (iso : Path) : Path := beside checked iso

/-- The stamp is written after the check: until then it is not touched. -/
theorem certify_wp {iso : Path} (hiso : S iso) (sig key content : Bytes)
    (s : State) (hcontent : s.vars iso = some content) : Act.wp (certify env signed sig key iso)
      (fun _ s' => signed content sig key = true ∧ Off (· = stampPath iso) s s')
      (fun _ s' => Off S s s' ∨ signed content sig key = true ∧ Off (· = stampPath iso) s s') s := by
  rw [certify, Act.wp_bind, wp_vars, Act.wp_bind]
  refine call_wp (.inl (off_noted _ s)) fun a _ => ?_
  rw [Act.wp_ite, hcontent]
  refine ⟨fun h => ?_, fun _ => ?_⟩
  · have hgood : signed content sig key = true := h.2
    have hstamp : Touches (· = stampPath iso) (stamp env iso) :=
      touches_bind (touches_ask _) fun _ => touches_bind touches_vars fun _ =>
        touches_bind (touches_set (S := (· = stampPath iso)) rfl _) fun _ =>
          Act.Stays.ite (fun _ => touches_fail _) fun _ => touches_pure _
    have htrans : ∀ t, Off (· = stampPath iso) (noted env .verify s) t →
        Off (· = stampPath iso) s t := fun t => (off_noted _ s).trans
    exact Act.wp_mono (hstamp.wp _) (fun _ t h => ⟨hgood, htrans t h⟩)
      (fun _ t h => .inr ⟨hgood, htrans t h⟩)
  · rw [Act.wp_bind]
    have hoff : ∀ t, Off S (noted env .verify s) t → Off S s t := fun t =>
      (off_noted _ s).trans
    exact Act.wp_mono ((touches_remove hiso _).wp _) (fun _ t h => .inl (hoff t h))
      (fun _ t h => .inl (hoff t h))

/-- The ISO there is one that was checked, after the first `n` calls. -/
def Attested (n : ℕ) (tag : Bytes) (iso : Path) (s : State) : Prop :=
  ∃ content sum sig key, s.vars iso = some content ∧
    Checked sha signed lower n s.history tag content sum sig key

variable {sha signed lower} in
theorem Attested.mono {n m : ℕ} {tag : Bytes} {iso : Path} {s s' : State}
    (h : Attested sha signed lower n tag iso s) (hm : m ≤ n) (hh : s.history <+: s'.history)
    (hiso : s'.vars iso = s.vars iso) : Attested sha signed lower m tag iso s' := by
  obtain ⟨content, sum, sig, key, hcontent, hchecked⟩ := h
  exact ⟨content, sum, sig, key, hiso.trans hcontent, {
    sum_served := hchecked.sum_served.mono hm hh
    sig_served := hchecked.sig_served.mono hm hh
    key_served := hchecked.key_served.mono hm hh
    matched := hchecked.matched
    good := hchecked.good }⟩

/-- The files of a download. -/
def Own (iso : Path) : Path → Prop := fun q => q = iso ∨ q = beside part iso

/-- The ISO's path, its stamp and its download are three. -/
structure Apart (iso : Path) : Prop where
  part_ne : beside part iso ≠ iso
  stamp_ne : stampPath iso ≠ iso
  stamp_ne_part : stampPath iso ≠ beside part iso

/-- **Where it returns, the ISO has been checked;** where it fails, there is no new stamp, or it has
been as well. -/
theorem obtainChecked_wp {iso : Path} (hapart : Apart iso) (tag : Bytes) (s : State) :
    Act.wp (obtainChecked env sha signed lower tag iso)
      (fun _ s' => Off (fun q => Own iso q ∨ q = stampPath iso) s s' ∧
        Attested sha signed lower s.history.length tag iso s')
      (fun _ s' => Off (Own iso) s s' ∨ Off (fun q => Own iso q ∨ q = stampPath iso) s s' ∧
        Attested sha signed lower s.history.length tag iso s') s := by
  have hiso : Own iso iso := .inl rfl
  have hpart : Own iso (beside part iso) := .inr rfl
  rw [obtainChecked, Act.wp_bind]
  refine Act.wp_mono (small_wp (S := Own iso) _ s) (fun sum? t₁ h₁ => ?_) (fun _ _ h => .inl h)
  cases sum? with
  | none => exact .inl h₁.1
  | some sum =>
    have hsum := h₁.2 sum rfl
    rw [Act.wp_ite]
    refine ⟨fun _ => .inl h₁.1, fun _ => ?_⟩
    rw [Act.wp_bind]
    refine Act.wp_mono ((touches_download hpart tag).wp t₁) (fun _ t₂ h₂ => ?_) (fun _ _ h => .inl (h₁.1.trans h))
    have hoff₂ := h₁.1.trans h₂
    rw [Act.wp_bind]
    refine Act.wp_mono (settle_wp sha lower hapart.part_ne hpart hiso sum t₂) (fun _ t₃ h₃ => ?_)
      (fun _ _ h => .inl (hoff₂.trans h))
    obtain ⟨h₃, content, hcontent, hmatch⟩ := h₃
    have hoff₃ := hoff₂.trans h₃
    -- the two requests leave the files alone
    rw [Act.wp_bind]
    refine Act.wp_mono (small_wp (S := fun _ => False) _ t₃) (fun sig? t₄ h₄ => ?_)
      (fun _ _ h => .inl (hoff₃.trans (h.mono fun _ => False.elim)))
    have hoff₄ := hoff₃.trans (h₄.1.mono fun _ => False.elim)
    rw [Act.wp_bind]
    refine Act.wp_mono (small_wp (S := fun _ => False) _ t₄) (fun key? t₅ h₅ => ?_)
      (fun _ _ h => .inl (hoff₄.trans (h.mono fun _ => False.elim)))
    have hoff₅ := hoff₄.trans (h₅.1.mono fun _ => False.elim)
    cases sig? with
    | none => exact .inl hoff₅
    | some sig =>
      cases key? with
      | none => exact .inl hoff₅
      | some key =>
        have hcontent₅ : t₅.vars iso = some content :=
          (h₅.1.2 iso id).trans ((h₄.1.2 iso id).trans hcontent)
        have hattested : ∀ t, signed content sig key = true → Off (· = stampPath iso) t₅ t →
            Off (fun q => Own iso q ∨ q = stampPath iso) s t ∧
              Attested sha signed lower s.history.length tag iso t := fun t hgood hoff => by
          refine ⟨(hoff₅.mono fun _ => .inl).trans (hoff.mono fun _ => .inr), content, sum, sig, key,
            (hoff.2 iso hapart.stamp_ne.symm).trans hcontent₅, ?_⟩
          have hlast : t₄.history <+: t.history := h₅.1.1.trans hoff.1
          have hmid : t₁.history <+: t₄.history := h₂.1.trans (h₃.1.trans h₄.1.1)
          exact {
            sum_served := hsum.mono le_rfl (hmid.trans hlast)
            sig_served := (h₄.2 sig rfl).mono hoff₃.1.length_le hlast
            key_served := (h₅.2 key rfl).mono hoff₄.1.length_le hoff.1
            matched := hmatch
            good := hgood }
        refine Act.wp_mono (certify_wp signed (S := Own iso) hiso sig key content t₅ hcontent₅)
          (fun _ t h => hattested t h.1 h.2) (fun _ t h => ?_)
        obtain h | h := h
        · exact .inl (hoff₅.trans h)
        · exact .inr (hattested t h.1 h.2)

/-! ## Where the files of a tag are -/

theorem exists_splitOn_append {b : Bytes} (h : 47 ∉ b) (a : Bytes) :
    ∃ init l, (a ++ b).splitOn 47 = init ++ [l ++ b] := by
  induction a with
  | nil => exact ⟨[], [], List.splitOn_eq_singleton h⟩
  | cons x a ih =>
    obtain ⟨init, l, hsplit⟩ := ih
    rw [List.cons_append, List.splitOn_cons_eq_if_modifyHead, hsplit]
    split_ifs
    · exact ⟨[] :: init, l, rfl⟩
    · cases init with
      | nil => exact ⟨[], x :: l, rfl⟩
      | cons i init => exact ⟨(x :: i) :: init, l, rfl⟩

/-- A path whose last name is one of an ISO. -/
def IsISO (p : Path) : Prop := ∃ name up, p = name :: up ∧ text "-x86_64.iso" <:+ name

theorem isISO_isoPath (dir : Path) (tag : Bytes) : IsISO (isoPath dir tag) := by
  have hslash : 47 ∉ text "-x86_64.iso" := by decide
  obtain ⟨init, l, hsplit⟩ := exists_splitOn_append hslash (text "aurade-" ++ tag)
  have hlong : 2 < (l ++ text "-x86_64.iso").length := by
    rw [List.length_append]
    exact lt_of_lt_of_le (by decide : 2 < (text "-x86_64.iso").length) (Nat.le_add_left _ _)
  refine ⟨l ++ text "-x86_64.iso", init.foldl push dir, ?_, List.suffix_append _ _⟩
  rw [isoPath, join, isoName, hsplit, List.foldl_append, List.foldl_cons, List.foldl_nil, push,
    if_neg, if_neg]
  · exact fun h => absurd (congrArg List.length h ▸ hlong) (by decide)
  · rintro (h | h) <;> exact absurd (congrArg List.length h ▸ hlong) (by decide)

/-- The last byte of the last name. -/
def lastByte (p : Path) : Option UInt8 := p.head?.bind List.getLast?

theorem IsISO.lastByte {p : Path} (h : IsISO p) : lastByte p = some 111 := by
  obtain ⟨_, up, rfl, l, rfl⟩ := h
  exact List.getLast?_append_of_ne_nil l (by decide : text "-x86_64.iso" ≠ [])

theorem IsISO.lastByte_beside {p : Path} (h : IsISO p) (tail : Bytes) (htail : tail ≠ []) :
    Fetch.lastByte (beside (· ++ tail) p) = tail.getLast? := by
  obtain ⟨name, up, rfl, -⟩ := h
  exact List.getLast?_append_of_ne_nil name htail

theorem lastByte_part {p : Path} (h : IsISO p) : lastByte (beside part p) = some 116 :=
  h.lastByte_beside (text ".part") (by decide)

theorem lastByte_stamp {p : Path} (h : IsISO p) : lastByte (stampPath p) = some 100 :=
  h.lastByte_beside (text ".checked") (by decide)

theorem stampPath_injective {p q : Path} (hp : IsISO p) (hq : IsISO q)
    (h : stampPath p = stampPath q) : p = q := by
  obtain ⟨name, up, rfl, -⟩ := hp
  obtain ⟨name', up', rfl, -⟩ := hq
  obtain ⟨hname, rfl⟩ := List.cons.inj h
  rw [List.append_cancel_right hname]

theorem apart {p : Path} (h : IsISO p) : Apart p where
  part_ne heq := by simpa [lastByte_part h, h.lastByte] using congrArg lastByte heq
  stamp_ne heq := by simpa [lastByte_stamp h, h.lastByte] using congrArg lastByte heq
  stamp_ne_part heq := by
    simpa [lastByte_stamp h, lastByte_part h] using congrArg lastByte heq

/-- Fetching an ISO touches no other ISO and no stamp of one. -/
theorem not_own {p q : Path} (hp : IsISO p) (hq : IsISO q) (hne : p ≠ q) :
    ¬ (Own q p ∨ p = stampPath q) ∧ ¬ (Own q (stampPath p) ∨ stampPath p = stampPath q) := by
  have hlast : ∀ a b : Path, lastByte a ≠ lastByte b → a ≠ b := fun a b h heq => h (heq ▸ rfl)
  constructor
  · rintro ((h | h) | h)
    · exact hne h
    · exact hlast _ _ (by rw [hp.lastByte, lastByte_part hq]; decide) h
    · exact hlast _ _ (by rw [hp.lastByte, lastByte_stamp hq]; decide) h
  · rintro ((h | h) | h)
    · exact hlast _ _ (by rw [lastByte_stamp hp, hq.lastByte]; decide) h
    · exact hlast _ _ (by rw [lastByte_stamp hp, lastByte_part hq]; decide) h
    · exact hne (stampPath_injective hp hq h)

theorem not_own_stamp {p : Path} (hp : IsISO p) : ¬ Own p (stampPath p) := by
  rintro (h | h)
  · exact (apart hp).stamp_ne h
  · exact (apart hp).stamp_ne_part h

/-! ## A run -/

theorem readStamp_wp (iso : Path) (s : State) : Act.wp (readStamp env iso)
    (fun r s' => Off (fun _ => False) s s' ∧ (∀ b, r = some b → s.vars (stampPath iso) = some b) ∧
      (r = none → env s.history .readStamp = .failed ∨ s.vars (stampPath iso) = none))
    (fun _ s' => Off (fun _ => False) s s') s := by
  rw [readStamp, Act.wp_bind, wp_vars, Act.wp_bind]
  refine call_wp (off_noted _ s) fun a ha => ⟨off_noted _ s, fun b h => ?_, fun h => ?_⟩
  · split_ifs at h
    exact h
  · split_ifs at h with hfailed
    · exact .inl (ha.trans hfailed)
    · exact .inr h

/-- What a fetch comes to, however it ends: the files are as they were, or the ISO has been checked,
or it has not been and no stamp was there or could be read. -/
def Outcome (tag : Bytes) (iso : Path) (s s' : State) : Prop :=
  Off (fun _ => False) s s' ∨
  (Off (fun q => Own iso q ∨ q = stampPath iso) s s' ∧
    Attested sha signed lower s.history.length tag iso s') ∨
  (Off (Own iso) s s' ∧
    (env s.history .readStamp = .failed ∨ s.vars (stampPath iso) = none))

theorem fetch_wp (dir : Path) (tag : Bytes) (s : State) :
    Act.wp (fetch env sha signed lower dir tag)
      (fun r s' => r.1 = isoPath dir tag ∧
        ((∃ b, r.2 = .recorded (trimBytes b) ∧ s.vars (stampPath (isoPath dir tag)) = some b ∧
            Off (fun _ => False) s s') ∨
          r.2 = .signature ∧
            Off (fun q => Own (isoPath dir tag) q ∨ q = stampPath (isoPath dir tag)) s s' ∧
            Attested sha signed lower s.history.length tag (isoPath dir tag) s'))
      (fun _ s' => @Outcome env sha signed lower tag (isoPath dir tag) s s') s := by
  rw [fetch, Act.wp_bind]
  refine Act.wp_mono (readStamp_wp _ s) (fun r t h => ?_) (fun _ _ h => .inl h)
  obtain ⟨hoff, hsome, hnone⟩ := h
  cases r with
  | some b => exact ⟨rfl, .inl ⟨b, rfl, hsome b rfl, hoff⟩⟩
  | none =>
    have hattested : ∀ t', Attested sha signed lower t.history.length tag (isoPath dir tag) t' →
        Attested sha signed lower s.history.length tag (isoPath dir tag) t' := fun t' h =>
      h.mono hoff.1.length_le List.prefix_rfl rfl
    rw [Act.wp_bind]
    refine Act.wp_mono (obtainChecked_wp sha signed lower (apart (isISO_isoPath dir tag)) tag t)
      (fun _ t' h' => ⟨rfl, .inr ⟨rfl, ?_, hattested t' h'.2⟩⟩) (fun _ t' h' => ?_)
    · exact (hoff.mono fun _ => False.elim).trans h'.1
    · obtain h' | ⟨hoff', h'⟩ := h'
      · exact .inr (.inr ⟨(hoff.mono fun _ => False.elim).trans h', hnone rfl⟩)
      · exact .inr (.inl ⟨(hoff.mono fun _ => False.elim).trans hoff', hattested t' h'⟩)

/-! ## Runs -/

/-- What happens to the folder. -/
inductive Step
  /-- A run comes to `Fetch`. -/
  | fetch (tag : Bytes)
  /-- Somebody else changes files, between the runs. -/
  | change (f : Files → Files)

variable (env) in
def perform (dir : Path) : Step → State → State
  | .fetch tag, s => (fetch env sha signed lower dir tag s).2
  | .change f, s => { s with vars := f s.vars }

variable (env) in
def runs (dir : Path) : List Step → State → State
  | [], s => s
  | step :: rest, s => runs dir rest (perform env sha signed lower dir step s)

/-- Nobody else puts a stamp there, or touches an ISO that has one. -/
def Innocent (dir : Path) (files files' : Files) : Prop :=
  ∀ tag, files' (stampPath (isoPath dir tag)) ≠ none →
    files (stampPath (isoPath dir tag)) ≠ none ∧ files' (isoPath dir tag) = files (isoPath dir tag)

variable (env) in
/-- Others leave the stamps, and what they are beside, alone. -/
def Undisturbed (dir : Path) : List Step → State → Prop
  | [], _ => True
  | step :: rest, s => (∀ f, step = .change f → Innocent dir s.vars (f s.vars)) ∧
      Undisturbed dir rest (perform env sha signed lower dir step s)

/-- A stamp that is there can be read. -/
def Reads (env : Surroundings Call Answer) : Prop := ∀ h, env h .readStamp ≠ .failed

/-- Beside every stamp there is an ISO that has been checked. -/
def Kept (dir : Path) (s : State) : Prop :=
  ∀ tag, s.vars (stampPath (isoPath dir tag)) ≠ none →
    ∃ tag', isoPath dir tag' = isoPath dir tag ∧
      Attested sha signed lower 0 tag' (isoPath dir tag) s

variable {sha signed lower}

theorem Kept.off {dir : Path} {s s' : State} (h : Kept sha signed lower dir s)
    (hh : s.history <+: s'.history) {tag : Bytes}
    (hstamp : s'.vars (stampPath (isoPath dir tag)) = s.vars (stampPath (isoPath dir tag)))
    (hiso : s'.vars (isoPath dir tag) = s.vars (isoPath dir tag))
    (hthere : s'.vars (stampPath (isoPath dir tag)) ≠ none) :
    ∃ tag', isoPath dir tag' = isoPath dir tag ∧
      Attested sha signed lower 0 tag' (isoPath dir tag) s' := by
  obtain ⟨tag', htag, hatt⟩ := h tag (hstamp ▸ hthere)
  exact ⟨tag', htag, hatt.mono le_rfl hh hiso⟩

/-- A fetch that reads the stamps that are there keeps the invariant. -/
theorem Outcome.kept (hreads : Reads env) {dir : Path} {tag : Bytes} {s s' : State}
    (h : @Outcome env sha signed lower tag (isoPath dir tag) s s')
    (hkept : Kept sha signed lower dir s) : Kept sha signed lower dir s' := by
  have hq := isISO_isoPath dir tag
  intro other hthere
  have hp := isISO_isoPath dir other
  obtain h | ⟨hoff, hatt⟩ | ⟨hoff, hnone⟩ := h
  · exact hkept.off h.1 (h.2 _ id) (h.2 _ id) hthere
  · by_cases heq : isoPath dir other = isoPath dir tag
    · exact ⟨tag, heq.symm, heq ▸ hatt.mono (Nat.zero_le _) List.prefix_rfl rfl⟩
    · obtain ⟨hiso, hstamp⟩ := not_own hp hq heq
      exact hkept.off hoff.1 (hoff.2 _ hstamp) (hoff.2 _ hiso) hthere
  · by_cases heq : isoPath dir other = isoPath dir tag
    · rw [heq] at hthere
      exact absurd ((hoff.2 _ (not_own_stamp hq)).trans (hnone.resolve_left (hreads _))) hthere
    · obtain ⟨hiso, hstamp⟩ := not_own hp hq heq
      exact hkept.off hoff.1 (hoff.2 _ fun h => hstamp (.inl h)) (hoff.2 _ fun h => hiso (.inl h))
        hthere

theorem fetch_outcome (dir : Path) (tag : Bytes) (s : State) :
    @Outcome env sha signed lower tag (isoPath dir tag) s
      (fetch env sha signed lower dir tag s).2 := by
  refine Act.wp_state (Act.wp_mono (fetch_wp sha signed lower dir tag s) ?_ fun _ _ h => h)
  rintro r s' ⟨-, ⟨b, -, -, hoff⟩ | ⟨-, hoff, hatt⟩⟩
  · exact .inl hoff
  · exact .inr (.inl ⟨hoff, hatt⟩)

theorem perform_kept (hreads : Reads env) {dir : Path} {step : Step} {s : State}
    (hstep : ∀ f, step = .change f → Innocent dir s.vars (f s.vars))
    (h : Kept sha signed lower dir s) :
    Kept sha signed lower dir (perform env sha signed lower dir step s) := by
  cases step with
  | fetch tag => exact (fetch_outcome dir tag s).kept hreads h
  | change f =>
    intro tag hthere
    obtain ⟨hstamp, hiso⟩ := hstep f rfl tag hthere
    obtain ⟨tag', htag, hatt⟩ := h tag hstamp
    exact ⟨tag', htag, hatt.mono le_rfl List.prefix_rfl hiso⟩

theorem runs_kept (hreads : Reads env) {dir : Path} {steps : List Step} {s : State}
    (hsteps : Undisturbed env sha signed lower dir steps s) (h : Kept sha signed lower dir s) :
    Kept sha signed lower dir (runs env sha signed lower dir steps s) := by
  induction steps generalizing s with
  | nil => exact h
  | cons step rest ih => exact ih hsteps.2 (perform_kept hreads hsteps.1 h)

/-- **What a fetch gives has been checked:** by the run itself, or by the run that wrote the stamp,
where nobody disturbed what stands beside a stamp. A stamp stands only beside what was checked, and
no release with numbers as long as those of `newestISO` is newer. -/
theorem fetched_checked (env : Surroundings Call Answer) (sha : Bytes → Bytes)
    (signed : Bytes → Bytes → Bytes → Bool) (lower : Bytes → Bytes) (dir : Path) :
    (∀ (s t : State) (tag : Bytes) (p : Path) (v : Verified),
      fetch env sha signed lower dir tag s = (.ok (p, v), t) →
        p = isoPath dir tag ∧
        (v = .signature ∧ Attested sha signed lower s.history.length tag p t ∨
          ∃ b, v = .recorded (trimBytes b) ∧ s.vars (stampPath p) = some b)) ∧
    (∀ (steps : List Step) (s t t' : State) (tag : Bytes) (p : Path) (v : Verified),
      (∀ other, s.vars (stampPath (isoPath dir other)) = none) → Reads env →
      Undisturbed env sha signed lower dir steps s →
      runs env sha signed lower dir steps s = t →
        Kept sha signed lower dir t ∧
        (fetch env sha signed lower dir tag t = (.ok (p, v), t') →
          ∃ tag', isoPath dir tag' = p ∧ Attested sha signed lower 0 tag' p t')) ∧
    (∀ (names : List Bytes) (a b c a' b' c' : Bytes), Digits a → Digits b → Digits c →
      Digits a' → Digits b' → Digits c' → a.length = a'.length → b.length = b'.length →
      c.length = c'.length → isoName (tag a' b' c') ∈ names →
      newestISO names = some (isoName (tag a b c)) →
        newer (tag a' b' c') (tag a b c) = false) := by
  refine ⟨fun s t tag p v hrun => ?_, fun steps s t t' tag p v hnone hreads hsteps ht => ?_,
    fun names a b c a' b' c' ha hb hc ha' hb' hc' hla hlb hlc hmem hnewest =>
      newer_newestISO ha hb hc ha' hb' hc' hla hlb hlc hmem hnewest⟩
  · obtain ⟨hp, h⟩ := Act.wp_ok (fetch_wp sha signed lower dir tag s) hrun
    obtain rfl : p = isoPath dir tag := hp
    obtain ⟨b, hv, hb, -⟩ | ⟨hv, -, hatt⟩ := h
    · exact ⟨rfl, .inr ⟨b, hv, hb⟩⟩
    · exact ⟨rfl, .inl ⟨hv, hatt⟩⟩
  · have hkept : Kept sha signed lower dir t :=
      ht ▸ runs_kept hreads hsteps fun other hthere => absurd (hnone other) hthere
    refine ⟨hkept, fun hrun => ?_⟩
    obtain ⟨hp, h⟩ := Act.wp_ok (fetch_wp sha signed lower dir tag t) hrun
    obtain rfl : p = isoPath dir tag := hp
    obtain ⟨b, -, hb, hoff⟩ | ⟨-, -, hatt⟩ := h
    · exact hkept.off hoff.1 (hoff.2 _ id) (hoff.2 _ id)
        (by rw [hoff.2 _ id, hb]; exact Option.some_ne_none b)
    · exact ⟨tag, rfl, hatt.mono (Nat.zero_le _) List.prefix_rfl rfl⟩

/-- A server with one release, and a system that refuses nothing. -/
def plainServer : Surroundings Call Answer := fun _ c =>
  match c with
  | .getSum _ => .got (List.replicate 64 48)
  | .getISO _ _ => .response 200 [[1, 2, 3]] true
  | .getSig _ | .getKey _ => .got []
  | _ => .done

/-- A sum with one value. -/
def zeros : Bytes → Bytes := fun _ => List.replicate 64 48

/-- An empty folder. -/
def fresh : State := ⟨[], fun _ => none⟩

/-- A stamp, and no ISO. -/
def stampOnly : State := ⟨[], fun p =>
  if p = stampPath (isoPath [text "vms"] (text "v1.0.0")) then some [] else none⟩

/-- A first fetch, and a second that finds the stamp. -/
theorem fetched_checked_twice :
    Attested zeros (fun _ _ _ => true) id 0 (text "v1.0.0") (isoPath [text "vms"] (text "v1.0.0"))
      (fetch plainServer zeros (fun _ _ _ => true) id [text "vms"] (text "v1.0.0")
        fresh).2 ∧
    (∃ tag', isoPath [text "vms"] tag' = isoPath [text "vms"] (text "v1.0.0") ∧
      Attested zeros (fun _ _ _ => true) id 0 tag' (isoPath [text "vms"] (text "v1.0.0"))
        (fetch plainServer zeros (fun _ _ _ => true) id [text "vms"] (text "v1.0.0")
          (runs plainServer zeros (fun _ _ _ => true) id [text "vms"] [.fetch (text "v1.0.0")]
            fresh)).2) ∧
    newer (tag (text "1") (text "0") (text "0")) (tag (text "1") (text "2") (text "0")) = false := by
  have h := fetched_checked plainServer zeros (fun _ _ _ => true) id [text "vms"]
  have hreads : Reads plainServer := fun _ h => (by cases h)
  have hsteps : Undisturbed plainServer zeros (fun _ _ _ => true) id [text "vms"]
      [.fetch (text "v1.0.0")] fresh := ⟨fun f hf => (by cases hf), trivial⟩
  have hfirst : (fetch plainServer zeros (fun _ _ _ => true) id [text "vms"] (text "v1.0.0")
      fresh).1 = .ok (isoPath [text "vms"] (text "v1.0.0"), .signature) := by
    decide
  have hsecond : (fetch plainServer zeros (fun _ _ _ => true) id [text "vms"] (text "v1.0.0")
      (runs plainServer zeros (fun _ _ _ => true) id [text "vms"] [.fetch (text "v1.0.0")]
        fresh)).1 = .ok (isoPath [text "vms"] (text "v1.0.0"),
          .recorded (text "sha256+signature")) := by
    decide
  refine ⟨?_, ?_, ?_⟩
  · obtain ⟨-, ⟨-, hatt⟩ | ⟨b, hb, -⟩⟩ := h.1 _ _ _ _ _ (Prod.ext hfirst rfl)
    · exact hatt
    · cases hb
  · exact (h.2.1 _ _ _ _ _ _ _ (fun _ => rfl) hreads hsteps rfl).2 (Prod.ext hsecond rfl)
  · exact h.2.2 [isoName (tag (text "1") (text "2") (text "0")),
      isoName (tag (text "1") (text "0") (text "0"))] _ _ _ _ _ _ ⟨by decide, by decide⟩
      ⟨by decide, by decide⟩ ⟨by decide, by decide⟩ ⟨by decide, by decide⟩ ⟨by decide, by decide⟩
      ⟨by decide, by decide⟩ rfl rfl rfl (List.mem_cons_of_mem _ List.mem_cons_self)
      (by decide)

/-- The signature cannot be had. -/
def unsignedServer : Surroundings Call Answer := fun h c =>
  match c with
  | .getSig _ => .failed
  | _ => plainServer h c

/-- A stamp is believed although its ISO is gone; an ISO whose signature could not be had is what the
newest is; and the newest is not the highest version. -/
theorem fetched_unchecked :
    ((fetch plainServer zeros (fun _ _ _ => true) id [text "vms"] (text "v1.0.0") stampOnly).1 =
          .ok (isoPath [text "vms"] (text "v1.0.0"), .recorded []) ∧
      (fetch plainServer zeros (fun _ _ _ => true) id [text "vms"] (text "v1.0.0") stampOnly).2.vars
          (isoPath [text "vms"] (text "v1.0.0")) = none) ∧
    ((fetch unsignedServer zeros (fun _ _ _ => false) id [text "vms"] (text "v1.0.0")
        fresh).1 = .error .untrusted ∧
      (fetch unsignedServer zeros (fun _ _ _ => false) id [text "vms"] (text "v1.0.0")
        fresh).2.vars [isoName (text "v1.0.0"), text "vms"] = some [1, 2, 3] ∧
      newestISO [isoName (text "v1.0.0")] = some (isoName (text "v1.0.0"))) ∧
    newestISO [isoName (text "v1.10.0"), isoName (text "v1.9.0")] = some (isoName (text "v1.9.0")) ∧
      newer (text "v1.10.0") (text "v1.9.0") = true := by
  refine ⟨⟨?_, ?_⟩, ⟨?_, ?_, ?_⟩, ?_, ?_⟩ <;> decide

end Aurade.Vm.Fetch
