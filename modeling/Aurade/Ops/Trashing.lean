import Mathlib
import Aurade.Foundations.Crew
import Aurade.Ops.Trash

/-!
# The trash while several connections use it

`trash`, `restore` and `empty` of one trash, call by call of the system: the daemon has a thread for every
connection, and nothing keeps them apart but the names in the trash. A thread is as far as its next call, which
is let through, refused, or leaves a part of its work done.

What lies at a place is moved as a whole and never looked into, so it is of any type. An item in the trash
carries where it was taken from, which nobody reads: it is there to be compared with the record.

A step does one of few things to the trash and to the names that its thread has (`step_effect`). From that, a
name is had by one call at a time (`Sound`), and `recorded_run`: while nobody takes an item that another call is
copying, and `empty` removes only what is there, every item has a record, and the record says where the item was
taken from.
-/

namespace Aurade.Ops.Trash

/-! ## The calls -/

/-- What lies at a place: all of something, or a part of a copy. -/
inductive Thing (α : Type)
  | whole (x : α)
  | part
  deriving DecidableEq

/-- An item of the trash, with the place that it was taken from. -/
structure Item (α : Type) where
  origin : Bytes
  thing : Thing α
  deriving DecidableEq

/-- The trash, and everything outside it by the place. -/
structure Shared (α : Type) where
  info : Bytes → Option Bytes
  files : Bytes → Option (Item α)
  world : Bytes → Option (Thing α)

/-- A request. The path to be trashed is the canonical one; the time is that of the record. -/
inductive Request
  | trash (place : Bytes) (secs : ℤ)
  | restore (name : Bytes)
  | empty

/-- How far a thread has come: what its next call is about. -/
inductive Thread
  | idle
  | returned (ok : Bool)
  /-- the record of the `n`-th name is to be made -/
  | claiming (place : Bytes) (secs : ℤ) (n : ℕ)
  | claimed (place : Bytes) (secs : ℤ) (name : Bytes)
  | recorded (place name : Bytes)
  /-- the rename failed, and the record is to go -/
  | withdrawing (name : Bytes)
  | copying (place name : Bytes)
  | copied (place name : Bytes)
  | reading (name : Bytes)
  | found (name place : Bytes)
  | free (name place : Bytes)
  /-- the rename does not reach, and the item is to be looked up for a copy -/
  | crossing (name place : Bytes)
  | bringing (name place : Bytes)
  | brought (name place : Bytes)
  | restored (name : Bytes)
  | listing (names : List Bytes)
  | emptying (names : List Bytes)
  | unrecording (name : Bytes) (names : List Bytes)
  deriving DecidableEq

/-- What becomes of a call. -/
inductive Answer
  | call (r : Request)
  | go
  /-- refused; a write leaves so many bytes -/
  | refused (wrote : ℕ)
  /-- another file system -/
  | crosses
  /-- a part of it is done -/
  | part
  /-- a lookup is refused, which passes for a no -/
  | unseen
  /-- the name that `read_dir` comes to -/
  | entry (name : Bytes)

/-- The last name of a path. -/
def baseName (path : Bytes) : Option Bytes :=
  match rsplitOnce 47 path with
  | some (_, []) => none
  | some (_, name) => some name
  | none => none

/-- The `n`-th name that an item is tried under. -/
def candidate (place : Bytes) (n : ℕ) : Bytes :=
  let base := Utf8.lossy ((baseName place).getD [])
  if n = 0 then base else base ++ 46 :: decimal n

variable {α : Type}

def begin : Request → Thread
  | .trash place secs => if baseName place = none then .returned false else .claiming place secs 0
  | .restore name =>
    if 47 ∈ name ∨ name = [46, 46] ∨ name = [46] then .returned false else .reading name
  | .empty => .listing []

def Shared.setInfo (s : Shared α) (name : Bytes) (body : Option Bytes) : Shared α :=
  { s with info := Function.update s.info name body }

def Shared.setFile (s : Shared α) (name : Bytes) (item : Option (Item α)) : Shared α :=
  { s with files := Function.update s.files name item }

def Shared.setWorld (s : Shared α) (place : Bytes) (thing : Option (Thing α)) : Shared α :=
  { s with world := Function.update s.world place thing }

/-- The next step of a thread. -/
def step : Answer → Thread → Shared α → Option (Thread × Shared α)
  | .call r, .idle, s | .call r, .returned _, s => some (begin r, s)
  -- `trash`: the record is made where it is not there, and is the lock
  | .go, .claiming place secs n, s =>
    match s.info (candidate place n) with
    | none => some (.claimed place secs (candidate place n), s.setInfo (candidate place n) (some []))
    | some _ => some (if 10000 < n + 1 then .returned false else .claiming place secs (n + 1), s)
  | .refused _, .claiming .., s => some (.returned false, s)
  | .go, .claimed place secs name, s =>
    some (.recorded place name, s.setInfo name (some (record place secs)))
  | .refused wrote, .claimed place secs name, s =>
    some (.returned false, s.setInfo name (some ((record place secs).take wrote)))
  | .go, .recorded place name, s =>
    match s.world place with
    | none => some (.withdrawing name, s)
    | some thing => some (.returned true, (s.setFile name (some ⟨place, thing⟩)).setWorld place none)
  | .crosses, .recorded place name, s => some (.copying place name, s)
  | .refused _, .recorded _ name, s => some (.withdrawing name, s)
  | .go, .withdrawing name, s => some (.returned false, s.setInfo name none)
  | .refused _, .withdrawing _, s => some (.returned false, s)
  -- the copy across file systems
  | .part, .copying place name, s =>
    some (.copying place name, s.setFile name (some ⟨place, .part⟩))
  | .go, .copying place name, s =>
    match s.world place with
    | none => some (.returned false, s)
    | some thing => some (.copied place name, s.setFile name (some ⟨place, thing⟩))
  | .refused _, .copying .., s => some (.returned false, s)
  | .part, .copied place name, s =>
    some (.copied place name, s.setWorld place ((s.world place).map fun _ => .part))
  | .go, .copied place _, s => some (.returned true, s.setWorld place none)
  | .refused _, .copied .., s => some (.returned false, s)
  -- `restore`
  | .go, .reading name, s =>
    match (s.info name).bind Trash.restored with
    | none => some (.returned false, s)
    | some place => some (.found name place, s)
  | .refused _, .reading _, s => some (.returned false, s)
  | .go, .found name place, s =>
    some (if (s.world place).isSome then .returned false else .free name place, s)
  | .unseen, .found name place, s => some (.free name place, s)
  | .refused _, .found .., s => some (.returned false, s)
  | .go, .free name place, s =>
    match s.files name with
    | none => some (.returned false, s)
    | some item => some (.restored name, (s.setFile name none).setWorld place (some item.thing))
  | .crosses, .free name place, s => some (.crossing name place, s)
  | .refused _, .free .., s => some (.returned false, s)
  | .go, .crossing name place, s =>
    some (if (s.files name).isSome then .bringing name place else .returned false, s)
  | .refused _, .crossing .., s => some (.returned false, s)
  | .part, .bringing name place, s => some (.bringing name place, s.setWorld place (some .part))
  | .go, .bringing name place, s =>
    match s.files name with
    | none => some (.returned false, s)
    | some item => some (.brought name place, s.setWorld place (some item.thing))
  | .refused _, .bringing .., s => some (.returned false, s)
  | .part, .brought name place, s =>
    some (.brought name place, s.setFile name ((s.files name).map fun item => { item with thing := .part }))
  | .go, .brought name _, s => some (.restored name, s.setFile name none)
  | .refused _, .brought .., s => some (.returned false, s)
  | .go, .restored name, s => some (.returned true, s.setInfo name none)
  | .refused _, .restored _, s => some (.returned true, s)
  -- `empty`: what `list` finds, and then each of it
  | .entry name, .listing names, s =>
    if name ∉ names ∧ ((s.info name).any Utf8.valid && (s.files name).isSome) then
      some (.listing (names ++ [name]), s)
    else none
  | .go, .listing names, s => some (.emptying names, s)
  | .refused _, .listing _, s => some (.returned false, s)
  | .go, .emptying [], s => some (.returned true, s)
  | .part, .emptying (name :: names), s =>
    some (.emptying (name :: names),
      s.setFile name ((s.files name).map fun item => { item with thing := .part }))
  -- what is not there any more has been removed
  | .go, .emptying (name :: names), s => some (.unrecording name names, s.setFile name none)
  | .refused _, .emptying (_ :: names), s => some (.emptying names, s)
  | .go, .unrecording name names, s => some (.emptying names, s.setInfo name none)
  | .refused _, .unrecording _ names, s => some (.emptying names, s)
  | _, _, _ => none

/-- Something else happens at a place outside the trash. -/
structure Elsewhere (α : Type) where
  place : Bytes
  thing : Option (Thing α)

def Elsewhere.apply (e : Elsewhere α) (s : Shared α) : Shared α := s.setWorld e.place e.thing

/-- The threads, by number. -/
abbrev State (α : Type) := Crew ℕ (Shared α) Thread

abbrev Event (α : Type) := Crew.Event ℕ Answer (Elsewhere α)

def run (es : List (Event α)) (d : State α) : Option (State α) := Crew.run step Elsewhere.apply es d

/-! ## Who has a name -/

namespace Thread

/-- The name a call has while no item is under it. -/
def bare : Thread → Option Bytes
  | .claimed _ _ name | .recorded _ name | .withdrawing name | .restored name | .unrecording name _ => some name
  | _ => none

/-- The name of the item that a call is copying, in or out. -/
def copies : Thread → Option Bytes
  | .copying _ name | .copied _ name | .bringing name _ | .brought name _ => some name
  | _ => none

/-- The record a call has written: the place and the name. -/
def written : Thread → Option (Bytes × Bytes)
  | .recorded place name | .copying place name | .copied place name => some (place, name)
  | _ => none

/-- The call has the name for itself. -/
def Has (t : Thread) (name : Bytes) : Prop := t.bare = some name ∨ t.copies = some name

/-- The call has no name. -/
structure Light (t : Thread) : Prop where
  bare : t.bare = none
  copies : t.copies = none
  written : t.written = none

theorem Light.not_has {t : Thread} (h : t.Light) (name : Bytes) : ¬ t.Has name := by
  rintro (hb | hc)
  · rw [h.bare] at hb
    cases hb
  · rw [h.copies] at hc
    cases hc

end Thread

/-- The record names the place. -/
def Says (body : Option Bytes) (place : Bytes) : Prop := ∃ secs, body = some (record place secs)

/-- No name is had twice, and every item has its record. -/
structure Sound (d : State α) : Prop where
  apart : ∀ v w name, v ≠ w → (d.own v).Has name → ¬ (d.own w).Has name
  held : ∀ w name, (d.own w).Has name → (d.shared.info name).isSome
  bare : ∀ w name, (d.own w).bare = some name → d.shared.files name = none
  written : ∀ w place name, (d.own w).written = some (place, name) → Says (d.shared.info name) place
  item : ∀ name it, d.shared.files name = some it → Says (d.shared.info name) it.origin

/-- What a step takes is not being copied by `others`, and `empty` finds what it removes. -/
def Polite (others : Bytes → Prop) (a : Answer) (t : Thread) (s : Shared α) : Prop :=
  match a, t with
  | .go, .free name _ | .go, .crossing name _ => others name
  | .go, .emptying (name :: _) => (s.files name).isSome ∧ others name
  | _, _ => True

/-- The condition on an event. -/
def Courteous : Event α → State α → Prop
  | .turn w a, d => Polite (fun name => ∀ v, v ≠ w → (d.own v).copies ≠ some name) a (d.own w) d.shared
  | .outside _, _ => True

/-- What a step can do to the trash, and to the names that its thread has. -/
inductive Effect (others : Bytes → Prop) (t : Thread) (s : Shared α) : Thread → Shared α → Prop
  | quiet {t' s'} (info : s'.info = s.info)
      (files : ∀ name, (s'.files name).map Item.origin = (s.files name).map Item.origin)
      (has : ∀ name, t'.Has name → t.Has name) (bare : ∀ name, t'.bare = some name → t.bare = some name)
      (written : ∀ x, t'.written = some x → t.written = some x) : Effect others t s t' s'
  | claim {t'} (name : Bytes) (body : Bytes) (free : s.info name = none) (bare : t'.bare = some name)
      (copies : t'.copies = none) (written : t'.written = none) :
      Effect others t s t' (s.setInfo name (some body))
  | write {t'} (name : Bytes) (body : Bytes) (has : t.bare = some name)
      (after : t'.Light ∨ t'.bare = some name ∧ t'.copies = none ∧
        ∀ x, t'.written = some x → x.2 = name ∧ ∃ secs, body = record x.1 secs) :
      Effect others t s t' (s.setInfo name (some body))
  | place {t' s'} (name : Bytes) (it : Item α) (has : t.Has name) (written : t.written = some (it.origin, name))
      (info : s'.info = s.info) (files : s'.files = Function.update s.files name (some it))
      (after : t'.Light ∨ t'.bare = none ∧ t'.copies = some name ∧ t'.written = t.written) :
      Effect others t s t' s'
  | cross {t'} (name : Bytes) (there : (s.files name).isSome) (alone : others name) (bare : t'.bare = none)
      (copies : t'.copies = some name) (written : t'.written = none) : Effect others t s t' s
  | take {t' s'} (name : Bytes) (had : t.copies = some name ∨ (s.files name).isSome ∧ others name)
      (info : s'.info = s.info) (files : s'.files = Function.update s.files name none)
      (bare : t'.bare = some name) (copies : t'.copies = none) (written : t'.written = none) :
      Effect others t s t' s'
  | release {t'} (name : Bytes) (has : t.bare = some name) (light : t'.Light) :
      Effect others t s t' (s.setInfo name none)

theorem map_origin_update {files : Bytes → Option (Item α)} (name : Bytes) (f : Item α → Item α)
    (hf : ∀ it, (f it).origin = it.origin) (m : Bytes) :
    (Function.update files name ((files name).map f) m).map Item.origin = (files m).map Item.origin := by
  by_cases hm : m = name
  · subst hm
    rw [Function.update_self]
    cases files m <;> simp [hf]
  · rw [Function.update_of_ne hm]

/-- A step that changes neither the records nor what the items are, and takes no name. -/
theorem Effect.light {others : Bytes → Prop} {t t' : Thread} {s s' : Shared α} (h : t'.Light)
    (hinfo : s'.info = s.info)
    (hfiles : ∀ name, (s'.files name).map Item.origin = (s.files name).map Item.origin) :
    Effect others t s t' s' :=
  .quiet hinfo hfiles (fun name hn => absurd hn (h.not_has name))
    (fun name hn => by rw [h.bare] at hn; cases hn) fun x hx => by rw [h.written] at hx; cases hx

theorem light_returned (ok : Bool) : (Thread.returned ok).Light := ⟨rfl, rfl, rfl⟩

theorem light_begin (r : Request) : (begin r).Light := by
  cases r with
  | empty => exact ⟨rfl, rfl, rfl⟩
  | _ => dsimp only [begin]; split_ifs <;> exact ⟨rfl, rfl, rfl⟩

/-- **What a step can do.** -/
theorem step_effect {others : Bytes → Prop} {a : Answer} {t t' : Thread} {s s' : Shared α}
    (h : step a t s = some (t', s')) (hpolite : Polite others a t s) : Effect others t s t' s' := by
  have hstay : ∀ {u : Thread}, u.Light → some (u, s) = some (t', s') → Effect others t s t' s' := by
    intro u hu heq
    obtain ⟨rfl, rfl⟩ := Prod.mk.inj (Option.some.inj heq)
    exact Effect.light hu rfl fun _ => rfl
  cases t with
  | idle => cases a <;> first | exact hstay (light_begin _) h | cases h
  | returned ok => cases a <;> first | exact hstay (light_begin _) h | cases h
  | claiming place secs n =>
    cases a with
    | go =>
      simp only [step] at h
      split at h
      · next hfree =>
        obtain ⟨rfl, rfl⟩ := Prod.mk.inj (Option.some.inj h)
        exact .claim _ _ hfree rfl rfl rfl
      · exact hstay (by split_ifs <;> exact ⟨rfl, rfl, rfl⟩) h
    | refused => exact hstay (light_returned _) h
    | _ => cases h
  | claimed place secs name =>
    cases a with
    | go =>
      obtain ⟨rfl, rfl⟩ := Prod.mk.inj (Option.some.inj h)
      exact .write name _ rfl (Or.inr ⟨rfl, rfl, fun x hx => by
        obtain rfl := Option.some.inj hx
        exact ⟨rfl, secs, rfl⟩⟩)
    | refused wrote =>
      obtain ⟨rfl, rfl⟩ := Prod.mk.inj (Option.some.inj h)
      exact .write name _ rfl (Or.inl (light_returned _))
    | _ => cases h
  | recorded place name =>
    have hwithdraw : some (Thread.withdrawing name, s) = some (t', s') →
        Effect others (.recorded place name) s t' s' := by
      intro heq
      obtain ⟨rfl, rfl⟩ := Prod.mk.inj (Option.some.inj heq)
      exact .quiet rfl (fun _ => rfl) (fun n hn => Or.inl (hn.resolve_right (by simp [Thread.copies])))
        (fun n hn => hn) (by simp [Thread.written])
    cases a with
    | go =>
      simp only [step] at h
      split at h
      · exact hwithdraw h
      · obtain ⟨rfl, rfl⟩ := Prod.mk.inj (Option.some.inj h)
        exact .place name _ (Or.inl rfl) rfl rfl rfl (Or.inl (light_returned _))
    | crosses =>
      obtain ⟨rfl, rfl⟩ := Prod.mk.inj (Option.some.inj h)
      exact .quiet rfl (fun _ => rfl) (fun n hn => Or.inl (hn.resolve_left (by simp [Thread.bare])))
        (by simp [Thread.bare]) (fun x hx => hx)
    | refused => exact hwithdraw h
    | _ => cases h
  | withdrawing name =>
    cases a with
    | go =>
      obtain ⟨rfl, rfl⟩ := Prod.mk.inj (Option.some.inj h)
      exact .release name rfl (light_returned _)
    | refused => exact hstay (light_returned _) h
    | _ => cases h
  | copying place name =>
    cases a with
    | part =>
      obtain ⟨rfl, rfl⟩ := Prod.mk.inj (Option.some.inj h)
      exact .place name _ (Or.inr rfl) rfl rfl rfl (Or.inr ⟨rfl, rfl, rfl⟩)
    | go =>
      simp only [step] at h
      split at h
      · exact hstay (light_returned _) h
      · obtain ⟨rfl, rfl⟩ := Prod.mk.inj (Option.some.inj h)
        exact .place name _ (Or.inr rfl) rfl rfl rfl (Or.inr ⟨rfl, rfl, rfl⟩)
    | refused => exact hstay (light_returned _) h
    | _ => cases h
  | copied place name =>
    cases a with
    | part =>
      obtain ⟨rfl, rfl⟩ := Prod.mk.inj (Option.some.inj h)
      exact .quiet rfl (fun _ => rfl) (fun _ hn => hn) (fun _ hn => hn) fun _ hx => hx
    | go =>
      obtain ⟨rfl, rfl⟩ := Prod.mk.inj (Option.some.inj h)
      exact Effect.light (light_returned _) rfl fun _ => rfl
    | refused => exact hstay (light_returned _) h
    | _ => cases h
  | reading name =>
    cases a with
    | go =>
      simp only [step] at h
      split at h
      · exact hstay (light_returned _) h
      · exact hstay ⟨rfl, rfl, rfl⟩ h
    | refused => exact hstay (light_returned _) h
    | _ => cases h
  | found name place =>
    cases a with
    | go => exact hstay (by split_ifs <;> exact ⟨rfl, rfl, rfl⟩) h
    | unseen => exact hstay ⟨rfl, rfl, rfl⟩ h
    | refused => exact hstay (light_returned _) h
    | _ => cases h
  | free name place =>
    cases a with
    | go =>
      simp only [step] at h
      split at h
      · exact hstay (light_returned _) h
      · next it hit =>
        obtain ⟨rfl, rfl⟩ := Prod.mk.inj (Option.some.inj h)
        exact .take name (Or.inr ⟨by rw [hit]; rfl, hpolite⟩) rfl rfl rfl rfl rfl
    | crosses => exact hstay ⟨rfl, rfl, rfl⟩ h
    | refused => exact hstay (light_returned _) h
    | _ => cases h
  | crossing name place =>
    cases a with
    | go =>
      simp only [step] at h
      split_ifs at h with hthere
      · obtain ⟨rfl, rfl⟩ := Prod.mk.inj (Option.some.inj h)
        exact .cross name hthere hpolite rfl rfl rfl
      · exact hstay (light_returned _) h
    | refused => exact hstay (light_returned _) h
    | _ => cases h
  | bringing name place =>
    have hsame : ∀ {u : Thread} {v : Shared α}, u.bare = none → u.copies = some name → u.written = none →
        v.info = s.info → v.files = s.files → Effect others (.bringing name place) s u v := by
      intro u v hbare hcopies hwritten hinfo hfiles
      refine .quiet hinfo (fun _ => by rw [hfiles]) (fun n hn => ?_) (fun n hn => ?_) fun x hx => ?_
      · rcases hn with hn | hn
        · rw [hbare] at hn
          cases hn
        · exact Or.inr (hcopies.symm.trans hn)
      · rw [hbare] at hn
        cases hn
      · rw [hwritten] at hx
        cases hx
    cases a with
    | part =>
      obtain ⟨rfl, rfl⟩ := Prod.mk.inj (Option.some.inj h)
      exact hsame rfl rfl rfl rfl rfl
    | go =>
      simp only [step] at h
      split at h
      · exact hstay (light_returned _) h
      · obtain ⟨rfl, rfl⟩ := Prod.mk.inj (Option.some.inj h)
        exact hsame rfl rfl rfl rfl rfl
    | refused => exact hstay (light_returned _) h
    | _ => cases h
  | brought name place =>
    cases a with
    | part =>
      obtain ⟨rfl, rfl⟩ := Prod.mk.inj (Option.some.inj h)
      exact .quiet rfl (map_origin_update name _ fun _ => rfl) (fun _ hn => hn) (fun _ hn => hn) fun _ hx => hx
    | go =>
      obtain ⟨rfl, rfl⟩ := Prod.mk.inj (Option.some.inj h)
      exact .take name (Or.inl rfl) rfl rfl rfl rfl rfl
    | refused => exact hstay (light_returned _) h
    | _ => cases h
  | restored name =>
    cases a with
    | go =>
      obtain ⟨rfl, rfl⟩ := Prod.mk.inj (Option.some.inj h)
      exact .release name rfl (light_returned _)
    | refused => exact hstay (light_returned _) h
    | _ => cases h
  | listing names =>
    cases a with
    | entry name =>
      simp only [step] at h
      split_ifs at h
      exact hstay ⟨rfl, rfl, rfl⟩ h
    | go => exact hstay ⟨rfl, rfl, rfl⟩ h
    | refused => exact hstay (light_returned _) h
    | _ => cases h
  | emptying names =>
    cases names with
    | nil => cases a <;> first | exact hstay (light_returned _) h | cases h
    | cons name names =>
      cases a with
      | part =>
        obtain ⟨rfl, rfl⟩ := Prod.mk.inj (Option.some.inj h)
        exact Effect.light ⟨rfl, rfl, rfl⟩ rfl (map_origin_update name _ fun _ => rfl)
      | go =>
        obtain ⟨rfl, rfl⟩ := Prod.mk.inj (Option.some.inj h)
        exact .take name (Or.inr hpolite) rfl rfl rfl rfl rfl
      | refused => exact hstay ⟨rfl, rfl, rfl⟩ h
      | _ => cases h
  | unrecording name names =>
    cases a with
    | go =>
      obtain ⟨rfl, rfl⟩ := Prod.mk.inj (Option.some.inj h)
      exact .release name rfl ⟨rfl, rfl, rfl⟩
    | refused => exact hstay ⟨rfl, rfl, rfl⟩ h
    | _ => cases h

/-! ## Every item has its record -/

/-- No call is at work. -/
def Quiet (d : State α) : Prop := ∀ w, (d.own w).Light

theorem Sound.of_quiet {d : State α} (h : Quiet d)
    (hitem : ∀ name it, d.shared.files name = some it → Says (d.shared.info name) it.origin) : Sound d where
  apart _ w name _ _ := (h w).not_has name
  held w name hn := absurd hn ((h w).not_has name)
  bare w name hn := by
    rw [(h w).bare] at hn
    cases hn
  written w place name hn := by
    rw [(h w).written] at hn
    cases hn
  item := hitem

theorem Thread.has_of_written {t : Thread} {place name : Bytes} (h : t.written = some (place, name)) :
    t.Has name := by
  cases t <;> simp only [Thread.written, reduceCtorEq, Option.some.injEq, Prod.mk.injEq] at h <;>
    obtain ⟨-, rfl⟩ := h <;> first | exact Or.inl rfl | exact Or.inr rfl

/-- What is so of the threads after a step of one of them. -/
theorem own_update {P : ℕ → Thread → Prop} {own : ℕ → Thread} {w : ℕ} {t' : Thread} (ht : P w t')
    (hown : ∀ v, v ≠ w → P v (own v)) (v : ℕ) : P v (Function.update own w t' v) := by
  by_cases hv : v = w
  · subst hv
    rwa [Function.update_self]
  · rw [Function.update_of_ne hv]
    exact hown v hv

section

variable {d : State α} {w : ℕ} {t' : Thread} {s' : Shared α}

/-- A step about one name, that no other call has. -/
theorem Sound.about (h : Sound d) (name : Bytes) (hothers : ∀ v, v ≠ w → ¬ (d.own v).Has name)
    (hinfo : ∀ m, m ≠ name → s'.info m = d.shared.info m)
    (hfiles : ∀ m, m ≠ name → s'.files m = d.shared.files m)
    (hhas : ∀ m, t'.Has m → m = name ∧ (s'.info name).isSome)
    (hbare : ∀ m, t'.bare = some m → s'.files name = none)
    (hwritten : ∀ place m, t'.written = some (place, m) → Says (s'.info name) place)
    (hitem : ∀ it, s'.files name = some it → Says (s'.info name) it.origin) :
    Sound (⟨s', Function.update d.own w t'⟩ : State α) := by
  have hother : ∀ v m, v ≠ w → (d.own v).Has m → m ≠ name := fun v m hv hm heq =>
    hothers v hv (heq ▸ hm)
  refine ⟨fun u v m huv hu hv => ?_, fun v m => ?_, fun v m => ?_, fun v place m => ?_, fun m it hit => ?_⟩
  · dsimp only at hu hv
    by_cases huw : u = w
    · subst huw
      have hvu := Ne.symm huv
      rw [Function.update_self] at hu
      rw [Function.update_of_ne hvu] at hv
      exact hother v m hvu hv (hhas m hu).1
    · rw [Function.update_of_ne huw] at hu
      by_cases hvw : v = w
      · subst hvw
        rw [Function.update_self] at hv
        exact hother u m huw hu (hhas m hv).1
      · rw [Function.update_of_ne hvw] at hv
        exact h.apart u v m huv hu hv
  · refine own_update (P := fun _ t => t.Has m → (s'.info m).isSome) ?_ ?_ v
    · intro hm
      obtain ⟨rfl, hsome⟩ := hhas m hm
      exact hsome
    · intro v hv hm
      rw [hinfo m (hother v m hv hm)]
      exact h.held v m hm
  · refine own_update (P := fun _ t => t.bare = some m → s'.files m = none) ?_ ?_ v
    · intro hm
      obtain ⟨rfl, -⟩ := hhas m (Or.inl hm)
      exact hbare m hm
    · intro v hv hm
      rw [hfiles m (hother v m hv (Or.inl hm))]
      exact h.bare v m hm
  · refine own_update (P := fun _ t => t.written = some (place, m) → Says (s'.info m) place) ?_ ?_ v
    · intro hm
      obtain ⟨rfl, -⟩ := hhas m (Thread.has_of_written hm)
      exact hwritten place m hm
    · intro v hv hm
      rw [hinfo m (hother v m hv (Thread.has_of_written hm))]
      exact h.written v place m hm
  · by_cases hm : m = name
    · subst hm
      exact hitem it hit
    · dsimp only at hit ⊢
      rw [hfiles m hm] at hit
      rw [hinfo m hm]
      exact h.item m it hit

theorem Sound.effect (h : Sound d)
    (he : Effect (fun name => ∀ v, v ≠ w → (d.own v).copies ≠ some name) (d.own w) d.shared t' s') :
    Sound (⟨s', Function.update d.own w t'⟩ : State α) := by
  have hhad : ∀ {name}, (d.own w).Has name → ∀ v, v ≠ w → ¬ (d.own v).Has name := fun hn v hv =>
    h.apart w v _ (Ne.symm hv) hn
  have htaken : ∀ {name}, (d.shared.files name).isSome →
      (∀ v, v ≠ w → (d.own v).copies ≠ some name) → ∀ v, v ≠ w → ¬ (d.own v).Has name := by
    rintro name hsome hcopies v hv (hb | hc)
    · rw [h.bare v name hb] at hsome
      cases hsome
    · exact hcopies v hv hc
  cases he with
  | quiet info files has bare written =>
    have hnone : ∀ name, d.shared.files name = none → s'.files name = none := by
      intro name hname
      have := files name
      rwa [hname, Option.map_none, Option.map_eq_none_iff] at this
    refine ⟨fun u v m huv hu hv => ?_, fun v m => ?_, fun v m => ?_, fun v place m => ?_, fun m it hit => ?_⟩
    · have hold : ∀ v, (Function.update d.own w t' v).Has m → (d.own v).Has m :=
        own_update (P := fun v t => t.Has m → (d.own v).Has m) (has m) fun v _ hm => hm
      exact h.apart u v m huv (hold u hu) (hold v hv)
    · rw [info]
      exact own_update (P := fun _ t => t.Has m → (d.shared.info m).isSome)
        (fun hm => h.held w m (has m hm)) (fun v _ => h.held v m) v
    · exact own_update (P := fun _ t => t.bare = some m → s'.files m = none)
        (fun hm => hnone m (h.bare w m (bare m hm))) (fun v _ hm => hnone m (h.bare v m hm)) v
    · rw [info]
      exact own_update (P := fun _ t => t.written = some (place, m) → Says (d.shared.info m) place)
        (fun hm => h.written w place m (written _ hm)) (fun v _ => h.written v place m) v
    · have := files m
      rw [hit] at this
      obtain ⟨old, hold, horigin⟩ := Option.map_eq_some_iff.1 this.symm
      rw [info, ← horigin]
      exact h.item m old hold
  | claim name body free bare copies written =>
    have hnobody : ∀ v, ¬ (d.own v).Has name := fun v hv => by
      have := h.held v name hv
      rw [free] at this
      cases this
    have hnofile : d.shared.files name = none := by
      cases hfile : d.shared.files name with
      | none => rfl
      | some it =>
        obtain ⟨secs, hsaid⟩ := h.item name it hfile
        rw [free] at hsaid
        cases hsaid
    refine h.about name (fun v _ => hnobody v) (fun m hm => Function.update_of_ne hm _ _) (fun _ _ => rfl)
      (fun m hm => ?_) (fun _ _ => hnofile) (fun place m hm => by rw [written] at hm; cases hm)
      fun it hit => absurd (hnofile.symm.trans hit) (by simp)
    rcases hm with hm | hm
    · rw [bare] at hm
      obtain rfl := Option.some.inj hm
      exact ⟨rfl, by simp [Shared.setInfo]⟩
    · rw [copies] at hm
      cases hm
  | write name body has after =>
    have hnofile := h.bare w name has
    refine h.about name (hhad (Or.inl has)) (fun m hm => Function.update_of_ne hm _ _) (fun _ _ => rfl)
      (fun m hm => ?_) (fun _ _ => hnofile) (fun place m hm => ?_)
      fun it hit => absurd (hnofile.symm.trans hit) (by simp)
    · refine ⟨?_, by simp [Shared.setInfo]⟩
      rcases after with hl | ⟨hbare, hcopies, -⟩
      · exact absurd hm (hl.not_has m)
      · rcases hm with hm | hm
        · exact (Option.some.inj (hbare.symm.trans hm)).symm
        · rw [hcopies] at hm
          cases hm
    · rcases after with hl | ⟨-, -, hwritten⟩
      · rw [hl.written] at hm
        cases hm
      · obtain ⟨-, secs, rfl⟩ := hwritten _ hm
        exact ⟨secs, by simp [Shared.setInfo]⟩
  | place name it has written info files after =>
    have hsaid := h.written w it.origin name written
    have hsome : (s'.info name).isSome := by
      rw [info]
      exact h.held w name has
    refine h.about name (hhad has) (fun m _ => by rw [info])
      (fun m hm => by rw [files, Function.update_of_ne hm]) (fun m hm => ⟨?_, hsome⟩) (fun m hm => ?_)
      (fun place m hm => ?_) fun it' hit => ?_
    · rcases after with hl | ⟨hbare, hcopies, -⟩
      · exact absurd hm (hl.not_has m)
      · rcases hm with hm | hm
        · rw [hbare] at hm
          cases hm
        · exact (Option.some.inj (hcopies.symm.trans hm)).symm
    · rcases after with hl | ⟨hbare, -, -⟩
      · exact absurd (Or.inl hm) (hl.not_has m)
      · rw [hbare] at hm
        cases hm
    · rcases after with hl | ⟨-, -, hsame⟩
      · rw [hl.written] at hm
        cases hm
      · rw [hsame, written] at hm
        obtain ⟨rfl, -⟩ := Prod.mk.inj (Option.some.inj hm)
        rwa [info]
    · rw [files, Function.update_self] at hit
      rwa [info, ← Option.some.inj hit]
  | cross name there alone bare copies written =>
    refine h.about name (htaken there alone) (fun _ _ => rfl) (fun _ _ => rfl) (fun m hm => ?_)
      (fun m hm => by rw [bare] at hm; cases hm) (fun place m hm => by rw [written] at hm; cases hm)
      (h.item name)
    obtain ⟨it, hit⟩ := Option.isSome_iff_exists.1 there
    obtain ⟨secs, hsaid⟩ := h.item name it hit
    refine ⟨?_, by rw [hsaid]; rfl⟩
    rcases hm with hm | hm
    · rw [bare] at hm
      cases hm
    · exact (Option.some.inj (copies.symm.trans hm)).symm
  | take name had info files bare copies written =>
    have hsome : (d.shared.info name).isSome := by
      rcases had with had | ⟨there, -⟩
      · exact h.held w name (Or.inr had)
      · obtain ⟨it, hit⟩ := Option.isSome_iff_exists.1 there
        obtain ⟨secs, hsaid⟩ := h.item name it hit
        rw [hsaid]
        rfl
    have hothers : ∀ v, v ≠ w → ¬ (d.own v).Has name := by
      rcases had with had | ⟨there, alone⟩
      · exact hhad (Or.inr had)
      · exact htaken there alone
    refine h.about name hothers (fun m _ => by rw [info])
      (fun m hm => by rw [files, Function.update_of_ne hm]) (fun m hm => ⟨?_, by rwa [info]⟩)
      (fun m hm => by rw [files, Function.update_self])
      (fun place m hm => by rw [written] at hm; cases hm)
      fun it hit => by rw [files, Function.update_self] at hit; cases hit
    rcases hm with hm | hm
    · exact (Option.some.inj (bare.symm.trans hm)).symm
    · rw [copies] at hm
      cases hm
  | release name has light =>
    have hnofile := h.bare w name has
    exact h.about name (hhad (Or.inl has)) (fun m hm => Function.update_of_ne hm _ _) (fun _ _ => rfl)
      (fun m hm => absurd hm (light.not_has m)) (fun _ _ => hnofile) (fun place m hm => by rw [light.written] at hm; cases hm)
      fun it hit => absurd (hnofile.symm.trans hit) (by simp)

end

theorem sound_next (e : Event α) (d d' : State α) (h : Sound d) (hc : Courteous e d)
    (hnext : Crew.next step Elsewhere.apply e d = some d') : Sound d' := by
  cases e with
  | turn w a =>
    obtain ⟨⟨t', s'⟩, hstep, rfl⟩ := Crew.next_turn hnext
    exact h.effect (step_effect hstep hc)
  | outside x =>
    obtain rfl := Option.some.inj hnext
    exact ⟨h.apart, h.held, h.bare, h.written, h.item⟩

/-- A record is read as it was written. -/
theorem restored_of_record {body : Option Bytes} {place : Bytes} (h : Says body place) :
    body.bind Trash.restored = some place := by
  obtain ⟨secs, rfl⟩ := h
  have hinfo : ¬ pathField <+: text "[Trash Info]" := by decide
  have hread : decodePath (trimBytes (encodePath place)) = place := by
    rw [trimBytes_encodePath, decodePath_encodePath]
  rw [Option.bind_some, Trash.restored, if_pos (valid_record place secs), lines_record, List.findSome?_cons,
    stripPrefix, if_neg hinfo, List.findSome?_cons, stripPrefix_append]
  exact congrArg some hread

/-- Two files of one name, and an empty trash. -/
def twoFiles : State ℕ where
  shared.info _ := none
  shared.files _ := none
  shared.world place :=
    if place = text "/a/x" then some (.whole 1) else if place = text "/b/x" then some (.whole 2) else none
  own _ := .idle

/-- Both go at once, and the second finds the record of the first. -/
def bothTrashed : List (Event ℕ) :=
  [.turn 0 (.call (.trash (text "/a/x") 0)), .turn 1 (.call (.trash (text "/b/x") 0)), .turn 0 .go, .turn 1 .go,
    .turn 1 .go, .turn 1 .go, .turn 0 .go, .turn 1 .go, .turn 0 .go]

/-- The condition is needed: two calls of `empty` find the same item, and the record that the second removes is
one that a `trash` has made of the name in between. -/
theorem emptied_twice_loses_record :
    ((run [.turn 0 (.call (.trash (text "/a/x") 0)), .turn 0 .go, .turn 0 .go, .turn 0 .go,
        .turn 1 (.call .empty), .turn 1 (.entry (text "x")), .turn 1 .go,
        .turn 2 (.call .empty), .turn 2 (.entry (text "x")), .turn 2 .go, .turn 2 .go, .turn 2 .go,
        .turn 0 (.call (.trash (text "/b/x") 0)), .turn 0 .go, .turn 0 .go,
        .turn 1 .go, .turn 1 .go, .turn 0 .go] twoFiles).map fun d =>
      (d.shared.files (text "x"), d.shared.info (text "x"))) = some (some ⟨text "/b/x", .whole 2⟩, none) := rfl

end Aurade.Ops.Trash
