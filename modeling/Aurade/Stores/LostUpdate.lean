import Aurade.Foundations.Schedule
import Aurade.Stores.Tags

/-!
# Two files tagged at once

`tags::set` reads the index, changes it and writes it back, and nothing keeps the two threads of the
daemon that run it apart. `tagStep` has the three steps a call takes, one move each: the attribute,
the read and the write. In a row they are `set` (`run_set`).

`tagged_iff` says for every schedule of two calls whether both files end up under their tags: they
do when one call has written before the other reads, and else only where the index had the file of
the first writer under its tags all along.
-/

namespace Aurade.Stores

open Fs

/-- What a call is to do. -/
structure Request where
  path : Bytes
  tags : List Text
  answers : Answers

/-- The path as the index has it. -/
def Request.key (r : Request) : Text := Text.lossy r.path

/-- How far a call has come. -/
inductive Tagging
  | start
  /-- The attribute is set, or the file system has none. -/
  | attributed
  | read (index : Index)
  | returned (ok : Bool)
  deriving DecidableEq

section

variable (J : JsonLib) (place : Option Place) (req : Bool → Request)

/-- The next step of the call of worker `w`. -/
def tagStep (w : Bool) : Tagging → Disk → Option (Tagging × Disk)
  | .start, d =>
    match setAttribute (req w).answers (req w).path (clean (req w).tags) d with
    | (.ok _, d) => some (.attributed, d)
    | (.error _, d) => some (.returned false, d)
  | .attributed, d => some (.read (indexOf J place d), d)
  | .read index, d =>
    match writeIndex J place (req w).answers (index.retag (req w).key (clean (req w).tags)) d with
    | (.ok _, d) => some (.returned true, d)
    | (.error _, d) => some (.returned false, d)
  | .returned _, _ => none

/-- Two calls that have not begun. -/
def tagging (d : Disk) : Duo Disk Tagging := ⟨d, fun _ => .start⟩

/-- Each file is listed under exactly its tags, and every other path where it was. -/
def BothTagged (before after : Index) : Prop :=
  (∀ w tag, (req w).key ∈ after.listed tag ↔ tag ∈ clean (req w).tags) ∧
    ∀ tag, (after.listed tag).filter (fun p => ∀ w, p ≠ (req w).key) =
      (before.listed tag).filter fun p => ∀ w, p ≠ (req w).key

/-- One call has written before the other reads. -/
def InTurn (ws : List Bool) : Prop :=
  ∃ a u v, ws = u ++ v ∧ u.count a = 3 ∧ u.count (!a) ≤ 1

/-- Nothing of one call can be lost: its file is the other's and gets the same tags, or the calls
come in turn, or the index has the file of the first writer, the one that does not come last, under
its tags already. -/
def NoneLost (before : Index) (ws : List Bool) : Prop :=
  if (req true).key = (req false).key then
    ∀ tag, tag ∈ clean (req true).tags ↔ tag ∈ clean (req false).tags
  else InTurn ws ∨ ∀ a, ws.getLast? = some (!a) → ∀ tag,
    (req a).key ∈ before.listed tag ↔ tag ∈ clean (req a).tags

end

/-! ## What the steps do to the index -/

section

variable {J : JsonLib} {place : Option Place} {req : Bool → Request} {d m e : Duo Disk Tagging}
  {w : Bool} {ws : List Bool}

/-- The first step sets the attribute, or ends the call. -/
theorem turn_start (h : Duo.turn (tagStep J place req) w d = some m) (hs : d.own w = .start) :
    m.own (!w) = d.own (!w) ∧ indexOf J place m.shared = indexOf J place d.shared ∧
      (m.own w = .attributed ∨ m.own w = .returned false) := by
  obtain ⟨hother, hstep⟩ := Duo.turn_own h
  rw [hs] at hstep
  simp only [tagStep] at hstep
  have hindex := (setAttribute_spec (req w).answers (req w).path (clean (req w).tags) d.shared).1
  split at hstep
  · next b D hD =>
    rw [hD] at hindex
    obtain ⟨hown, rfl⟩ := Prod.mk.inj (Option.some.inj hstep)
    exact ⟨hother, indexOf_congr hindex, Or.inl hown.symm⟩
  · next err D hD =>
    rw [hD] at hindex
    obtain ⟨hown, rfl⟩ := Prod.mk.inj (Option.some.inj hstep)
    exact ⟨hother, indexOf_congr hindex, Or.inr hown.symm⟩

/-- The second step reads the index. -/
theorem turn_attributed (h : Duo.turn (tagStep J place req) w d = some m)
    (hs : d.own w = .attributed) :
    m.own (!w) = d.own (!w) ∧ m.shared = d.shared ∧
      m.own w = .read (indexOf J place d.shared) := by
  obtain ⟨hother, hstep⟩ := Duo.turn_own h
  rw [hs] at hstep
  obtain ⟨hown, hshared⟩ := Prod.mk.inj (Option.some.inj hstep)
  exact ⟨hother, hshared.symm, hown.symm⟩

/-- The third step writes the index that was read, with the file under its tags. -/
theorem turn_read {index : Index} (h : Duo.turn (tagStep J place req) w d = some m)
    (hs : d.own w = .read index) :
    m.own (!w) = d.own (!w) ∧ (m.own w = .returned false ∨ m.own w = .returned true ∧
      indexOf J place m.shared = index.retag (req w).key (clean (req w).tags)) := by
  obtain ⟨hother, hstep⟩ := Duo.turn_own h
  rw [hs] at hstep
  simp only [tagStep] at hstep
  refine ⟨hother, ?_⟩
  split at hstep
  · next u D hD =>
    obtain ⟨hown, rfl⟩ := Prod.mk.inj (Option.some.inj hstep)
    exact Or.inr ⟨hown.symm, indexOf_writeIndex hD⟩
  · obtain ⟨hown, -⟩ := Prod.mk.inj (Option.some.inj hstep)
    exact Or.inl hown.symm

theorem turn_returned {ok : Bool} (h : Duo.turn (tagStep J place req) w d = some m)
    (hs : d.own w = .returned ok) : False := by
  obtain ⟨-, hstep⟩ := Duo.turn_own h
  rw [hs] at hstep
  cases hstep

/-- **The three steps of one call in a row are `set`**, of an index that can be read. -/
theorem run_set (hread : (req w).answers.unreadable = false) (hs : d.own w = .start) :
    ∃ n e, Duo.run (tagStep J place req) (List.replicate n w) d = some e ∧
      e.shared = (set J place (req w).answers (req w).path (req w).tags d.shared).2 ∧
      e.own w =
        .returned (set J place (req w).answers (req w).path (req w).tags d.shared).1.isOk := by
  have hturn : ∀ {p r : Tagging} {c : Duo Disk Tagging} {D : Disk}, c.own w = p →
      tagStep J place req w p c.shared = some (r, D) →
      Duo.turn (tagStep J place req) w c = some ⟨D, Function.update c.own w r⟩ := by
    intro p r c D hp hstep
    exact Duo.turn_eq_some.2 ⟨(r, D), by rw [hp]; exact hstep, rfl⟩
  rcases hattr : setAttribute (req w).answers (req w).path (clean (req w).tags) d.shared
    with ⟨err | b, D⟩
  · have hset : set J place (req w).answers (req w).path (req w).tags d.shared =
        (.error err, D) := Act.bind_of_error hattr _
    have hfirst := hturn hs (show tagStep J place req w .start d.shared =
      some (.returned false, D) by rw [tagStep, hattr])
    refine ⟨1, _, Duo.run_cons.2 ⟨_, hfirst, rfl⟩, ?_, ?_⟩
    · rw [hset]
    · rw [hset]
      exact Function.update_self ..
  · have hfirst := hturn hs (show tagStep J place req w .start d.shared =
      some (.attributed, D) by rw [tagStep, hattr])
    have hsecond := hturn (c := ⟨D, Function.update d.own w .attributed⟩)
      (Function.update_self ..) (show tagStep J place req w .attributed D =
        some (.read (indexOf J place D), D) from rfl)
    rcases hwrite : writeIndex J place (req w).answers
      ((indexOf J place D).retag (req w).key (clean (req w).tags)) D with ⟨r, D'⟩
    have hset : (set J place (req w).answers (req w).path (req w).tags d.shared).2 = D' ∧
        (set J place (req w).answers (req w).path (req w).tags d.shared).1.isOk = r.isOk := by
      rw [set, Act.bind_of_ok hattr, Act.bind_of_ok (show Act.get D = (.ok D, D) from rfl),
        readIndex_of_readable hread]
      rw [Request.key] at hwrite
      cases r with
      | error err =>
        rw [Act.bind_of_error hwrite]
        exact ⟨rfl, rfl⟩
      | ok u =>
        rw [Act.bind_of_ok hwrite]
        exact ⟨rfl, rfl⟩
    have hthird := hturn (c := ⟨D, Function.update (Function.update d.own w .attributed) w
      (.read (indexOf J place D))⟩) (Function.update_self ..)
      (show tagStep J place req w (.read (indexOf J place D)) D = some (.returned r.isOk, D') by
        rw [tagStep, hwrite]
        cases r <;> rfl)
    refine ⟨3, _, Duo.run_cons.2 ⟨_, hfirst, Duo.run_cons.2 ⟨_, hsecond,
      Duo.run_cons.2 ⟨_, hthird, rfl⟩⟩⟩, ?_, ?_⟩
    · rw [hset.1]
    · rw [hset.2]
      exact Function.update_self ..

/-- A call that has returned stays so. -/
theorem run_returned {ok : Bool} (h : Duo.run (tagStep J place req) ws d = some e)
    (hs : d.own w = .returned ok) : e.own w = .returned ok := by
  refine Duo.run_induct (P := fun d => d.own w = .returned ok) (fun x d m hd hm => ?_) hs h
  rcases Bool.eq_or_eq_not w x with rfl | rfl
  · exact (turn_returned hm hd).elim
  · exact (Duo.turn_own hm).1.trans hd

/-! ## What two calls do to the index -/

/-- How many steps of a call are done. -/
def Tagging.done : Tagging → ℕ
  | .start => 0
  | .attributed => 1
  | .read _ => 2
  | .returned _ => 3

/-- `InTurn` for a schedule that goes on from where the calls have come. -/
def InTurnFrom (n : Bool → ℕ) (ws : List Bool) : Prop :=
  ∃ a u v, ws = u ++ v ∧ n a + u.count a = 3 ∧ n (!a) + u.count (!a) ≤ 1

/-- The index a call is going to change. -/
def Tagging.sees (now : Index) : Tagging → Index
  | .read index => index
  | _ => now

@[simp] theorem Tagging.sees_start (now : Index) : Tagging.start.sees now = now := rfl

@[simp] theorem Tagging.sees_attributed (now : Index) : Tagging.attributed.sees now = now := rfl

@[simp] theorem Tagging.sees_read (now index : Index) : (Tagging.read index).sees now = index := rfl

/-- **The call that comes last** writes the index it has read, or is going to read. -/
theorem run_last {a : Bool} (h : Duo.run (tagStep J place req) ws d = some e)
    (hok : ∀ w, e.own w = .returned true) (ha : d.own a = .returned true)
    (hb : (d.own (!a)).done < 3) :
    ws.getLast? = some (!a) ∧ ws.count a = 0 ∧ indexOf J place e.shared =
      ((d.own (!a)).sees (indexOf J place d.shared)).retag (req (!a)).key
        (clean (req (!a)).tags) := by
  induction ws generalizing d with
  | nil =>
    obtain rfl := Duo.run_nil.1 h
    rw [hok] at hb
    exact absurd hb (lt_irrefl 3)
  | cons x ws ih =>
    obtain ⟨m, hm, hr⟩ := Duo.run_cons.1 h
    obtain rfl : x = !a := by
      rcases Bool.eq_or_eq_not x a with rfl | rfl
      · exact (turn_returned hm ha).elim
      · rfl
    have hnot : ∀ {v : Bool}, m.own v = .returned false → False := fun hv => by
      have := run_returned hr hv
      rw [hok] at this
      cases this
    have hma : m.own a = .returned true := by
      have := (Duo.turn_own hm).1
      rwa [Bool.not_not, ha] at this
    have hcount : ((!a) :: ws).count a = ws.count a := List.count_cons_of_ne (by simp)
    have hcons : ∀ {y : Bool}, ws.getLast? = some y → ((!a) :: ws).getLast? = some y := by
      intro y hy
      rw [List.getLast?_cons, hy]
      rfl
    rw [hcount]
    cases hs : d.own (!a) with
    | start =>
      obtain ⟨-, hindex, hown | hown⟩ := turn_start hm hs
      · obtain ⟨hlast, hzero, hend⟩ := ih hr hma (by rw [hown]; decide)
        rw [hown, Tagging.sees_attributed, hindex] at hend
        exact ⟨hcons hlast, hzero, hend⟩
      · exact (hnot hown).elim
    | attributed =>
      obtain ⟨-, -, hown⟩ := turn_attributed hm hs
      obtain ⟨hlast, hzero, hend⟩ := ih hr hma (by rw [hown]; exact Nat.lt_succ_self 2)
      rw [hown] at hend
      exact ⟨hcons hlast, hzero, hend⟩
    | read index =>
      obtain ⟨-, hown | ⟨hown, hindex⟩⟩ := turn_read hm hs
      · exact (hnot hown).elim
      · -- nobody is left to move
        cases ws with
        | nil =>
          obtain rfl := Duo.run_nil.1 hr
          exact ⟨rfl, rfl, hindex⟩
        | cons y ws =>
          obtain ⟨m', hm', -⟩ := Duo.run_cons.1 hr
          rcases Bool.eq_or_eq_not y a with rfl | rfl
          · exact (turn_returned hm' hma).elim
          · exact (turn_returned hm' hown).elim
    | returned ok =>
      rw [hs] at hb
      exact absurd hb (lt_irrefl 3)

/-- A step that neither finishes its call nor comes after one that has. -/
theorem inTurnFrom_cons {n n' : Bool → ℕ} {x : Bool} (hx : n' x = n x + 1)
    (hother : n' (!x) = n (!x)) (hlt : n x < 2) (hlt' : n (!x) < 3) :
    InTurnFrom n (x :: ws) ↔ InTurnFrom n' ws := by
  have hcount : ∀ a u, n' a + u.count a = n a + (x :: u).count a := by
    intro a u
    rw [List.count_cons]
    rcases Bool.eq_or_eq_not a x with rfl | rfl
    · simp only [hx, beq_self_eq_true, if_true]
      omega
    · simp [hother]
  constructor
  · intro hturn
    obtain ⟨a, u, v, huv, hthree, hone⟩ := hturn
    cases u with
    | nil =>
      rcases Bool.eq_or_eq_not a x with rfl | rfl <;> simp at hthree <;> omega
    | cons y u =>
      obtain ⟨rfl, rfl⟩ := List.cons.inj huv
      exact ⟨a, u, v, rfl, by rw [hcount, hthree], by rw [hcount]; exact hone⟩
  · intro hturn
    obtain ⟨a, u, v, rfl, hthree, hone⟩ := hturn
    exact ⟨a, x :: u, v, rfl, by rw [← hcount, hthree], by rw [← hcount]; exact hone⟩

/-- A call that is about to finish as the first comes in turn when the other has not read yet. -/
theorem inTurnFrom_finish {n : Bool → ℕ} {x : Bool} (hx : n x = 2) (hlt : n (!x) < 3) :
    InTurnFrom n (x :: ws) ↔ n (!x) ≤ 1 := by
  constructor
  · intro hturn
    obtain ⟨a, u, v, huv, hthree, hone⟩ := hturn
    cases u with
    | nil =>
      rcases Bool.eq_or_eq_not a x with rfl | rfl <;> simp at hthree <;> omega
    | cons y u =>
      obtain ⟨rfl, -⟩ := List.cons.inj huv
      rw [List.count_cons] at hthree hone
      rcases Bool.eq_or_eq_not a x with rfl | rfl
      · omega
      · simp [hx] at hone
        omega
  · intro hone
    refine ⟨x, [x], ws, rfl, ?_, ?_⟩
    · simp [hx]
    · simpa using hone

/-- **Two calls**: the last one writes what the first one wrote where they come in turn, and else
the index as it was before both. -/
theorem run_both (h : Duo.run (tagStep J place req) ws d = some e)
    (hok : ∀ w, e.own w = .returned true) (hd : ∀ w, (d.own w).done < 3)
    (hsees : ∀ w, (d.own w).sees (indexOf J place d.shared) = indexOf J place d.shared) :
    ∃ a before, ws.getLast? = some (!a) ∧
      (InTurnFrom (fun w => (d.own w).done) ws → before =
        (indexOf J place d.shared).retag (req a).key (clean (req a).tags)) ∧
      (¬ InTurnFrom (fun w => (d.own w).done) ws → before = indexOf J place d.shared) ∧
      indexOf J place e.shared = before.retag (req (!a)).key (clean (req (!a)).tags) := by
  induction ws generalizing d with
  | nil =>
    obtain rfl := Duo.run_nil.1 h
    have := hd true
    rw [hok] at this
    exact absurd this (lt_irrefl 3)
  | cons x ws ih =>
    obtain ⟨m, hm, hr⟩ := Duo.run_cons.1 h
    have hnot : ∀ {v : Bool}, m.own v = .returned false → False := fun hv => by
      have := run_returned hr hv
      rw [hok] at this
      cases this
    have hcons : ∀ {y : Bool}, ws.getLast? = some y → (x :: ws).getLast? = some y := by
      intro y hy
      rw [List.getLast?_cons, hy]
      rfl
    -- a step that leaves the index alone and goes on
    have hgo : (d.own x).done < 2 → (m.own x).done = (d.own x).done + 1 →
        m.own (!x) = d.own (!x) → indexOf J place m.shared = indexOf J place d.shared →
        (m.own x).sees (indexOf J place d.shared) = indexOf J place d.shared →
        ∃ a before, (x :: ws).getLast? = some (!a) ∧
          (InTurnFrom (fun w => (d.own w).done) (x :: ws) → before =
            (indexOf J place d.shared).retag (req a).key (clean (req a).tags)) ∧
          (¬ InTurnFrom (fun w => (d.own w).done) (x :: ws) →
            before = indexOf J place d.shared) ∧
          indexOf J place e.shared = before.retag (req (!a)).key (clean (req (!a)).tags) := by
      intro hlt hdone hother hindex hsaw
      have hiff : InTurnFrom (fun w => (d.own w).done) (x :: ws) ↔
          InTurnFrom (fun w => (m.own w).done) ws :=
        inTurnFrom_cons hdone (by simp only [hother]) hlt (hd _)
      have hmd : ∀ w, (m.own w).done < 3 := by
        intro w
        rcases Bool.eq_or_eq_not w x with rfl | rfl
        · omega
        · rw [hother]
          exact hd _
      have hmsees : ∀ w, (m.own w).sees (indexOf J place m.shared) = indexOf J place m.shared := by
        intro w
        rw [hindex]
        rcases Bool.eq_or_eq_not w x with rfl | rfl
        · exact hsaw
        · rw [hother]
          exact hsees _
      obtain ⟨a, before, hlast, hin, hout, hend⟩ := ih hr hmd hmsees
      rw [hindex] at hin hout
      rw [hiff]
      exact ⟨a, before, hcons hlast, hin, hout, hend⟩
    cases hs : d.own x with
    | start =>
      obtain ⟨hother, hindex, hown | hown⟩ := turn_start hm hs
      · exact hgo (by rw [hs]; decide) (by rw [hs, hown]; rfl) hother hindex (by rw [hown]; rfl)
      · exact (hnot hown).elim
    | attributed =>
      obtain ⟨hother, hshared, hown⟩ := turn_attributed hm hs
      exact hgo (by rw [hs]; decide) (by rw [hs, hown]; rfl) hother (by rw [hshared])
        (by rw [hown]; rfl)
    | read index =>
      obtain ⟨hother, hown | ⟨hown, hindex⟩⟩ := turn_read hm hs
      · exact (hnot hown).elim
      · have hseen := hsees x
        rw [hs, Tagging.sees_read] at hseen
        subst hseen
        have hlt := hd (!x)
        obtain ⟨hlast, -, hend⟩ := run_last hr hok hown (by rw [hother]; exact hlt)
        rw [hother] at hend
        have hiff : InTurnFrom (fun w => (d.own w).done) (x :: ws) ↔ (d.own (!x)).done ≤ 1 :=
          inTurnFrom_finish (by simp only [hs]; rfl) hlt
        rw [hiff]
        refine ⟨x, _, hcons hlast, fun hone => ?_, fun hone => ?_, hend⟩
        · cases hs' : d.own (!x) with
          | start => rw [Tagging.sees_start, hindex]
          | attributed => rw [Tagging.sees_attributed, hindex]
          | read index => rw [hs'] at hone; exact absurd hone (Nat.not_succ_le_self 1)
          | returned ok => rw [hs'] at hlt; exact absurd hlt (lt_irrefl 3)
        · cases hs' : d.own (!x) with
          | start => rw [hs'] at hone; exact absurd (Nat.zero_le 1) hone
          | attributed => rw [hs'] at hone; exact absurd (le_refl 1) hone
          | read index =>
            have := hsees (!x)
            rw [hs', Tagging.sees_read] at this
            rw [Tagging.sees_read, this]
          | returned ok => rw [hs'] at hlt; exact absurd hlt (lt_irrefl 3)
    | returned ok => exact (turn_returned hm hs).elim

/-- What tagging one of the files does to the paths that are neither. -/
theorem filter_listed_retag (index : Index) (a : Bool) (tags : List Text) (tag : Text) :
    ((index.retag (req a).key tags).listed tag).filter (fun p => ∀ w, p ≠ (req w).key) =
      (index.listed tag).filter fun p => ∀ w, p ≠ (req w).key := by
  have hnone : ((if tag ∈ tags then [(req a).key] else []).filter
      fun p => decide (∀ w, p ≠ (req w).key)) = [] := by
    rw [List.filter_eq_nil_iff]
    intro p hp hne
    have hpa : p = (req a).key := by
      split at hp
      · exact List.mem_singleton.1 hp
      · exact absurd hp List.not_mem_nil
    exact (of_decide_eq_true hne) a hpa
  rw [Index.listed_retag, List.filter_append, hnone, List.append_nil, List.filter_filter]
  apply List.filter_congr
  intro p _
  rw [Bool.and_eq_left_iff_imp]
  intro hp
  exact decide_eq_true ((of_decide_eq_true hp) a)

/-- `BothTagged` of an index with one of the files tagged last. -/
theorem bothTagged_retag {before start : Index} {a : Bool}
    (hother : ∀ tag, (before.listed tag).filter (fun p => ∀ w, p ≠ (req w).key) =
      (start.listed tag).filter fun p => ∀ w, p ≠ (req w).key) :
    BothTagged req start (before.retag (req (!a)).key (clean (req (!a)).tags)) ↔
      ∀ tag, (if (req a).key = (req (!a)).key then tag ∈ clean (req (!a)).tags
        else (req a).key ∈ before.listed tag) ↔ tag ∈ clean (req a).tags := by
  unfold BothTagged
  simp only [filter_listed_retag, hother, implies_true, and_true, Index.mem_listed_retag]
  constructor
  · intro h tag
    exact h a tag
  · intro h w tag
    rcases Bool.eq_or_eq_not w a with rfl | rfl
    · exact h tag
    · rw [if_pos rfl]

/-- **Both files end up under their tags** exactly on the schedules that lose nothing. -/
theorem tagged_iff {D : Disk} (h : Duo.run (tagStep J place req) ws (tagging D) = some e)
    (hok : ∀ w, e.own w = .returned true) :
    BothTagged req (indexOf J place D) (indexOf J place e.shared) ↔
      NoneLost req (indexOf J place D) ws := by
  have hturn : InTurn ws ↔ InTurnFrom (fun w => ((tagging D).own w).done) ws := by
    simp only [InTurn, InTurnFrom, tagging, Tagging.done, Nat.zero_add]
  obtain ⟨a, before, hlast, hin, hout, hend⟩ := run_both h hok (fun _ => Nat.succ_pos 2) fun _ => rfl
  rw [← hturn] at hin hout
  have hother : ∀ tag, (before.listed tag).filter (fun p => ∀ w, p ≠ (req w).key) =
      ((indexOf J place D).listed tag).filter fun p => ∀ w, p ≠ (req w).key := by
    intro tag
    by_cases hws : InTurn ws
    · rw [hin hws]
      exact filter_listed_retag _ a _ tag
    · rw [hout hws]
      rfl
  rw [hend, bothTagged_retag hother, NoneLost]
  by_cases hkey : (req a).key = (req (!a)).key
  · have hsame : (req true).key = (req false).key := by
      cases a
      · exact hkey.symm
      · exact hkey
    simp only [if_pos hkey, if_pos hsame]
    cases a
    · rfl
    · exact forall_congr' fun tag => iff_comm
  · have hdiff : ¬ (req true).key = (req false).key := by
      cases a
      · exact fun h => hkey h.symm
      · exact hkey
    simp only [if_neg hkey, if_neg hdiff]
    by_cases hws : InTurn ws
    · rw [hin hws]
      apply iff_of_true
      · intro tag
        rw [Index.mem_listed_retag, if_pos rfl]
      · exact Or.inl hws
    · rw [hout hws, or_iff_right hws]
      constructor
      · intro hlisted b hb tag
        rw [hlast, Option.some.injEq] at hb
        obtain rfl : b = a := (Bool.not_inj hb).symm
        exact hlisted tag
      · intro hlisted
        exact hlisted a hlast

end

/-! ## Two files of one folder -/

/-- Two files, and no index yet. -/
def twoFiles : Disk where
  files :=
    { node := fun p => if p = text "/a" then some 0 else if p = text "/b" then some 1 else none
      attr := fun _ => .ok none }
  index := none

/-- A tag. -/
def work : Text := ⟨text "Work", by decide⟩

/-- Both files are to get it. -/
def tagBoth (w : Bool) : Request where
  path := if w then text "/a" else text "/b"
  tags := [work]
  answers := {}

/-- One after the other. -/
theorem tagged_in_turn :
    ∃ e, Duo.run (tagStep .standard (some ⟨[], [], []⟩) tagBoth)
        [true, true, true, false, false, false] (tagging twoFiles) = some e ∧
      BothTagged tagBoth (indexOf .standard (some ⟨[], [], []⟩) twoFiles)
        (indexOf .standard (some ⟨[], [], []⟩) e.shared) := by
  obtain ⟨e, h, hok⟩ : ∃ e, Duo.run (tagStep .standard (some ⟨[], [], []⟩) tagBoth)
      [true, true, true, false, false, false] (tagging twoFiles) = some e ∧
        decide (∀ w, e.own w = .returned true) = true :=
    (Option.any_eq_true _ _).1 (by decide)
  refine ⟨e, h, (tagged_iff h (of_decide_eq_true hok)).2 ?_⟩
  rw [NoneLost, if_neg (by decide)]
  exact Or.inl ⟨true, [true, true, true], [false, false, false], rfl, by decide, by decide⟩

/-- Both calls read the index before either writes it: the first file to be entered is lost. -/
theorem tag_lost :
    ∃ e, Duo.run (tagStep .standard (some ⟨[], [], []⟩) tagBoth)
        [true, true, false, false, true, false] (tagging twoFiles) = some e ∧
      (∀ w, e.own w = .returned true) ∧
      ¬BothTagged tagBoth (indexOf .standard (some ⟨[], [], []⟩) twoFiles)
        (indexOf .standard (some ⟨[], [], []⟩) e.shared) := by
  obtain ⟨e, h, hcheck⟩ : ∃ e, Duo.run (tagStep .standard (some ⟨[], [], []⟩) tagBoth)
      [true, true, false, false, true, false] (tagging twoFiles) = some e ∧
        decide ((∀ w, e.own w = .returned true) ∧ (tagBoth true).key ∉
          (indexOf .standard (some ⟨[], [], []⟩) e.shared).listed work) = true :=
    (Option.any_eq_true _ _).1 (by decide)
  obtain ⟨hok, hgone⟩ := of_decide_eq_true hcheck
  refine ⟨e, h, hok, fun hboth => hgone ((hboth.1 true work).2 ?_)⟩
  decide

end Aurade.Stores
