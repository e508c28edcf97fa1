import Aurade.Foundations.Bytes
import Aurade.Foundations.Schedule

/-!
# Two writers of one store

The tag index, the bookmarks, the recent list and `mimeapps.list` are all written the same way:
`write_index`, `write_new` and `write_atomically` make a temporary file beside the store, write the
text to it and rename it over the store. The temporary file is `<stem>.tmp<pid>`, one name for every
thread of the daemon, which serves each connection on a thread of its own.

The directory is modelled down to its files, because what a name stands for changes under an open
file: a rename takes the name away and leaves the file, and whoever still holds it open writes into
what is now the store.

* `saveStep` is the next step of a call, `Dir` what both calls see.
* `settled_iff` says for every schedule of two calls whether they leave a whole store: it is
  `Spared`, which asks that neither truncates the temporary file under the other.
-/

namespace Aurade.Stores

/-! ## The directory of a store -/

/-- The files of the store's directory that a call names, and what renames have put in place. -/
structure Dir where
  /-- What each file holds. A file may have lost its name. -/
  bytes : ℕ → Bytes
  /-- The file the temporary name stands for. -/
  temp : Option ℕ
  /-- The file the store's name stands for. -/
  store : Option ℕ
  /-- No file from here on has been used. -/
  next : ℕ
  /-- What each rename put in place, and whose rename it was. -/
  installed : List (Bool × Bytes)
  temp_lt : ∀ i ∈ temp, i < next
  store_lt : ∀ i ∈ store, i < next
  apart : ∀ i ∈ temp, i ∉ store

namespace Dir

/-- What a reader of the store sees. -/
def text (d : Dir) : Option Bytes := d.store.map d.bytes

/-- The same files with other contents. -/
def fill (d : Dir) (i : ℕ) (bs : Bytes) : Dir :=
  { d with bytes := Function.update d.bytes i bs }

/-- The file `File::create` opens under the temporary name: the one there, or a new one. -/
def opens (d : Dir) : ℕ := d.temp.getD d.next

/-- `File::create` on the temporary name, which empties the file. -/
def create (d : Dir) : Dir :=
  { d.fill d.opens [] with
    temp := some d.opens
    next := d.next + 1
    temp_lt := fun i hi => by
      obtain rfl : d.opens = i := by simpa using hi
      unfold opens
      cases h : d.temp with
      | none => simp
      | some j => exact Nat.lt_succ_of_lt (d.temp_lt j h)
    store_lt := fun i hi => Nat.lt_succ_of_lt (d.store_lt i hi)
    apart := fun i hi hs => by
      obtain rfl : d.opens = i := by simpa using hi
      unfold opens at hs
      cases h : d.temp with
      | none => exact absurd (d.store_lt _ (by simpa [h, fill] using hs)) (lt_irrefl _)
      | some j => exact d.apart j h (by simpa [h, fill] using hs) }

/-- Bytes written over the front of what a file holds. -/
def overlay (new old : Bytes) : Bytes := new ++ old.drop new.length

/-- `write_all` to the open file `i`, from its start. -/
def write (d : Dir) (i : ℕ) (bs : Bytes) : Dir := d.fill i (overlay bs (d.bytes i))

/-- `rename` of the temporary name over the store's, by worker `w`. There may be none to rename. -/
def rename (d : Dir) (w : Bool) : Option Dir :=
  if h : d.temp.isSome then
    some
      { d with
        temp := none
        store := d.temp
        installed := (w, d.bytes (d.temp.get h)) :: d.installed
        temp_lt := by simp
        store_lt := d.temp_lt
        apart := by simp }
  else none

/-- `remove_file` on the temporary name, with its outcome dropped. -/
def remove (d : Dir) : Dir :=
  { d with temp := none, temp_lt := by simp, apart := by simp }

end Dir

/-! ## A call that writes the store -/

/-- How far a call has come. -/
inductive Saving where
  /-- Before the temporary file is made. -/
  | start
  /-- It has the file open. -/
  | opened (i : ℕ)
  /-- Its bytes are written. -/
  | written
  /-- The rename failed and the temporary file is still to be removed. -/
  | refused
  /-- It has returned, with `Ok` or not. -/
  | returned (ok : Bool)
  deriving DecidableEq

/-- The next step of the call of worker `w` that writes `text w`. `write_atomically` also flushes
the file before its rename, which nothing here can see. -/
def saveStep (text : Bool → Bytes) (w : Bool) : Saving → Dir → Option (Saving × Dir)
  | .start, d => some (.opened d.opens, d.create)
  | .opened i, d => some (.written, d.write i (text w))
  | .written, d =>
    match d.rename w with
    | some d => some (.returned true, d)
    | none => some (.refused, d)
  | .refused, d => some (.returned false, d.remove)
  | .returned _, _ => none

/-- Two calls that have not begun. -/
def saving (d : Dir) : Duo Dir Saving := ⟨{ d with installed := [] }, fun _ => .start⟩

/-- Both calls have returned. -/
def Returned (e : Duo Dir Saving) : Prop := ∀ w, ∃ ok, e.own w = .returned ok

/-- The store holds the whole text of one of the calls, and a call that returned `Ok` put its own
text in place. -/
def Settled (text : Bool → Bytes) (e : Duo Dir Saving) : Prop :=
  (∃ w, e.shared.text = some (text w)) ∧
    ∀ w, e.own w = .returned true → (w, text w) ∈ e.shared.installed

/-- The schedules, by their first five steps, that leave a whole store. -/
def Spared (text : Bool → Bytes) : List Bool → Prop
  | a :: b :: p :: q :: r :: _ =>
    if a = b then
      -- `a` has written: the other comes after its rename, or between the write and the rename
      if p = a then True
      else if q = a then text a = []
      else if r = a then text a = text p
      else True
    -- both have the one file open
    else if p = q then
      Dir.overlay (text (!p)) (text p) = text p ∨ Dir.overlay (text (!p)) (text p) = text (!p)
    else Dir.overlay (text q) (text p) = text r
  | _ => True

/-! ## What one step does -/

namespace Dir

variable {d : Dir} {i : ℕ} {bs : Bytes} {w : Bool}

theorem bytes_write : (d.write i bs).bytes i = overlay bs (d.bytes i) := by
  simp [write, fill]

theorem bytes_create : d.create.bytes d.opens = [] := by
  simp [create, fill]

theorem overlay_nil : overlay bs [] = bs := by
  simp [overlay]

/-- A rename with a temporary file there. -/
theorem rename_some (h : d.temp = some i) :
    ∃ m, d.rename w = some m ∧ m.temp = none ∧ m.store = some i ∧ m.bytes = d.bytes ∧
      m.installed = (w, d.bytes i) :: d.installed := by
  have hsome : d.temp.isSome := by rw [h]; rfl
  refine ⟨_, dif_pos hsome, rfl, h, rfl, ?_⟩
  simp [h]

theorem rename_none (h : d.temp = none) : d.rename w = none :=
  dif_neg (by simp [h])

end Dir

section

variable {text : Bool → Bytes} {w : Bool} {d m e : Duo Dir Saving} {ws : List Bool}

/-- What a call does from here on when the other has returned. -/
def solo (text : Bool → Bytes) (w : Bool) : Saving → Dir → Saving × Dir
  | .start, d => finish w (d.create.write d.opens (text w))
  | .opened i, d => finish w (d.write i (text w))
  | .written, d => finish w d
  | .refused, d => (.returned false, d.remove)
  | .returned ok, d => (.returned ok, d)
where
  /-- The rename and what follows it. -/
  finish (w : Bool) (d : Dir) : Saving × Dir :=
    match d.rename w with
    | some d => (.returned true, d)
    | none => (.returned false, d.remove)

/-- A call goes on as it would without the step it has taken. -/
theorem solo_step {s s' : Saving} {D D' : Dir} (h : saveStep text w s D = some (s', D')) :
    solo text w s' D' = solo text w s D := by
  cases s with
  | start =>
    obtain ⟨rfl, rfl⟩ := Prod.mk.inj (Option.some.inj h)
    rfl
  | opened i =>
    obtain ⟨rfl, rfl⟩ := Prod.mk.inj (Option.some.inj h)
    rfl
  | written =>
    simp only [saveStep] at h
    simp only [solo, solo.finish]
    split at h
    · obtain ⟨rfl, rfl⟩ := Prod.mk.inj (Option.some.inj h)
      rfl
    · obtain ⟨rfl, rfl⟩ := Prod.mk.inj (Option.some.inj h)
      rfl
  | refused =>
    obtain ⟨rfl, rfl⟩ := Prod.mk.inj (Option.some.inj h)
    rfl
  | returned ok => cases h

/-- **The last of two calls runs to its end alone.** -/
theorem run_solo {ok : Bool} (h : Duo.run (saveStep text) ws d = some e) (he : Returned e)
    (hw : d.own (!w) = .returned ok) :
    e.own (!w) = .returned ok ∧ (e.own w, e.shared) = solo text w (d.own w) d.shared := by
  induction ws generalizing d with
  | nil =>
    obtain rfl := Duo.run_nil.1 h
    obtain ⟨ok', hok'⟩ := he w
    exact ⟨hw, by rw [hok']; rfl⟩
  | cons x ws ih =>
    obtain ⟨m, hm, h⟩ := Duo.run_cons.1 h
    obtain ⟨hother, hown⟩ := Duo.turn_own hm
    have hx : x = w := by
      by_contra hne
      obtain rfl : x = !w := by cases x <;> cases w <;> simp at hne ⊢
      rw [hw] at hown
      cases hown
    subst hx
    obtain ⟨hret, hend⟩ := ih h (hother.trans hw)
    exact ⟨hret, hend.trans (solo_step hown)⟩

/-- A schedule that ends with both returned begins with a step while one has not. -/
theorem exists_cons (h : Duo.run (saveStep text) ws d = some e) (he : Returned e)
    (hw : ∀ ok, d.own w ≠ .returned ok) :
    ∃ x ws' m, ws = x :: ws' ∧ Duo.turn (saveStep text) x d = some m ∧
      Duo.run (saveStep text) ws' m = some e := by
  cases ws with
  | nil =>
    obtain rfl := Duo.run_nil.1 h
    obtain ⟨ok, hok⟩ := he w
    exact absurd hok (hw ok)
  | cons x ws =>
    obtain ⟨m, hm, h⟩ := Duo.run_cons.1 h
    exact ⟨x, ws, m, rfl, hm, h⟩

theorem settled_iff_of_returned {a b : Bool} (hw : e.own w = .returned a)
    (hn : e.own (!w) = .returned b) :
    Settled text e ↔
      (e.shared.text = some (text w) ∨ e.shared.text = some (text (!w))) ∧
        (a = true → (w, text w) ∈ e.shared.installed) ∧
          (b = true → ((!w), text (!w)) ∈ e.shared.installed) := by
  unfold Settled
  have hall : ∀ P : Bool → Prop, (∀ v, P v) ↔ P w ∧ P !w := by cases w <;> simp [and_comm]
  have hex : ∀ P : Bool → Prop, (∃ v, P v) ↔ P w ∨ P !w := by cases w <;> simp [or_comm]
  rw [hall, hex, hw, hn]
  simp only [Saving.returned.injEq]

/-- The other call still has the file open that is the store by now: it writes into the store and
finds no temporary file to rename. -/
theorem settled_late_write {i : ℕ} {c : Bytes} (h : Duo.run (saveStep text) ws d = some e)
    (he : Returned e) (hw : d.own w = .returned true) (hn : d.own (!w) = .opened i)
    (htemp : d.shared.temp = none) (hstore : d.shared.store = some i)
    (hlog : d.shared.installed = [(w, c)]) :
    Settled text e ↔
      (Dir.overlay (text (!w)) (d.shared.bytes i) = text w ∨
        Dir.overlay (text (!w)) (d.shared.bytes i) = text (!w)) ∧ c = text w := by
  obtain ⟨hret, hend⟩ := run_solo (w := !w) h he (by rwa [Bool.not_not])
  rw [Bool.not_not] at hret
  have hnone : (d.shared.write i (text (!w))).rename (!w) = none := Dir.rename_none htemp
  rw [hn, solo, solo.finish, hnone, Prod.mk.injEq] at hend
  rw [settled_iff_of_returned hret hend.1, hend.2]
  have htext : (d.shared.write i (text (!w))).remove.text =
      some (Dir.overlay (text (!w)) (d.shared.bytes i)) := by
    simp [Dir.text, Dir.remove, Dir.write, Dir.fill, hstore]
  have hinst : (d.shared.write i (text (!w))).remove.installed = [(w, c)] := hlog
  rw [htext, hinst]
  simp [eq_comm]

/-- Both calls have written the one file: whoever renames it first puts in place what it holds, and
the other finds nothing to rename. -/
theorem settled_both_written {i : ℕ} (h : Duo.run (saveStep text) ws d = some e)
    (he : Returned e) (hown : ∀ w, d.own w = .written) (htemp : d.shared.temp = some i)
    (hlog : d.shared.installed = []) :
    ∃ r ws', ws = r :: ws' ∧ (Settled text e ↔ d.shared.bytes i = text r) := by
  obtain ⟨r, ws', m, rfl, hm, h⟩ := exists_cons (w := true) h he (by simp [hown])
  refine ⟨r, ws', rfl, ?_⟩
  obtain ⟨hother, hstep⟩ := Duo.turn_own hm
  obtain ⟨D, hD, hDtemp, hDstore, hDbytes, hDlog⟩ := Dir.rename_some (w := r) htemp
  rw [hown, saveStep, hD, Option.some.injEq, Prod.mk.injEq] at hstep
  rw [hown] at hother
  obtain ⟨hret, hend⟩ := run_solo (w := !r) h he (by rw [Bool.not_not, ← hstep.1])
  rw [Bool.not_not] at hret
  have hnone : m.shared.rename (!r) = none := Dir.rename_none (by rw [← hstep.2, hDtemp])
  rw [hother, solo, solo.finish, hnone, Prod.mk.injEq] at hend
  rw [settled_iff_of_returned hret hend.1, hend.2]
  have htext : m.shared.remove.text = some (d.shared.bytes i) := by
    simp [Dir.text, Dir.remove, ← hstep.2, hDstore, hDbytes]
  have hinst : m.shared.remove.installed = [(r, d.shared.bytes i)] := by
    rw [hlog] at hDlog
    rw [← hDlog, hstep.2]
    rfl
  rw [htext, hinst]
  simp [eq_comm]
  tauto

/-- A call comes whole after the other: it makes a file of its own and puts it in place. -/
theorem settled_after {c : Bytes} (h : Duo.run (saveStep text) ws d = some e)
    (he : Returned e) (hw : d.own w = .returned true) (hn : d.own (!w) = .start)
    (hlog : d.shared.installed = [(w, c)]) : Settled text e ↔ c = text w := by
  obtain ⟨hret, hend⟩ := run_solo (w := !w) h he (by rwa [Bool.not_not])
  rw [Bool.not_not] at hret
  obtain ⟨D, hD, -, hDstore, hDbytes, hDlog⟩ := Dir.rename_some (w := !w)
    (d := d.shared.create.write d.shared.opens (text (!w))) (i := d.shared.opens) rfl
  rw [hn, solo, solo.finish, hD, Prod.mk.injEq] at hend
  rw [settled_iff_of_returned hret hend.1, hend.2]
  have hbytes : (d.shared.create.write d.shared.opens (text (!w))).bytes d.shared.opens =
      text (!w) := by
    rw [Dir.bytes_write, Dir.bytes_create, Dir.overlay_nil]
  have htext : D.text = some (text (!w)) := by
    rw [Dir.text, hDstore, hDbytes, Option.map_some, hbytes]
  have hinst : D.installed = [((!w), text (!w)), (w, c)] := by
    rw [hDlog, hbytes]
    exact congrArg _ hlog
  rw [htext, hinst]
  simp [eq_comm]

/-- The first call has written and the other has not begun. -/
theorem settled_of_written {i : ℕ} {a : Bool} (h : Duo.run (saveStep text) ws d = some e)
    (he : Returned e) (hw : d.own a = .written) (hn : d.own (!a) = .start)
    (htemp : d.shared.temp = some i) (hbytes : d.shared.bytes i = text a)
    (hlog : d.shared.installed = []) : Settled text e ↔ Spared text (a :: a :: ws) := by
  obtain ⟨p, ws₁, m₁, rfl, h₁, hr₁⟩ := exists_cons (w := a) h he (by simp [hw])
  obtain ⟨hn₁, hs₁⟩ := Duo.turn_own h₁
  rcases Bool.eq_or_eq_not p a with rfl | rfl
  · -- it renames before the other begins
    obtain ⟨D, hD, -, -, -, hDlog⟩ := Dir.rename_some (w := p) htemp
    rw [hw, saveStep, hD, Option.some.injEq, Prod.mk.injEq] at hs₁
    rw [hs₁.2, hlog, hbytes] at hDlog
    rw [settled_after hr₁ he hs₁.1.symm (hn₁.trans hn) hDlog]
    rcases ws₁ with _ | ⟨q, _ | ⟨r, ws₁⟩⟩ <;> simp [Spared]
  · -- the other empties the file
    rw [hn, saveStep, Option.some.injEq, Prod.mk.injEq] at hs₁
    rw [Bool.not_not, hw] at hn₁
    have hi : d.shared.opens = i := by rw [Dir.opens, htemp]; rfl
    have hopen : m₁.own (!a) = .opened i := by rw [← hs₁.1, hi]
    have htemp₁ : m₁.shared.temp = some i := by rw [← hs₁.2, ← hi]; rfl
    have hbytes₁ : m₁.shared.bytes i = [] := by rw [← hs₁.2, ← hi, Dir.bytes_create]
    have hlog₁ : m₁.shared.installed = [] := by rw [← hs₁.2]; exact hlog
    obtain ⟨q, ws₂, m₂, rfl, h₂, hr₂⟩ := exists_cons (w := a) hr₁ he (by simp [hn₁])
    obtain ⟨hn₂, hs₂⟩ := Duo.turn_own h₂
    rcases Bool.eq_or_eq_not q a with rfl | rfl
    · -- an empty file is put in place
      obtain ⟨D, hD, hDtemp, hDstore, hDbytes, hDlog⟩ := Dir.rename_some (w := q) htemp₁
      rw [hn₁, saveStep, hD, Option.some.injEq, Prod.mk.injEq] at hs₂
      rw [hs₂.2] at hDtemp hDstore hDbytes hDlog
      rw [hlog₁, hbytes₁] at hDlog
      obtain ⟨r, ws₃, m₃, rfl, -, -⟩ := exists_cons (w := !q) hr₂ he (by simp [hn₂, hopen])
      rw [settled_late_write hr₂ he hs₂.1.symm (hn₂.trans hopen) hDtemp hDstore hDlog, hDbytes,
        hbytes₁, Dir.overlay_nil]
      simp [Spared, eq_comm]
    · rw [hopen, saveStep, Option.some.injEq, Prod.mk.injEq] at hs₂
      rw [Bool.not_not, hn₁] at hn₂
      have hboth : ∀ w, m₂.own w = .written := by
        intro w
        rcases Bool.eq_or_eq_not w a with rfl | rfl
        · exact hn₂
        · exact hs₂.1.symm
      have htemp₂ : m₂.shared.temp = some i := by rw [← hs₂.2]; exact htemp₁
      have hlog₂ : m₂.shared.installed = [] := by rw [← hs₂.2]; exact hlog₁
      have hbytes₂ : m₂.shared.bytes i = text (!a) := by
        rw [← hs₂.2, Dir.bytes_write, hbytes₁, Dir.overlay_nil]
      obtain ⟨r, ws₃, rfl, hiff⟩ := settled_both_written hr₂ he hboth htemp₂ hlog₂
      rw [hiff, hbytes₂]
      rcases Bool.eq_or_eq_not r a with rfl | rfl <;> simp [Spared, eq_comm]

/-- Both calls have the one file open and nothing is written to it. -/
theorem settled_of_both_open {i : ℕ} {a : Bool} (h : Duo.run (saveStep text) ws d = some e)
    (he : Returned e) (hown : ∀ w, d.own w = .opened i) (htemp : d.shared.temp = some i)
    (hbytes : d.shared.bytes i = []) (hlog : d.shared.installed = []) :
    Settled text e ↔ Spared text (a :: (!a) :: ws) := by
  obtain ⟨p, ws₁, m₁, rfl, h₁, hr₁⟩ := exists_cons (w := a) h he (by simp [hown])
  obtain ⟨hn₁, hs₁⟩ := Duo.turn_own h₁
  rw [hown, saveStep, Option.some.injEq, Prod.mk.injEq] at hs₁
  rw [hown] at hn₁
  have htemp₁ : m₁.shared.temp = some i := by rw [← hs₁.2]; exact htemp
  have hlog₁ : m₁.shared.installed = [] := by rw [← hs₁.2]; exact hlog
  have hbytes₁ : m₁.shared.bytes i = text p := by
    rw [← hs₁.2, Dir.bytes_write, hbytes, Dir.overlay_nil]
  obtain ⟨q, ws₂, m₂, rfl, h₂, hr₂⟩ := exists_cons (w := p) hr₁ he (by simp [← hs₁.1])
  obtain ⟨hn₂, hs₂⟩ := Duo.turn_own h₂
  rcases Bool.eq_or_eq_not q p with rfl | rfl
  · -- it puts its text in place, and the other writes over it there
    obtain ⟨D, hD, hDtemp, hDstore, hDbytes, hDlog⟩ := Dir.rename_some (w := q) htemp₁
    rw [← hs₁.1, saveStep, hD, Option.some.injEq, Prod.mk.injEq] at hs₂
    rw [hs₂.2] at hDtemp hDstore hDbytes hDlog
    rw [hlog₁, hbytes₁] at hDlog
    obtain ⟨r, ws₃, m₃, rfl, -, -⟩ := exists_cons (w := !q) hr₂ he (by simp [hn₂, hn₁])
    rw [settled_late_write hr₂ he hs₂.1.symm (hn₂.trans hn₁) hDtemp hDstore hDlog, hDbytes,
      hbytes₁]
    simp [Spared]
  · rw [hn₁, saveStep, Option.some.injEq, Prod.mk.injEq] at hs₂
    rw [Bool.not_not, ← hs₁.1] at hn₂
    have hboth : ∀ w, m₂.own w = .written := by
      intro w
      rcases Bool.eq_or_eq_not w p with rfl | rfl
      · exact hn₂
      · exact hs₂.1.symm
    have htemp₂ : m₂.shared.temp = some i := by rw [← hs₂.2]; exact htemp₁
    have hlog₂ : m₂.shared.installed = [] := by rw [← hs₂.2]; exact hlog₁
    have hbytes₂ : m₂.shared.bytes i = Dir.overlay (text (!p)) (text p) := by
      rw [← hs₂.2, Dir.bytes_write, hbytes₁]
    obtain ⟨r, ws₃, rfl, hiff⟩ := settled_both_written hr₂ he hboth htemp₂ hlog₂
    rw [hiff, hbytes₂]
    simp [Spared]

/-- **Two calls leave a whole store, with what each says of its own text true, on exactly the
spared schedules.** -/
theorem settled_iff {D : Dir} (h : Duo.run (saveStep text) ws (saving D) = some e)
    (he : Returned e) : Settled text e ↔ Spared text ws := by
  obtain ⟨a, ws₁, m₁, rfl, h₁, hr₁⟩ := exists_cons (w := true) h he (by simp [saving])
  obtain ⟨hn₁, hs₁⟩ := Duo.turn_own h₁
  simp only [saving, saveStep, Option.some.injEq, Prod.mk.injEq] at hn₁ hs₁
  obtain ⟨hw₁, hD₁⟩ := hs₁
  generalize hi : Dir.opens { D with installed := [] } = i at hw₁
  have htemp₁ : m₁.shared.temp = some i := by rw [← hD₁, ← hi]; rfl
  have hbytes₁ : m₁.shared.bytes i = [] := by rw [← hD₁, ← hi, Dir.bytes_create]
  have hlog₁ : m₁.shared.installed = [] := by rw [← hD₁]; rfl
  obtain ⟨b, ws₂, m₂, rfl, h₂, hr₂⟩ := exists_cons (w := a) hr₁ he (by simp [← hw₁])
  obtain ⟨hn₂, hs₂⟩ := Duo.turn_own h₂
  rcases Bool.eq_or_eq_not b a with rfl | rfl
  · rw [← hw₁, saveStep, Option.some.injEq, Prod.mk.injEq] at hs₂
    refine settled_of_written hr₂ he hs₂.1.symm (hn₂.trans hn₁) (i := i) ?_ ?_ ?_
    · rw [← hs₂.2]
      exact htemp₁
    · rw [← hs₂.2, Dir.bytes_write, hbytes₁, Dir.overlay_nil]
    · rw [← hs₂.2]
      exact hlog₁
  · rw [hn₁, saveStep, Option.some.injEq, Prod.mk.injEq] at hs₂
    rw [Bool.not_not, ← hw₁] at hn₂
    have hopens : m₁.shared.opens = i := by rw [Dir.opens, htemp₁]; rfl
    refine settled_of_both_open hr₂ he (i := i) ?_ ?_ ?_ ?_
    · intro w
      rcases Bool.eq_or_eq_not w a with rfl | rfl
      · exact hn₂
      · rw [← hs₂.1, hopens]
    · rw [← hs₂.2, ← hopens]
      rfl
    · rw [← hs₂.2, ← hopens, Dir.bytes_create]
    · rw [← hs₂.2]
      exact hlog₁

end

/-! ## Two folders pinned at once -/

/-- A bookmarks file of one line. -/
def onePinned : Dir where
  bytes _ := text "file:///a\n"
  temp := none
  store := some 0
  next := 1
  installed := []
  temp_lt := by simp
  store_lt := by simp
  apart := by simp

/-- What two calls of `add_bookmark` write that have both read `onePinned`. -/
def pinTwo (w : Bool) : Bytes :=
  if w then text "file:///a\nfile:///b\n" else text "file:///a\nfile:///long\n"

/-- One after the other. -/
theorem settled_in_turn :
    ∃ e, Duo.run (saveStep pinTwo) [true, true, true, false, false, false] (saving onePinned) =
      some e ∧ Settled pinTwo e := by
  obtain ⟨e, h⟩ : ∃ e, Duo.run (saveStep pinTwo) [true, true, true, false, false, false]
      (saving onePinned) = some e := ⟨_, rfl⟩
  refine ⟨e, h, (settled_iff h fun w => ⟨true, ?_⟩).2 (by simp [Spared])⟩
  obtain rfl := Option.some.inj h
  cases w <;> rfl

/-- Both open the temporary file before either writes: the shorter text is written over the longer
one, and the store is neither. -/
theorem torn_store :
    ∃ e, Duo.run (saveStep pinTwo) [false, true, false, true, false, true, true]
      (saving onePinned) = some e ∧ Returned e ∧
        e.shared.text = some (text "file:///a\nfile:///b\nng\n") ∧ ¬Settled pinTwo e := by
  refine ⟨_, rfl, fun w => ⟨!w, by cases w <;> rfl⟩, by decide, ?_⟩
  intro h
  obtain ⟨w, hw⟩ := h.1
  revert hw
  cases w <;> decide

end Aurade.Stores
