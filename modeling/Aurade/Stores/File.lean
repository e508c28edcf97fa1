import Aurade.Foundations.Act
import Aurade.Foundations.Text
import Aurade.Fs.Error

/-!
# Reading and writing a store

How the stores are read (`read_to_string`, with every error taken for an empty text) and how they
are written: a temporary file beside the store, renamed over it. A save that fails leaves the store
as it was, whichever of its calls failed (`writeNew_error`, `writeAtomically_error`).
-/

namespace Aurade.Stores

open Fs

/-- `read_to_string` with its error dropped: `fails` is a read the kernel refuses. -/
def readToString (fails : Bool) (file : Option Bytes) : Option Text :=
  if fails then none else file.bind Text.ofBytes?

theorem readToString_fails (file : Option Bytes) : readToString true file = none := rfl

theorem readToString_text (t : Text) : readToString false (some t.val) = some t :=
  Text.ofBytes?_val t

/-- A file that is no text cannot be read as one. -/
theorem readToString_invalid {bs : Bytes} (h : Utf8.valid bs = false) (fails : Bool) :
    readToString fails (some bs) = none := by
  cases fails with
  | true => rfl
  | false => exact dif_neg (by rw [h]; simp)

/-- Where a store is. -/
structure Place where
  /-- Its directory. -/
  dir : PathBuf
  /-- The store. -/
  path : PathBuf
  /-- The temporary file beside it. -/
  tmp : PathBuf

/-- What the kernel answers to the calls of one save. -/
structure SaveCalls where
  createDir : Option Errno := none
  write : Option Errno := none
  sync : Option Errno := none
  rename : Option Errno := none

/-- The outcome of a call on `path`. -/
def answer (path : PathBuf) : Option Errno → Except Error Unit
  | none => .ok ()
  | some e => .error (.ofErrno [.path path] e)

variable {σ : Type}

/-- `write_new`: write through a temporary file and rename, and make the directory first. -/
def writeNew (c : SaveCalls) (place : Place) (put : Bytes → σ → σ) (bs : Bytes) :
    Act σ Error Unit := do
  Act.lift (answer place.dir c.createDir)
  Act.lift (answer place.tmp c.write)
  Act.lift (answer place.path c.rename)
  Act.modify (put bs)

/-- `write_atomically`: the same in a directory that is there, and flushed before the rename. -/
def writeAtomically (c : SaveCalls) (place : Place) (put : Bytes → σ → σ) (bs : Bytes) :
    Act σ Error Unit := do
  Act.lift (answer place.tmp c.write)
  Act.lift (answer place.tmp c.sync)
  Act.lift (answer place.path c.rename)
  Act.modify (put bs)

/-- Every call that `write_new` makes goes well. -/
def SaveCalls.Works (c : SaveCalls) : Prop :=
  c.createDir = none ∧ c.write = none ∧ c.rename = none

instance : DecidablePred SaveCalls.Works := fun _ => inferInstanceAs (Decidable (_ ∧ _))

/-- Every call that `write_atomically` makes goes well. -/
def SaveCalls.Flushes (c : SaveCalls) : Prop :=
  c.write = none ∧ c.sync = none ∧ c.rename = none

instance : DecidablePred SaveCalls.Flushes := fun _ => inferInstanceAs (Decidable (_ ∧ _))

section

variable (c : SaveCalls) (place : Place) (put : Bytes → σ → σ) (bs : Bytes) (s : σ)

theorem writeNew_ok (h : c.Works) : writeNew c place put bs s = (.ok (), put bs s) := by
  obtain ⟨hdir, hwrite, hrename⟩ := h
  simp only [writeNew, hdir, hwrite, hrename]
  rfl

/-- A save that fails leaves the store as it was. -/
theorem writeNew_error (h : ¬ c.Works) : ∃ e, writeNew c place put bs s = (.error e, s) := by
  unfold writeNew
  cases hdir : c.createDir with
  | some e => exact ⟨_, rfl⟩
  | none =>
    cases hwrite : c.write with
    | some e => exact ⟨_, rfl⟩
    | none =>
      cases hrename : c.rename with
      | some e => exact ⟨_, rfl⟩
      | none => exact absurd ⟨hdir, hwrite, hrename⟩ h

theorem writeAtomically_ok (h : c.Flushes) :
    writeAtomically c place put bs s = (.ok (), put bs s) := by
  obtain ⟨hwrite, hsync, hrename⟩ := h
  simp only [writeAtomically, hwrite, hsync, hrename]
  rfl

theorem writeAtomically_error (h : ¬ c.Flushes) :
    ∃ e, writeAtomically c place put bs s = (.error e, s) := by
  unfold writeAtomically
  cases hwrite : c.write with
  | some e => exact ⟨_, rfl⟩
  | none =>
    cases hsync : c.sync with
    | some e => exact ⟨_, rfl⟩
    | none =>
      cases hrename : c.rename with
      | some e => exact ⟨_, rfl⟩
      | none => exact absurd ⟨hwrite, hsync, hrename⟩ h

end

end Aurade.Stores
