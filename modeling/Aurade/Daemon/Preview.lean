import Aurade.Daemon.Http
import Aurade.Fs.Error

/-!
# Previews

A preview is the start of a file, as text where it is text. It is read with one call, into a buffer of as
many bytes as were asked for, and what came back is called binary where it is no UTF-8: a file that is
nothing but text is binary whenever the cut falls inside a character (`preview_iff`).
-/

namespace Aurade.Daemon

open Fs

/-- What is asked of a file's metadata. -/
structure FileMeta where
  len : ℕ
  isDir : Bool

/-- What the system answers about a file. -/
structure FileAnswers where
  metadata : Except Errno FileMeta
  mimeOfPath : Except Error Bytes
  openFile : Except Errno Unit
  /-- One read, into a buffer of so many bytes. -/
  read : ℕ → Except Errno Bytes

/-- The answer to `/api/preview`. -/
structure Preview where
  path : PathBuf
  binary : Bool
  text : Bytes
  size : ℕ
  truncated : Bool
  mimeType : Bytes

/-- The parameter `limit`. -/
def previewLimit (param : Option Bytes) : ℕ := (param.bind parseUsize).getD (512 * 1024)

/-- The answer for a file whose first bytes are these. -/
def previewOf (file : PathBuf) (len wanted : ℕ) (mimeType bytes : Bytes) : Preview where
  path := file
  binary := bytes.contains 0 || !Utf8.valid bytes
  text := if bytes.contains 0 || !Utf8.valid bytes then [] else Utf8.lossy bytes
  size := len
  truncated := wanted < len
  mimeType := mimeType

/-- The handler of `/api/preview`. -/
def preview (s : FileAnswers) (file : PathBuf) (param : Option Bytes) : Except Error Preview := do
  let fileMeta ← s.metadata.mapError (.ofErrno [.path file])
  if fileMeta.isDir then throw (.badRequest [.str "is a directory"])
  let mimeType ← s.mimeOfPath
  let wanted := min fileMeta.len (previewLimit param)
  s.openFile.mapError (.ofErrno [.path file])
  let bytes ← (s.read wanted).mapError (.ofErrno [.path file])
  pure (previewOf file fileMeta.len wanted mimeType bytes)

/-- The system answers for a file of this content. A read gives as many bytes as it gives, but no more than
were asked for. -/
structure FileAnswers.Shows (s : FileAnswers) (content : Bytes) (got : ℕ → ℕ) : Prop where
  metadata : s.metadata = .ok ⟨content.length, false⟩
  mimeOfPath : ∃ m, s.mimeOfPath = .ok m
  openFile : s.openFile = .ok ()
  read : ∀ n, s.read n = .ok (content.take (got n))
  got_le : ∀ n, got n ≤ n

/-- What the preview of a text is to be: not binary, and all of the text but for a part of a character. -/
def Preview.ShowsText (p : Preview) (content : Bytes) (limit : ℕ) : Prop :=
  p.binary = false ∧ p.text <+: content ∧ min content.length limit ≤ p.text.length + 3

theorem preview_eq {s : FileAnswers} {content : Bytes} {got : ℕ → ℕ} (h : s.Shows content got)
    (file : PathBuf) (param : Option Bytes) :
    ∃ m, preview s file param =
      .ok (previewOf file content.length (min content.length (previewLimit param)) m
        (content.take (got (min content.length (previewLimit param))))) := by
  obtain ⟨m, hm⟩ := h.mimeOfPath
  refine ⟨m, ?_⟩
  simp only [preview, h.metadata, hm, h.openFile, h.read]
  rfl

/-- Bytes without a NUL are shown as they are where they are a text, and as none where they are not. -/
theorem previewOf_text {bytes : Bytes} (hnul : 0 ∉ bytes) (file : PathBuf) (len wanted : ℕ) (m : Bytes) :
    (previewOf file len wanted m bytes).binary = !Utf8.valid bytes ∧
      (Utf8.valid bytes = true → (previewOf file len wanted m bytes).text = bytes) := by
  have hclean : bytes.contains 0 = false := by
    rw [Bool.eq_false_iff, ne_eq, List.contains_iff_mem]
    exact hnul
  simp only [previewOf, hclean, Bool.false_or, true_and]
  intro h
  rw [h, Utf8.lossy_eq_self_iff.2 h]
  rfl

/-- **A preview of a text shows text exactly when the read ends between two characters** and has given all
it was asked for but for three bytes at most. -/
theorem preview_iff {s : FileAnswers} {content : Bytes} {got : ℕ → ℕ} (h : s.Shows content got)
    (hvalid : Utf8.valid content = true) (hnul : 0 ∉ content) (file : PathBuf) (param : Option Bytes) :
    (∃ p, preview s file param = .ok p ∧ p.ShowsText content (previewLimit param)) ↔
      Utf8.Boundary content (got (min content.length (previewLimit param))) ∧
        min content.length (previewLimit param) ≤ got (min content.length (previewLimit param)) + 3 := by
  obtain ⟨m, hm⟩ := preview_eq h file param
  have hgot := h.got_le (min content.length (previewLimit param))
  simp only [hm, Except.ok.injEq, exists_eq_left', Preview.ShowsText]
  rw [← Utf8.valid_take_iff hvalid]
  generalize got (min content.length (previewLimit param)) = n at *
  have hlen : (content.take n).length = n := by
    rw [List.length_take]
    omega
  obtain ⟨hbinary, htext⟩ := previewOf_text (fun hmem => hnul (List.mem_of_mem_take hmem)) file content.length
    (min content.length (previewLimit param)) m
  rw [hbinary]
  cases hcut : Utf8.valid (content.take n) with
  | false => simp
  | true =>
    rw [htext hcut, hlen]
    simp [List.take_prefix]

/-- The file of the one character `é`, read in full. -/
def acute : FileAnswers where
  metadata := .ok ⟨2, false⟩
  mimeOfPath := .ok (text "text/plain")
  openFile := .ok ()
  read n := .ok ([0xC3, 0xA9].take n)

theorem acute_shows : acute.Shows [0xC3, 0xA9] id where
  metadata := rfl
  mimeOfPath := ⟨_, rfl⟩
  openFile := rfl
  read _ := rfl
  got_le _ := le_rfl

set_option maxRecDepth 4000 in
theorem preview_iff_acute :
    ∃ p, preview acute [] (some (text "2")) = .ok p ∧ p.ShowsText [0xC3, 0xA9] 2 :=
  (preview_iff acute_shows (by decide) (by decide) [] (some (text "2"))).2 (by decide)

/-- A text that is called binary because of where it was cut. -/
theorem preview_binary :
    ∃ p, preview acute [] (some (text "1")) = .ok p ∧ p.binary = true ∧
      Utf8.valid [0xC3, 0xA9] = true ∧ (0 : UInt8) ∉ [0xC3, 0xA9] :=
  ⟨_, rfl, by decide, by decide, by decide⟩

end Aurade.Daemon
