import Aurade.Foundations.Text
import Aurade.Stores.Apps

/-!
# Reading URLs

The two places where escapes are undone: `fromFileUrl`, for the lines of the bookmarks and of the
recent files, and `percentDecode`, for a request's target (`splitTarget`). Both walk over the bytes
of a string and cut the two digits out of it (`decodeLoop`); `none` is the stop of the program.
-/

namespace Aurade.Stores

/-- `from_file_url`. -/
def fromFileUrl (uri : Bytes) : Option (Option Bytes) :=
  if text "file://" <+: uri then
    let rest := uri.drop 7
    -- another host than this machine is no path here
    if rest.head? = some 47 then (decodeLoop id rest).map some else some none
  else some none

/-- In a target, a plus sign is a blank. -/
def plusBlank (b : UInt8) : UInt8 := if b = 43 then 32 else b

/-- `percent_decode`. -/
def percentDecode (value : Bytes) : Option Bytes := (decodeLoop plusBlank value).map Utf8.lossy

/-- The parameters of a target, by name; the last of a name stays. -/
abbrev Params := Std.ExtTreeMap Bytes Bytes

/-- The loop over the pieces between `&`. -/
def splitPairs : List Bytes → Params → Option Params
  | [], params => some params
  | pair :: pairs, params => do
    let (key, value) := (splitOnce 61 pair).getD (pair, [])
    let key ← percentDecode key
    let value ← percentDecode value
    splitPairs pairs (params.insert key value)

/-- `split_target`. -/
def splitTarget (target : Bytes) : Option (Bytes × Params) := do
  let (path, query) := (splitOnce 63 target).getD (target, [])
  let params ← splitPairs ((query.splitOn 38).filter (· ≠ [])) ∅
  let path ← percentDecode path
  pure (path, params)

/-- The bytes `encodeURIComponent` leaves alone, with which the folder views put a path into a
request. -/
def uriPlain (b : UInt8) : Bool :=
  (65 ≤ b && b ≤ 90) || (97 ≤ b && b ≤ 122) || isDigit b ||
    [45, 95, 46, 33, 126, 42, 39, 40, 41].contains b

def encodeURIComponent (path : Bytes) : Bytes := percentEncode uriPlain path

/-! ## Targets -/

theorem percentDecode_clean {value : Bytes} (h : Clean value) :
    percentDecode value = some (Utf8.lossy (percentDecoded plusBlank value)) :=
  ((decodeLoop_eq_iff value).2).2 h

theorem splitPairs_isSome {pairs : List Bytes} (h : ∀ p ∈ pairs, Clean p) (params : Params) :
    (splitPairs pairs params).isSome := by
  induction pairs generalizing params with
  | nil => rfl
  | cons pair pairs ih =>
    obtain ⟨hpair, hpairs⟩ := List.forall_mem_cons.1 h
    obtain ⟨hkey, hvalue⟩ := infix_getD_splitOnce 61 pair
    rw [splitPairs]
    simp only [percentDecode_clean (hpair.of_isInfix hkey), percentDecode_clean (hpair.of_isInfix hvalue),
      Option.bind_eq_bind, Option.bind_some]
    exact ih hpairs _

/-- A clean target is taken apart without a stop. -/
theorem splitTarget_isSome {target : Bytes} (h : Clean target) : (splitTarget target).isSome := by
  obtain ⟨hpath, hquery⟩ := infix_getD_splitOnce 63 target
  have hpairs : ∀ p ∈ ((((splitOnce 63 target).getD (target, [])).2).splitOn 38).filter (· ≠ []),
      Clean p := fun p hp => (h.of_isInfix hquery).of_isInfix (infix_of_mem_splitOn (List.mem_of_mem_filter hp))
  obtain ⟨params, hparams⟩ := Option.isSome_iff_exists.1 (splitPairs_isSome hpairs ∅)
  rw [splitTarget]
  simp only [hparams, percentDecode_clean (h.of_isInfix hpath), Option.bind_eq_bind, Option.bind_some]
  rfl

/-! ## Both decoders -/

theorem fromFileUrl_append (rest : Bytes) :
    fromFileUrl (text "file://" ++ rest) =
      if rest.head? = some 47 then (decodeLoop id rest).map some else some none := by
  have hdrop : (text "file://" ++ rest).drop 7 = rest := List.drop_left' (by decide)
  rw [fromFileUrl, if_pos (List.prefix_append _ _), hdrop]

theorem fileUrl_eq (path : Text) :
    fileUrl path.val = text "file://" ++ percentEncode urlPlain path.val := by
  rw [fileUrl, Utf8.lossy_eq_self_iff.2 path.property]
  rfl

theorem urlPlain_spec (b : UInt8) : urlPlain b = true → b < 0x80 ∧ b ≠ 37 ∧ id b = b := by
  revert b
  exact forall_byte (by decide +kernel)

theorem uriPlain_spec (b : UInt8) : uriPlain b = true → b < 0x80 ∧ b ≠ 37 ∧ plusBlank b = b := by
  revert b
  exact forall_byte (by decide +kernel)

/-- An encoded path begins as the path does. -/
theorem head_percentEncode (path : Bytes) :
    (percentEncode urlPlain path).head? = some 47 ↔ path.head? = some 47 := by
  cases path with
  | nil => exact Iff.rfl
  | cons b path =>
    have hhead : ∀ b, ((urlByte b).head? = some 47 ↔ b = 47) ∧ urlByte b ≠ [] :=
      forall_byte (by decide +kernel)
    have hcons : percentEncode urlPlain (b :: path) = urlByte b ++ percentEncode urlPlain path :=
      List.flatMap_cons
    rw [hcons, List.head?_append_of_ne_nil _ (hhead b).2, (hhead b).1, List.head?_cons,
      Option.some.injEq]

/-- **Where decoding is total and exact**: `from_file_url` gives what the string behind the scheme
stands for, and `percent_decode` what a value stands for, exactly where the string is clean; what
`file_url` writes of a path is read back exactly where the path is absolute, and what
`encodeURIComponent` writes is read back. -/
theorem percent_decoding (rest value path : Text) :
    (fromFileUrl (text "file://" ++ rest.val) =
        some (if rest.val.head? = some 47 then some (percentDecoded id rest.val) else none) ↔
      (rest.val.head? = some 47 → Clean rest.val)) ∧
    (percentDecode value.val = some (Utf8.lossy (percentDecoded plusBlank value.val)) ↔
      Clean value.val) ∧
    (fromFileUrl (fileUrl path.val) = some (some path.val) ↔ path.val.head? = some 47) ∧
    percentDecode (encodeURIComponent path.val) = some path.val := by
  refine ⟨?_, (decodeLoop_eq_iff value.val).2, ?_, ?_⟩
  · have hclean : decodeLoop id rest.val = some (percentDecoded id rest.val) ↔ Clean rest.val :=
      (decodeLoop_eq_iff rest.val).1
    rw [fromFileUrl_append]
    by_cases hhead : rest.val.head? = some 47
    · rw [if_pos hhead, if_pos hhead, ← hclean]
      simp [hhead]
    · simp [hhead]
  · rw [fileUrl_eq, fromFileUrl_append, decodeLoop_percentEncode urlPlain_spec]
    by_cases hhead : path.val.head? = some 47
    · rw [if_pos ((head_percentEncode path.val).2 hhead)]
      exact iff_of_true rfl hhead
    · rw [if_neg (mt (head_percentEncode path.val).1 hhead)]
      exact iff_of_false (by simp) hhead
  · rw [percentDecode, encodeURIComponent, decodeLoop_percentEncode uriPlain_spec, Option.map_some,
      Utf8.lossy_eq_self_iff.2 path.property]

/-- A percent sign, an ASCII character and one of two bytes stop the program, in both places; and a
plus sign counts as a digit. -/
theorem percent_decoding_stops :
    fromFileUrl (text "file:///%aé") = none ∧ percentDecode (text "%aé") = none ∧
      percentDecode (text "%+5") = some [5] := by
  decide

end Aurade.Stores
