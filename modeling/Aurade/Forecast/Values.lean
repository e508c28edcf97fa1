import Mathlib.Data.Rat.Floor
import Aurade.Foundations.Act
import Aurade.Foundations.Chars
import Aurade.Ops.Query

/-!
# Values as they are loaded

What `json.load` makes of a text: numbers keep whether they were written as integers, and a float may
be none at all. Reading a field may raise, of a value that is no dictionary, and so may turning an
integer into a float. How numbers are rounded and printed, and which texts are numbers, is taken from a
`Library`.
-/

namespace Aurade.Forecast

/-- A float. -/
inductive PyFloat
  | nan
  | inf (negative : Bool)
  | fin (q : ℚ)
  deriving DecidableEq

/-- The number, of a float that is one. -/
def PyFloat.finite : PyFloat → Option ℚ
  | fin q => some q
  | _ => none

/-- A float between two bounds. -/
def PyFloat.within (lo hi : ℚ) : PyFloat → Bool
  | fin q => lo ≤ q && q ≤ hi
  | _ => false

/-- A value. -/
inductive Value
  | null
  | bool (b : Bool)
  | int (n : ℤ)
  | float (x : PyFloat)
  | str (s : Str)
  | arr (items : List Value)
  | dict (fields : List (Str × Value))

/-- What may be raised. -/
inductive Raised
  | attributeError | typeError | valueError | overflowError
  deriving DecidableEq

/-- What is done by the language. -/
structure Library where
  /-- `float` of an integer; an integer of too many digits overflows. -/
  ofInt : ℤ → Option ℚ
  /-- `float` of a text, where it is a number. -/
  ofText : Str → Option PyFloat
  /-- How numbers and composite values are printed. -/
  print : Value → Str

namespace Value

def truthy : Value → Bool
  | null => false
  | bool b => b
  | int n => n ≠ 0
  | float x => x ≠ .fin 0
  | str s => s ≠ []
  | arr items => !items.isEmpty
  | dict fields => !fields.isEmpty

/-- `get` with a default. -/
def getD : Value → String → Value → Except Raised Value
  | dict fields, key, default => .ok ((fields.lookup key.toList).getD default)
  | _, _, _ => .error .attributeError

/-- `get`. -/
def get (v : Value) (key : String) : Except Raised Value := v.getD key null

/-- `str`. -/
def text (lib : Library) : Value → Str
  | null => "None".toList
  | bool true => "True".toList
  | bool false => "False".toList
  | str s => s
  | v => lib.print v

/-- `str(value or "")`. -/
def textOr (lib : Library) (v : Value) : Str := if v.truthy then v.text lib else []

/-- What a loop over a value goes through. -/
def iter : Value → Except Raised (List Value)
  | str s => .ok (s.map fun c => str [c])
  | arr items => .ok items
  | dict fields => .ok (fields.map fun f => str f.1)
  | _ => .error .typeError

end Value

/-- `float`, of what is no dictionary. -/
def float (lib : Library) : Value → Except Raised PyFloat
  | .bool b => .ok (.fin (if b then 1 else 0))
  | .int n =>
    match lib.ofInt n with
    | some q => .ok (.fin q)
    | none => .error .overflowError
  | .float x => .ok x
  | .str s =>
    match lib.ofText s with
    | some x => .ok x
    | none => .error .valueError
  | _ => .error .typeError

/-- The value of a measurement that says its unit. -/
def unwrap : Value → Value
  | .dict fields => (fields.lookup "value".toList).getD .null
  | v => v

/-- `_number` of the forecast. An overflow is not caught. -/
def number (lib : Library) (v : Value) : Except Raised (Option ℚ) :=
  match unwrap v with
  | .null => .ok none
  | .bool _ => .ok none
  | v =>
    match float lib v with
    | .ok x => .ok x.finite
    | .error .overflowError => .error .overflowError
    | .error _ => .ok none

/-- `_percent`. -/
def percent (lib : Library) (v : Value) : Except Raised (Option ℤ) :=
  (number lib v).map fun x => x.map fun q => max 0 (min 100 (Ops.Search.roundEven q))

/-- An integer that is not too large for a float. -/
def Value.Small (lib : Library) (v : Value) : Prop := ∀ n, unwrap v = .int n → (lib.ofInt n).isSome

/-- A measurement is read unless it is an integer too large. -/
theorem number_isOk (lib : Library) (v : Value) : (∃ x, number lib v = .ok x) ↔ v.Small lib := by
  unfold number Value.Small
  cases unwrap v with
  | null => simp
  | bool b => simp
  | int n => cases h : lib.ofInt n <;> simp [float, h]
  | float x => simp [float]
  | str s => cases h : lib.ofText s <;> simp [float, h]
  | arr items => simp [float]
  | dict fields => simp [float]

/-- Nothing else is raised. -/
theorem number_error {lib : Library} {v : Value} {e : Raised} (h : number lib v = .error e) :
    e = .overflowError := by
  unfold number at h
  cases hv : unwrap v with
  | null => rw [hv] at h; cases h
  | bool b => rw [hv] at h; cases h
  | int n =>
    rw [hv] at h
    cases hn : lib.ofInt n with
    | none =>
      simp only [float, hn] at h
      exact (Except.error.inj h).symm
    | some q =>
      simp only [float, hn] at h
      cases h
  | float x => rw [hv] at h; cases h
  | str s =>
    rw [hv] at h
    cases hs : lib.ofText s <;> simp only [float, hs] at h <;> cases h
  | arr items => rw [hv] at h; cases h
  | dict fields => rw [hv] at h; cases h

end Aurade.Forecast
