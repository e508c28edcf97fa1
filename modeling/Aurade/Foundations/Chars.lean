import Mathlib.Algebra.GroupWithZero.Nat
import Mathlib.Data.List.Basic
import Mathlib.Data.List.DropRight
import Mathlib.Data.List.Infix
import Mathlib.Tactic.Common

/-!
# Strings as lists of characters

For programs that look at characters and not at their bytes: cutting at a character (`splitn`, at
most so many pieces), into lines (`lines`, `splitlines`) and words, and the numbers `parse` reads.
-/

namespace Aurade

/-- A string, character by character. -/
abbrev Str := List Char

/-- Strings are compared as lists. -/
instance lawfulBEq_str : LawfulBEq Str := inferInstance

namespace Str

/-- `split_once` at a character. -/
def splitOnce (c : Char) (s : Str) : Option (Str × Str) :=
  if c ∈ s then some (s.takeWhile (· ≠ c), (s.dropWhile (· ≠ c)).tail) else none

/-- `splitn`: at most `n` pieces. -/
def splitn (c : Char) : ℕ → Str → List Str
  | 0, _ => []
  | 1, s => [s]
  | n + 2, s =>
    match splitOnce c s with
    | some (a, b) => a :: splitn c (n + 1) b
    | none => [s]

/-- A line without the carriage return it ends in. -/
def chomp (line : Str) : Str := if line.getLast? = some '\r' then line.dropLast else line

/-- `lines`. -/
def lines (s : Str) : List Str :=
  let parts := s.splitOn '\n'
  parts.dropLast.map chomp ++ (parts.getLast?.toList.filter (· ≠ []))

/-- `contains`, of a string. -/
def hasSub (needle s : Str) : Bool := s.tails.any (needle.isPrefixOf ·)

/-- `parse::<u32>`: decimal digits, with a plus sign before them if need be. -/
def parseU32 (s : Str) : Option ℕ :=
  let digits := if 1 < s.length ∧ s.head? = some '+' then s.tail else s
  if digits ≠ [] ∧ digits.all Char.isDigit then
    let n := digits.foldl (fun n c => 10 * n + (c.toNat - 48)) 0
    if n < 2 ^ 32 then some n else none
  else none

/-- What `isspace` answers of one character. -/
def isSpace (c : Char) : Bool :=
  let n := c.toNat
  (9 ≤ n && n ≤ 13) || (28 ≤ n && n ≤ 32) || (0x2000 ≤ n && n ≤ 0x200a) ||
    [0x85, 0xa0, 0x1680, 0x2028, 0x2029, 0x202f, 0x205f, 0x3000].contains n

/-- `strip`. -/
def strip (s : Str) : Str := (s.dropWhile isSpace).rdropWhile isSpace

/-- `split()`: the words between white space. -/
def words (s : Str) : List Str := (s.splitOnP isSpace).filter (· ≠ [])

/-- Where `splitlines` ends a line. -/
def lineBreaks : List Char :=
  ['\n', '\x0b', '\x0c', '\r', '\x1c', '\x1d', '\x1e', '\u0085', '\u2028', '\u2029']

/-- `splitlines`. -/
def splitlines : Str → List Str
  | [] => []
  | '\r' :: '\n' :: rest => [] :: splitlines rest
  | c :: rest =>
    if c ∈ lineBreaks then [] :: splitlines rest
    else
      match splitlines rest with
      | [] => [[c]]
      | line :: more => (c :: line) :: more

/-- Only an empty text has no lines. -/
@[simp] theorem splitlines_eq_nil {s : Str} : splitlines s = [] ↔ s = [] := by
  fun_cases splitlines s <;> simp [*]

/-- The digits of Unicode: what `isdigit` answers of a character, and what `int` reads of it. -/
structure Digits where
  isDigit : Char → Bool
  value : Char → Option ℕ

/-- `isdigit`. -/
def isdigit (u : Digits) (s : Str) : Bool := s ≠ [] && s.all u.isDigit

/-- `int`, of a string without a sign or underscores. It raises where it is not a number, or one of
too many digits. -/
def int (u : Digits) (s : Str) : Option ℕ :=
  if 4300 < s.length then none
  else s.foldlM (fun n c => (u.value c).map fun d => 10 * n + d) 0

end Str

end Aurade
