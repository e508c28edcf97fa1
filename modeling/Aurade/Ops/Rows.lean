import Aurade.Desktop.Mime
import Aurade.Foundations.Compare
import Aurade.Foundations.Decode
import Aurade.Ops.Query
import Aurade.Stores.File

/-!
# A folder as rows

`list` reads the names of a folder, looks at each and sorts the rows. The names are compared by
`natural_cmp`, which reads digits as numbers; it is a total order whatever the names
(`naturalCmp_total`), as `keys` says: a name is a sequence of numbers and of characters, and what is
compared is these in turn, and after all of them the bytes.

So the rows do not depend on the order in which the disk gives the names (`list_perm`).
-/

namespace Aurade.Ops.Rows

open Fs Search

/-! ## The order of names -/

/-- The highest value of a `u128`. -/
def u128Max : ℕ := 2 ^ 128 - 1

/-- The loop of `take_number`: the value and the length of the digits so far, and what is left. -/
def takeFrom (value len : ℕ) : Str → (ℕ × ℕ) × Str
  | [] => ((value, len), [])
  | c :: rest =>
    if c.isDigit then
      takeFrom (min (min (value * 10) u128Max + (c.toNat - 48)) u128Max) (len + 1) rest
    else ((value, len), c :: rest)

/-- `take_number`. -/
def takeNumber (s : Str) : (ℕ × ℕ) × Str := takeFrom 0 0 s

section

variable (lower : Char → Str)

/-- A character as names are compared: the first of `to_lowercase`. -/
def folded (c : Char) : Char := (lower c).headD c

/-- The loop of `natural_cmp`, of at most `n` turns; `last` is the answer where both are used up. -/
def naturalFrom (last : Ordering) : ℕ → Str → Str → Ordering
  | 0, _, _ => last
  | _ + 1, [], [] => last
  | _ + 1, [], _ :: _ => .lt
  | _ + 1, _ :: _, [] => .gt
  | n + 1, ca :: x, cb :: y =>
    if ca.isDigit && cb.isDigit then
      let a := takeNumber (ca :: x)
      let b := takeNumber (cb :: y)
      match compare a.1.1 b.1.1 with
      | .eq =>
        match compare a.1.2 b.1.2 with
        | .eq => naturalFrom last n a.2 b.2
        | other => other
      | other => other
    else
      match compare (folded lower ca).toNat (folded lower cb).toNat with
      | .eq => naturalFrom last n x y
      | other => other

/-- `cmp` of strings: byte by byte. -/
def strCmp (a b : Str) : Ordering := List.compareLex compare (utf8 a) (utf8 b)

/-- `natural_cmp`. -/
def naturalCmp (a b : Str) : Ordering := naturalFrom lower (strCmp a b) (a.length + 1) a b

end

/-! ## The sequence of a name -/

/-- What `natural_cmp` asks of `to_lowercase`: a digit is its own lower case, and no other character's
lower case begins with a digit. -/
structure KeepsDigits (lower : Char → Str) : Prop where
  digit : ∀ c, c.isDigit = true → folded lower c = c
  other : ∀ c, c.isDigit = false → (folded lower c).isDigit = false

theorem length_takeFrom (value len : ℕ) (s : Str) : (takeFrom value len s).2.length ≤ s.length := by
  induction s generalizing value len with
  | nil => exact le_rfl
  | cons c rest ih =>
    rw [takeFrom]
    split
    · exact (ih _ _).trans (Nat.le_succ _)
    · exact le_rfl

theorem length_takeNumber {c : Char} {rest : Str} (hc : c.isDigit = true) :
    (takeNumber (c :: rest)).2.length ≤ rest.length := by
  rw [takeNumber, takeFrom, if_pos hc]
  exact length_takeFrom _ _ _

section

variable (lower : Char → Str)

/-- The sequence of a name: a number with its value and its length, in the place of the digits, and any
other character as it is compared. -/
def keys : Str → List (ℕ × ℕ × ℕ)
  | [] => []
  | c :: rest =>
    if _h : c.isDigit = true then
      let number := takeNumber (c :: rest)
      (48, number.1) :: keys number.2
    else ((folded lower c).toNat, 0, 0) :: keys rest
termination_by s => s.length
decreasing_by
  · exact Nat.lt_succ_of_le (length_takeNumber _h)
  · exact Nat.lt_succ_self _

/-- Two members of a sequence: the places first, and then of numbers the values and the lengths. -/
def keyCmp : ℕ × ℕ × ℕ → ℕ × ℕ × ℕ → Ordering :=
  compareLex (compareOn Prod.fst) (compareLex (compareOn (·.2.1)) (compareOn (·.2.2)))

end

variable {lower : Char → Str}

theorem keys_digit {c : Char} {rest : Str} (hc : c.isDigit = true) :
    keys lower (c :: rest) = (48, (takeNumber (c :: rest)).1) :: keys lower (takeNumber (c :: rest)).2 := by
  rw [keys, dif_pos hc]

theorem keys_other {c : Char} {rest : Str} (hc : c.isDigit = false) :
    keys lower (c :: rest) = ((folded lower c).toNat, 0, 0) :: keys lower rest := by
  rw [keys, dif_neg (by rw [hc]; exact Bool.false_ne_true)]

variable (lower) in
theorem exists_keys (c : Char) (rest : Str) : ∃ k ks, keys lower (c :: rest) = k :: ks := by
  cases hc : c.isDigit with
  | true => exact ⟨_, _, keys_digit hc⟩
  | false => exact ⟨_, _, keys_other hc⟩

theorem keyCmp_eq (k l : ℕ × ℕ × ℕ) :
    keyCmp k l = (compare k.1 l.1).then ((compare k.2.1 l.2.1).then (compare k.2.2 l.2.2)) := rfl

theorem isDigit_iff {c : Char} : c.isDigit = true ↔ 48 ≤ c.toNat ∧ c.toNat ≤ 57 := by
  rw [Char.isDigit, Bool.and_eq_true, decide_eq_true_eq, decide_eq_true_eq]
  exact Iff.and UInt32.le_iff_toNat_le UInt32.le_iff_toNat_le

/-- A number and a character are told apart by the character alone. -/
theorem compare_digit {c d : Char} (hc : c.isDigit = true) (hd : d.isDigit = false) :
    (d.toNat < 48 ∧ compare c.toNat d.toNat = .gt ∧ compare d.toNat c.toNat = .lt) ∨
      (48 < d.toNat ∧ compare c.toNat d.toNat = .lt ∧ compare d.toNat c.toNat = .gt) := by
  rw [isDigit_iff] at hc
  have hd' : ¬(48 ≤ d.toNat ∧ d.toNat ≤ 57) := fun h => by
    rw [isDigit_iff.2 h] at hd
    cases hd
  rcases lt_or_ge d.toNat 48 with hlt | hge
  · exact Or.inl ⟨hlt, Nat.compare_eq_gt.2 (by omega), Nat.compare_eq_lt.2 (by omega)⟩
  · exact Or.inr ⟨by omega, Nat.compare_eq_lt.2 (by omega), Nat.compare_eq_gt.2 (by omega)⟩

/-- **What `natural_cmp` compares**: the two sequences, and where they are the same what is left to be
compared. -/
theorem naturalFrom_eq (h : KeepsDigits lower) (last : Ordering) {n : ℕ} {x y : Str} (hn : x.length < n) :
    naturalFrom lower last n x y =
      (List.compareLex keyCmp (keys lower x) (keys lower y)).then last := by
  induction n generalizing x y with
  | zero => exact absurd hn (Nat.not_lt_zero _)
  | succ n ih =>
    cases x with
    | nil =>
      cases y with
      | nil => simp [naturalFrom, keys, List.compareLex_nil_nil]
      | cons cb y =>
        obtain ⟨k, ks, hks⟩ := exists_keys lower cb y
        rw [naturalFrom, hks, keys, List.compareLex_nil_cons]
        rfl
    | cons ca x =>
      cases y with
      | nil =>
        obtain ⟨k, ks, hks⟩ := exists_keys lower ca x
        rw [naturalFrom, hks, keys, List.compareLex_cons_nil]
        rfl
      | cons cb y =>
        cases ha : ca.isDigit with
        | true =>
          cases hb : cb.isDigit with
          | true =>
            have hrest : (takeNumber (ca :: x)).2.length < n :=
              (length_takeNumber ha).trans_lt (Nat.lt_of_succ_lt_succ hn)
            rw [keys_digit ha, keys_digit hb, List.compareLex_cons_cons, keyCmp_eq]
            simp only [naturalFrom, ha, hb, Bool.and_self, if_true, ih hrest]
            cases compare (takeNumber (ca :: x)).1.1 (takeNumber (cb :: y)).1.1 <;>
              cases compare (takeNumber (ca :: x)).1.2 (takeNumber (cb :: y)).1.2 <;> simp
          | false =>
            -- a number beside a character: no more is compared
            rw [keys_digit ha, keys_other hb, List.compareLex_cons_cons, keyCmp_eq]
            simp only [naturalFrom, ha, hb, Bool.and_false, Bool.false_eq_true, if_false, h.digit ca ha]
            rcases compare_digit ha (h.other cb hb) with ⟨hlt, hcmp, -⟩ | ⟨hlt, hcmp, -⟩
            · rw [hcmp, Nat.compare_eq_gt.2 hlt]
              rfl
            · rw [hcmp, Nat.compare_eq_lt.2 hlt]
              rfl
        | false =>
          cases hb : cb.isDigit with
          | true =>
            rw [keys_other ha, keys_digit hb, List.compareLex_cons_cons, keyCmp_eq]
            simp only [naturalFrom, ha, hb, Bool.false_and, Bool.false_eq_true, if_false, h.digit cb hb]
            rcases compare_digit hb (h.other ca ha) with ⟨hlt, -, hcmp⟩ | ⟨hlt, -, hcmp⟩
            · rw [hcmp, Nat.compare_eq_lt.2 hlt]
              rfl
            · rw [hcmp, Nat.compare_eq_gt.2 hlt]
              rfl
          | false =>
            have hrest : x.length < n := Nat.lt_of_succ_lt_succ hn
            rw [keys_other ha, keys_other hb, List.compareLex_cons_cons, keyCmp_eq]
            simp only [naturalFrom, ha, hb, Bool.and_self, Bool.false_eq_true, if_false, ih hrest]
            cases compare (folded lower ca).toNat (folded lower cb).toNat <;> simp

/-! ## A total order -/

theorem utf8_injective {a b : Str} (h : utf8 a = utf8 b) : a = b := by
  have hencode : a.utf8Encode = b.utf8Encode := congrArg List.toByteArray h
  have hdecode := congrArg ByteArray.utf8Decode? hencode
  rw [List.utf8Decode?_utf8Encode, List.utf8Decode?_utf8Encode] at hdecode
  exact List.toArray_inj (Option.some.inj hdecode)

instance transCmp_strCmp : Std.TransCmp strCmp := transCmp_of utf8

theorem eq_of_strCmp {a b : Str} (h : strCmp a b = .eq) : a = b :=
  utf8_injective (Std.LawfulEqCmp.eq_of_compare h)

theorem strCmp_self (a : Str) : strCmp a a = .eq := Std.ReflCmp.compare_self

theorem naturalCmp_eq (h : KeepsDigits lower) :
    naturalCmp lower =
      compareLex (fun a b => List.compareLex keyCmp (keys lower a) (keys lower b)) strCmp := by
  funext a b
  exact naturalFrom_eq h _ (Nat.lt_succ_self _)

theorem transCmp_naturalCmp (h : KeepsDigits lower) : Std.TransCmp (naturalCmp lower) := by
  have hkeys : Std.TransCmp keyCmp := by
    unfold keyCmp
    infer_instance
  have hfirst : Std.TransCmp fun a b => List.compareLex keyCmp (keys lower a) (keys lower b) :=
    transCmp_of (keys lower)
  rw [naturalCmp_eq h]
  infer_instance

theorem eq_of_naturalCmp (h : KeepsDigits lower) {a b : Str} (hab : naturalCmp lower a b = .eq) :
    a = b := by
  rw [naturalCmp_eq h] at hab
  exact eq_of_strCmp (compareLex_eq_eq.1 hab).2

/-! ## Rows -/

/-- What a row is, at the level the page draws differently. -/
inductive Kind
  | folder
  | file
  | link (broken toFolder : Bool)
  | other
  deriving DecidableEq

/-- `opens_as_folder`. -/
def Kind.opensAsFolder : Kind → Bool
  | folder => true
  | link broken toFolder => toFolder && !broken
  | _ => false

/-- What `statat` answers. -/
structure Stat where
  type : FileType
  mode : ℕ
  size : ℤ
  modified : ℤ
  accessed : ℤ
  uid : ℕ
  gid : ℕ

/-- One row; `δ` is what git says of a file. -/
structure Row (δ : Type) where
  name : Bytes
  kind : Kind
  size : ℕ
  modified : ℤ
  accessed : ℤ
  created : Option ℤ
  mode : ℕ
  uid : ℕ
  gid : ℕ
  hidden : Bool
  mime : Str
  linkTarget : Option Bytes
  tags : List Bytes
  customIcon : Option Bytes
  git : Option δ

/-- What follows the last dot of a name, where it is not the first character. -/
def Row.extension {δ : Type} (r : Row δ) : Option Bytes :=
  match rsplitOnce 46 r.name with
  | some (a, ext) => if a = [] then none else some ext
  | none => none

/-- What rows are ordered by. -/
inductive SortBy
  | name | size | modified | created | kind
  deriving DecidableEq

/-- What the caller wants read. -/
structure Options where
  showHidden : Bool := false
  includeTags : Bool := false
  includeGit : Bool := false
  includeIgnoredGit : Bool := false
  limit : ℕ := 250000
  sort : SortBy := .name
  descending : Bool := false
  foldersFirst : Bool := true

/-- A folder, read; `γ` is what git says of the folder. -/
structure Listing (γ δ : Type) where
  rows : List (Row δ)
  total : ℕ
  hiddenCount : ℕ
  truncated : Bool
  git : Option γ

/-- What `list` asks: of the folder, of each name in it, and of git. -/
structure Folder (γ δ : Type) where
  opened : Except Error Unit
  names : Except Error (List Bytes)
  /-- What reading `.hidden` gives, where nothing of it fails. -/
  dotHidden : Option Bytes
  metadata : Bytes → Option Stat
  target : Bytes → Option Bytes
  /-- Whether what a link leads to is a folder, where it leads to anything. -/
  followed : Bytes → Option Bool
  created : Bytes → Option ℤ
  tags : Bytes → Option (List Bytes)
  icon : Bytes → Option Bytes
  git : Bool → Option γ
  gitOf : γ → Bytes → δ

/-- The names of a list, a line each. -/
def hiddenNames (list : Bytes) : List Bytes := ((lines list).map trimBytes).filter (· ≠ [])

/-- `read_dot_hidden`. -/
def readDotHidden (list : Option Bytes) : List Bytes :=
  match Stores.readToString false list with
  | some t => hiddenNames t.val
  | none => []

section

variable {γ δ : Type} (lower : Char → Str) (lowerStr : Str → Str)

/-- The order of the rows' own column. -/
def columnCmp (a b : Row δ) : SortBy → Ordering
  | .name => naturalCmp lower (Utf8.decode a.name) (Utf8.decode b.name)
  | .size => compare a.size b.size
  | .modified => compare a.modified b.modified
  | .created => compare a.created b.created
  | .kind => strCmp (lowerStr (Utf8.decode (a.extension.getD [])))
      (lowerStr (Utf8.decode (b.extension.getD [])))

/-- The comparison of `sort_rows`. -/
def rowCmp (o : Options) (a b : Row δ) : Ordering :=
  let byKind := compare b.kind.opensAsFolder a.kind.opensAsFolder
  if o.foldersFirst ∧ byKind ≠ .eq then byKind
  else
    let column := columnCmp lower lowerStr a b o.sort
    let ord :=
      if column = .eq ∧ o.sort ≠ .name then naturalCmp lower (Utf8.decode a.name) (Utf8.decode b.name)
      else column
    if o.descending then ord.swap else ord

/-- `sort_rows`. -/
def sortRows (o : Options) (rows : List (Row δ)) : List (Row δ) := sortWith (rowCmp lower lowerStr o) rows

variable (f : Folder γ δ) (o : Options) (db : Desktop.MimeDb)

/-- Whether a name is hidden: by its own dot, or by the folder's list. -/
def isHidden (listed : List Bytes) (display : Bytes) : Bool :=
  display.head? = some 46 || listed.contains display

/-- The kind of a node, and where a link leads. -/
def kindOf (name : Bytes) : FileType → Kind × Option Bytes
  | .directory => (.folder, none)
  | .regular => (.file, none)
  | .symlink => (.link (f.followed name).isNone ((f.followed name).getD false), f.target name)
  | .other => (.other, none)

/-- The type of a row, by its name alone. -/
def mimeOf (display : Bytes) : Kind → Str
  | .folder => "inode/directory".toList
  | .link _ _ => "inode/symlink".toList
  | .other => "application/octet-stream".toList
  | .file => (db.byName lowerStr (Utf8.decode display)).getD "application/octet-stream".toList

/-- The row of a name. -/
def rowOf (git : Option γ) (listed : List Bytes) (name : Bytes) (stat : Stat) : Row δ where
  name := Utf8.lossy name
  kind := (kindOf f name stat.type).1
  size := stat.size.toNat
  modified := stat.modified
  accessed := stat.accessed
  created := f.created name
  mode := stat.mode % 4096
  uid := stat.uid
  gid := stat.gid
  hidden := isHidden listed (Utf8.lossy name)
  mime := mimeOf lowerStr db (Utf8.lossy name) (kindOf f name stat.type).1
  linkTarget := (kindOf f name stat.type).2
  tags := if o.includeTags then (f.tags name).getD [] else []
  customIcon := if o.includeTags then f.icon name else none
  git := git.map fun g => f.gitOf g name

/-- The loop of `list` over the names: the rows so far, how many names were hidden, and whether it
stopped at the limit. -/
def readRows (git : Option γ) (listed : List Bytes) :
    List Bytes → List (Row δ) × ℕ × Bool → List (Row δ) × ℕ × Bool
  | [], r => r
  | name :: names, (rows, hiddenCount, truncated) =>
    let hidden := isHidden listed (Utf8.lossy name)
    let hiddenCount := if hidden then hiddenCount + 1 else hiddenCount
    if hidden && !o.showHidden then readRows git listed names (rows, hiddenCount, truncated)
    else if o.limit ≤ rows.length then (rows, hiddenCount, true)
    else
      match f.metadata name with
      | some stat =>
        readRows git listed names
          (rows ++ [rowOf lowerStr f o db git listed name stat], hiddenCount, truncated)
      | none => readRows git listed names (rows, hiddenCount, truncated)

/-- `list`. -/
def list : Except Error (Listing γ δ) := do
  f.opened
  let names ← f.names
  let listed := readDotHidden f.dotHidden
  let git := if o.includeGit then f.git o.includeIgnoredGit else none
  let (rows, hiddenCount, truncated) := readRows lowerStr f o db git listed names ([], 0, false)
  return { rows := sortRows lower lowerStr o rows, total := names.length, hiddenCount, truncated, git }

end

/-! ## The rows do not depend on the disk -/

section

variable {γ δ : Type} {lower : Char → Str} {lowerStr : Str → Str}

theorem transCmp_columnCmp (h : KeepsDigits lower) (s : SortBy) :
    Std.TransCmp fun a b : Row δ => columnCmp lower lowerStr a b s := by
  have hnatural := transCmp_naturalCmp h
  cases s with
  | name => exact @transCmp_of (Row δ) Str (naturalCmp lower) hnatural fun r => Utf8.decode r.name
  | size => exact inferInstanceAs (Std.TransCmp (compareOn (@Row.size δ)))
  | modified => exact inferInstanceAs (Std.TransCmp (compareOn (@Row.modified δ)))
  | created => exact inferInstanceAs (Std.TransCmp (compareOn (@Row.created δ)))
  | kind =>
    exact @transCmp_of (Row δ) Str strCmp _ fun r => lowerStr (Utf8.decode (r.extension.getD []))

variable (lower lowerStr) in
/-- A row's column, and where two are equal in it the name. -/
def inColumn (s : SortBy) : Row δ → Row δ → Ordering :=
  compareLex (fun a b => columnCmp lower lowerStr a b s)
    fun a b => naturalCmp lower (Utf8.decode a.name) (Utf8.decode b.name)

theorem transCmp_inColumn (h : KeepsDigits lower) (s : SortBy) :
    Std.TransCmp (@inColumn δ lower lowerStr s) := by
  have hnatural := transCmp_naturalCmp h
  have hcolumn : Std.TransCmp fun a b : Row δ => columnCmp lower lowerStr a b s :=
    transCmp_columnCmp h s
  have hname : Std.TransCmp fun a b : Row δ =>
      naturalCmp lower (Utf8.decode a.name) (Utf8.decode b.name) :=
    @transCmp_of (Row δ) Str (naturalCmp lower) hnatural fun r => Utf8.decode r.name
  unfold inColumn
  infer_instance

theorem inColumn_eq (s : SortBy) (a b : Row δ) :
    (if columnCmp lower lowerStr a b s = .eq ∧ s ≠ .name then
        naturalCmp lower (Utf8.decode a.name) (Utf8.decode b.name)
      else columnCmp lower lowerStr a b s) = inColumn lower lowerStr s a b := by
  change _ = (columnCmp lower lowerStr a b s).then
    (naturalCmp lower (Utf8.decode a.name) (Utf8.decode b.name))
  by_cases hs : s = .name
  · obtain rfl := hs
    rw [if_neg fun hc => hc.2 rfl]
    change naturalCmp lower _ _ = (naturalCmp lower _ _).then (naturalCmp lower _ _)
    rw [Ordering.then_self]
  · cases hc : columnCmp lower lowerStr a b s with
    | eq => exact if_pos ⟨rfl, hs⟩
    | lt => exact if_neg fun h => absurd h.1 (by decide)
    | gt => exact if_neg fun h => absurd h.1 (by decide)

/-- **What `sort_rows` compares**: whether a row opens as a folder, its column in the direction there
is, and its name. -/
theorem rowCmp_eq (h : KeepsDigits lower) (o : Options) :
    @rowCmp δ lower lowerStr o =
      compareLex (fun a b => compareOn (fun r => o.foldersFirst && r.kind.opensAsFolder) b a)
        (if o.descending then fun a b => inColumn lower lowerStr o.sort b a
        else inColumn lower lowerStr o.sort) := by
  have htrans : Std.TransCmp (@inColumn δ lower lowerStr o.sort) := transCmp_inColumn h o.sort
  funext a b
  have hord : (if o.descending then (inColumn lower lowerStr o.sort a b).swap
      else inColumn lower lowerStr o.sort a b) =
        (if o.descending then fun a b => inColumn lower lowerStr o.sort b a
          else inColumn lower lowerStr o.sort) a b := by
    split
    · exact Std.OrientedCmp.eq_swap.symm
    · rfl
  simp only [rowCmp, inColumn_eq]
  rw [hord, compareLex, compareOn]
  cases o.foldersFirst with
  | false => rfl
  | true =>
    simp only [true_and, Bool.true_and]
    cases compare b.kind.opensAsFolder a.kind.opensAsFolder <;> rfl

theorem transCmp_rowCmp (h : KeepsDigits lower) (o : Options) :
    Std.TransCmp (@rowCmp δ lower lowerStr o) := by
  have hcolumn : Std.TransCmp (@inColumn δ lower lowerStr o.sort) := transCmp_inColumn h o.sort
  have hdirected : Std.TransCmp (if o.descending then fun a b : Row δ => inColumn lower lowerStr o.sort b a
      else inColumn lower lowerStr o.sort) := by
    split
    · exact Std.TransCmp.opposite
    · exact hcolumn
  rw [rowCmp_eq h]
  infer_instance

theorem eq_of_rowCmp (h : KeepsDigits lower) {o : Options} {a b : Row δ}
    (hab : rowCmp lower lowerStr o a b = .eq) : Utf8.decode a.name = Utf8.decode b.name := by
  rw [rowCmp_eq h] at hab
  have hname := (compareLex_eq_eq.1 hab).2
  split at hname
  · exact (eq_of_naturalCmp h (compareLex_eq_eq.1 hname).2).symm
  · exact eq_of_naturalCmp h (compareLex_eq_eq.1 hname).2

/-! ## The loop -/

variable {f : Folder γ δ} {o : Options} {db : Desktop.MimeDb} {git : Option γ} {listed : List Bytes}

variable (lowerStr f o db git listed) in
/-- The row a name has, where it is shown. -/
def shown (name : Bytes) : Option (Row δ) :=
  if isHidden listed (Utf8.lossy name) && !o.showHidden then none
  else (f.metadata name).map (rowOf lowerStr f o db git listed name)

/-- A loop that has room for all names gives each its row. -/
theorem readRows_eq {names : List Bytes} {rows : List (Row δ)} {k : ℕ} {t : Bool}
    (hroom : rows.length + names.length ≤ o.limit) :
    readRows lowerStr f o db git listed names (rows, k, t) =
      (rows ++ names.filterMap (shown lowerStr f o db git listed),
        k + names.countP (fun name => isHidden listed (Utf8.lossy name)), t) := by
  induction names generalizing rows k with
  | nil => simp [readRows]
  | cons name names ih =>
    rw [List.length_cons] at hroom
    have hroom' : rows.length + names.length ≤ o.limit := by omega
    have hnot : ¬o.limit ≤ rows.length := by omega
    have hone (r : Row δ) : (rows ++ [r]).length + names.length ≤ o.limit := by
      rw [List.length_append, List.length_singleton]
      omega
    have hcount : (if isHidden listed (Utf8.lossy name) then k + 1 else k) +
        names.countP (fun name => isHidden listed (Utf8.lossy name)) =
          k + (name :: names).countP (fun name => isHidden listed (Utf8.lossy name)) := by
      rw [List.countP_cons]
      split <;> omega
    rw [← hcount]
    simp only [readRows]
    by_cases hskip : (isHidden listed (Utf8.lossy name) && !o.showHidden) = true
    · have hshown : shown lowerStr f o db git listed name = none := if_pos hskip
      rw [if_pos hskip, ih hroom', List.filterMap_cons_none hshown]
    · have hshown : shown lowerStr f o db git listed name =
          (f.metadata name).map (rowOf lowerStr f o db git listed name) := if_neg hskip
      rw [if_neg hskip, if_neg hnot]
      cases hstat : f.metadata name with
      | none =>
        rw [hstat] at hshown
        simp only [ih hroom', List.filterMap_cons_none hshown]
      | some stat =>
        rw [hstat] at hshown
        simp only [ih (hone _), List.filterMap_cons_some hshown, List.append_assoc, List.singleton_append]

variable (lowerStr f o db git listed) in
theorem shown_name {name : Bytes} {r : Row δ} (h : shown lowerStr f o db git listed name = some r) :
    r.name = Utf8.lossy name := by
  unfold shown at h
  split at h
  · cases h
  · obtain ⟨stat, -, rfl⟩ := Option.map_eq_some_iff.1 h
    rfl

/-- A row is of one of the names, whether or not the loop stopped at the limit. -/
theorem mem_readRows {names : List Bytes} {rows : List (Row δ)} {k : ℕ} {t : Bool} {r : Row δ}
    (hr : r ∈ (readRows lowerStr f o db git listed names (rows, k, t)).1) :
    r ∈ rows ∨ ∃ name ∈ names, ∃ stat, r = rowOf lowerStr f o db git listed name stat := by
  induction names generalizing rows k with
  | nil => exact Or.inl hr
  | cons name names ih =>
    have hlater : (∃ name' ∈ names, ∃ stat, r = rowOf lowerStr f o db git listed name' stat) →
        ∃ name' ∈ name :: names, ∃ stat, r = rowOf lowerStr f o db git listed name' stat := by
      rintro ⟨name', hmem, h⟩
      exact ⟨name', List.mem_cons_of_mem _ hmem, h⟩
    simp only [readRows] at hr
    split at hr
    · exact (ih hr).imp_right hlater
    · split at hr
      · exact Or.inl hr
      · split at hr
        · next stat _ =>
          rcases ih hr with hr | hr
          · rcases List.mem_append.1 hr with hr | hr
            · exact Or.inl hr
            · exact Or.inr ⟨name, List.mem_cons_self, stat, List.mem_singleton.1 hr⟩
          · exact Or.inr (hlater hr)
        · exact (ih hr).imp_right hlater

/-- **A row says of its name whether it is hidden.** -/
theorem hidden_of_mem_list {names : List Bytes} {l : Listing γ δ} (hnames : f.names = .ok names)
    (hlist : list lower lowerStr f o db = .ok l) {r : Row δ} (hr : r ∈ l.rows) :
    ∃ name ∈ names, r.name = Utf8.lossy name ∧
      r.hidden = isHidden (readDotHidden f.dotHidden) (Utf8.lossy name) := by
  unfold list at hlist
  rw [hnames] at hlist
  cases hopened : f.opened with
  | error e =>
    rw [hopened] at hlist
    cases hlist
  | ok u =>
    rw [hopened] at hlist
    obtain rfl := Except.ok.inj hlist
    rcases mem_readRows (mem_sortWith.1 hr) with hr | ⟨name, hname, stat, rfl⟩
    · exact absurd hr List.not_mem_nil
    · exact ⟨name, hname, rfl, rfl⟩

variable (lower lowerStr f o db git listed) in
/-- The rows of names that there is room for. -/
def rowsOf (names : List Bytes) : List (Row δ) :=
  sortRows lower lowerStr o (names.filterMap (shown lowerStr f o db git listed))

variable (lower lowerStr f o db) in
/-- What `list` answers of a folder whose names there is room for. -/
theorem list_eq {names : List Bytes} (hlimit : names.length ≤ o.limit) :
    list lower lowerStr { f with names := .ok names } o db = f.opened.map fun _ =>
      { rows := rowsOf lower lowerStr f o db (if o.includeGit then f.git o.includeIgnoredGit else none)
          (readDotHidden f.dotHidden) names
        total := names.length
        hiddenCount := names.countP fun name => isHidden (readDotHidden f.dotHidden) (Utf8.lossy name)
        truncated := false
        git := if o.includeGit then f.git o.includeIgnoredGit else none } := by
  have hroom : ([] : List (Row δ)).length + names.length ≤ o.limit := by
    rw [List.length_nil, Nat.zero_add]
    exact hlimit
  rw [list]
  cases f.opened with
  | error e => rfl
  | ok u =>
    simp only [bind, Except.bind, readRows_eq hroom, List.nil_append, Nat.zero_add]
    rfl

variable (lowerStr f o db git listed) in
theorem rowsOf_perm (h : KeepsDigits lower) {names names' : List Bytes} (hperm : names.Perm names')
    (hvalid : ∀ name ∈ names, Utf8.valid name = true) :
    rowsOf lower lowerStr f o db git listed names = rowsOf lower lowerStr f o db git listed names' := by
  have htrans : Std.TransCmp (@rowCmp δ lower lowerStr o) := transCmp_rowCmp h o
  refine sortWith_perm (hperm.filterMap _) fun a ha b hb hab => ?_
  obtain ⟨name, hname, ha⟩ := List.mem_filterMap.1 ha
  obtain ⟨name', hname', hb⟩ := List.mem_filterMap.1 hb
  have hdecode := congrArg (List.flatMap String.utf8EncodeChar) (eq_of_rowCmp h hab)
  rw [shown_name _ _ _ _ _ _ ha, shown_name _ _ _ _ _ _ hb, Utf8.encode_decode (Utf8.valid_lossy _),
    Utf8.encode_decode (Utf8.valid_lossy _), Utf8.lossy_eq_self_iff.2 (hvalid name hname),
    Utf8.lossy_eq_self_iff.2 (hvalid name' hname')] at hdecode
  rw [hdecode, hb] at ha
  exact (Option.some.inj ha).symm

end

/-- **The order of a folder**: `natural_cmp` is a strict total order of all names, and where there is
room for the names of a folder, all of them texts, `list` answers the same in whatever order the disk
gives them. -/
theorem list_order {lower : Char → Str} (h : KeepsDigits lower) :
    (∀ a b, naturalCmp lower a b = .eq ↔ a = b) ∧
      (∀ a b, naturalCmp lower b a = (naturalCmp lower a b).swap) ∧
      (∀ a b c, naturalCmp lower a b = .lt → naturalCmp lower b c = .lt → naturalCmp lower a c = .lt) ∧
      ∀ {γ δ : Type} (lowerStr : Str → Str) (f : Folder γ δ) (o : Options) (db : Desktop.MimeDb)
        (names names' : List Bytes), names.Perm names' → (∀ name ∈ names, Utf8.valid name = true) →
        names.length ≤ o.limit →
          list lower lowerStr { f with names := .ok names } o db =
            list lower lowerStr { f with names := .ok names' } o db := by
  have htrans := transCmp_naturalCmp h
  refine ⟨fun a b => ⟨eq_of_naturalCmp h, ?_⟩, fun a b => Std.OrientedCmp.eq_swap,
    fun a b c => Std.TransCmp.lt_trans, ?_⟩
  · rintro rfl
    exact Std.ReflCmp.compare_self
  · intro γ δ lowerStr f o db names names' hperm hvalid hlimit
    rw [list_eq lower lowerStr f o db hlimit,
      list_eq lower lowerStr f o db (hperm.length_eq ▸ hlimit), hperm.length_eq, hperm.countP_eq,
      rowsOf_perm lowerStr f o db _ _ h hperm hvalid]

/-- The lower case of ASCII. -/
def asciiLowercase (c : Char) : Str := [c.toLower]

theorem keepsDigits_ascii : KeepsDigits asciiLowercase where
  digit c hc := by
    rw [isDigit_iff] at hc
    exact dif_neg fun h => by
      have hlow : 65 ≤ c.toNat := UInt32.le_iff_toNat_le.1 h.1
      omega
  other c hc := by
    have hletters : ∀ n < 91, 65 ≤ n → (Char.ofNat n).toLower.isDigit = false := by decide
    change c.toLower.isDigit = false
    by_cases h : c.val ≥ 'A'.val ∧ c.val ≤ 'Z'.val
    · have hlow : 65 ≤ c.toNat := UInt32.le_iff_toNat_le.1 h.1
      have hhigh : c.toNat ≤ 90 := UInt32.le_iff_toNat_le.1 h.2
      have hnot := hletters c.toNat (by omega) hlow
      rwa [Char.ofNat_toNat] at hnot
    · have hsame : c.toLower = c := dif_neg h
      rw [hsame, hc]

example : naturalCmp asciiLowercase "file9".toList "File10".toList = .lt ∧
    naturalCmp asciiLowercase "img1".toList "img001".toList = .lt ∧
    naturalCmp asciiLowercase "a".toList "A".toList = .gt := by
  decide

/-- A folder of empty files. -/
def emptyFiles : Folder Unit Unit where
  opened := .ok ()
  names := .ok []
  dotHidden := none
  metadata _ := some ⟨.regular, 0o644, 0, 0, 0, 1000, 1000⟩
  target _ := none
  followed _ := none
  created _ := none
  tags _ := none
  icon _ := none
  git _ := none
  gitOf _ _ := ()

/-- A folder of no types. -/
def noTypes : Desktop.MimeDb := ⟨fun _ => none, fun _ => none, []⟩

theorem list_order_twoFiles :
    KeepsDigits asciiLowercase ∧
      list asciiLowercase id { emptyFiles with names := .ok [text "b9", text "a"] } {} noTypes =
        list asciiLowercase id { emptyFiles with names := .ok [text "a", text "b9"] } {} noTypes :=
  ⟨keepsDigits_ascii, (list_order keepsDigits_ascii).2.2.2 id emptyFiles {} noTypes _ _
    (List.Perm.swap _ _ _) (by decide) (by decide)⟩

end Aurade.Ops.Rows
