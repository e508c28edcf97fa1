import Aurade.Foundations.Calendar
import Aurade.Ops.Query
import Aurade.Ops.Trash

/-!
# Dates in seconds and back

The trash and the recent files write dates from a day number, and the search reads one back. Each
function is given a second time over numbers of sixty-four bits, where a step that does not fit ends
it; a result of that version is the result of the function.

From a day whose seconds fit, no step of the two writers leaves the numbers (`trashChecked_eq`,
`placesChecked_eq`), and both write the date of the calendar. `parse_date` holds the month and the day
to their ranges and takes any year, so that it is only within `lastDay` that its steps fit.
-/

namespace Aurade.Ops.Dates

open Calendar Search

/-! ## Steps that may overflow -/

/-- What an `i64` holds. -/
def Fits (n : ℤ) : Prop := -2 ^ 63 ≤ n ∧ n < 2 ^ 63

instance (n : ℤ) : Decidable (Fits n) := inferInstanceAs (Decidable (_ ∧ _))

/-- The value of a step, where it fits. -/
def checked (n : ℤ) : Option ℤ := if Fits n then some n else none

theorem checked_of {n : ℤ} (h : Fits n) : checked n = some n := if_pos h

theorem checked_bind {α : Type*} {n : ℤ} (h : Fits n) (f : ℤ → Option α) :
    (checked n).bind f = f n := by
  rw [checked_of h, Option.bind_some]

theorem checked_bind_of_not {α : Type*} {n : ℤ} (h : ¬Fits n) (f : ℤ → Option α) :
    (checked n).bind f = none := by
  rw [checked, if_neg h, Option.bind_none]

theorem fits_of {n : ℤ} (h : -9223372036854775808 ≤ n) (h' : n ≤ 9223372036854775807) : Fits n := by
  unfold Fits
  omega

/-! ## From days to a date -/

/-- The end of `civil_from_days`, the same in both: the date of a day of four hundred years. -/
def civilOfEra (era doe : ℤ) : ℤ × ℕ × ℕ :=
  let yoe := (doe - doe.tdiv 1460 + doe.tdiv 36524 - doe.tdiv 146096).tdiv 365
  let y := yoe + era * 400
  let doy := doe - (365 * yoe + yoe.tdiv 4 - yoe.tdiv 100)
  let mp := (5 * doy + 2).tdiv 153
  let d := (doy - (153 * mp + 2).tdiv 5 + 1).toNat
  let m := (if mp < 10 then mp + 3 else mp - 9).toNat
  (if m ≤ 2 then y + 1 else y, m, d)

/-- `civilOfEra`, step by step. -/
def civilOfEraChecked (era doe : ℤ) : Option (ℤ × ℕ × ℕ) :=
  (checked (doe - doe.tdiv 1460)).bind fun a => (checked (a + doe.tdiv 36524)).bind fun a =>
  (checked (a - doe.tdiv 146096)).bind fun a =>
  let yoe := a.tdiv 365
  (checked (era * 400)).bind fun years => (checked (yoe + years)).bind fun y =>
  (checked (365 * yoe)).bind fun a => (checked (a + yoe.tdiv 4)).bind fun a =>
  (checked (a - yoe.tdiv 100)).bind fun before => (checked (doe - before)).bind fun doy =>
  (checked (5 * doy)).bind fun a => (checked (a + 2)).bind fun a =>
  let mp := a.tdiv 153
  (checked (153 * mp)).bind fun a => (checked (a + 2)).bind fun a =>
  (checked (doy - a.tdiv 5)).bind fun a => (checked (a + 1)).bind fun d =>
  (checked (if mp < 10 then mp + 3 else mp - 9)).bind fun m =>
  (if m.toNat ≤ 2 then checked (y + 1) else some y).map fun y => (y, m.toNat, d.toNat)

/-- `civil_from_days` of the trash, step by step. -/
def trashChecked (days : ℤ) : Option (ℤ × ℕ × ℕ) :=
  (checked (days + 719468)).bind fun z => civilOfEraChecked (z / 146097) (z % 146097)

/-- `civil_from_days` of the recent files, step by step. -/
def placesChecked (days : ℤ) : Option (ℤ × ℕ × ℕ) :=
  (checked (days + 719468)).bind fun z =>
  (if 0 ≤ z then some z else checked (z - 146096)).bind fun n =>
  let era := n.tdiv 146097
  (checked (era * 146097)).bind fun a => (checked (z - a)).bind fun doe => civilOfEraChecked era doe

theorem trash_eq (days : ℤ) : Trash.civilFromDays days =
    civilOfEra ((days + 719468) / 146097) ((days + 719468) % 146097) := rfl

/-- Division that rounds to zero, of what is moved below zero, rounds down. -/
theorem tdiv_floor (z : ℤ) {k : ℤ} (hk : 0 < k) :
    (if 0 ≤ z then z else z - (k - 1)).tdiv k = z / k := by
  split
  · next h => exact Int.tdiv_eq_ediv_of_nonneg h
  · next h =>
    have hmod := Int.emod_nonneg z hk.ne'
    have hlt := Int.emod_lt_of_pos z hk
    have hq : 0 ≤ -(z / k) := by
      have := Int.ediv_neg_of_neg_of_pos (not_le.1 h) hk
      omega
    have hz : z - (k - 1) = -(k - 1 - z % k + k * -(z / k)) := by
      have := Int.mul_ediv_add_emod z k
      rw [Int.mul_neg]
      omega
    have hpos := Int.mul_nonneg hk.le hq
    rw [hz, Int.neg_tdiv, Int.tdiv_eq_ediv_of_nonneg (by omega),
      Int.add_mul_ediv_left _ _ hk.ne', Int.ediv_eq_zero_of_lt (by omega) (by omega), zero_add, neg_neg]

theorem places_eq (days : ℤ) : Stores.civilFromDays days =
    civilOfEra ((days + 719468) / 146097) ((days + 719468) % 146097) := by
  have h : Stores.civilFromDays days = civilOfEra
      ((if 0 ≤ days + 719468 then days + 719468 else
        days + 719468 - (146097 - 1)).tdiv 146097)
      (days + 719468 - (if 0 ≤ days + 719468 then days + 719468 else
        days + 719468 - (146097 - 1)).tdiv 146097 * 146097) := rfl
  rw [h, tdiv_floor _ (by decide), Int.emod_def, mul_comm 146097]

/-- The divisions are of numbers that are not below zero. -/
theorem yearOfEra_tdiv {doe : ℤ} (h : 0 ≤ doe ∧ doe < 146097) :
    (doe - doe.tdiv 1460 + doe.tdiv 36524 - doe.tdiv 146096).tdiv 365 = yearOfEra doe := by
  rw [Int.tdiv_eq_ediv_of_nonneg h.1, Int.tdiv_eq_ediv_of_nonneg h.1,
    Int.tdiv_eq_ediv_of_nonneg h.1, Int.tdiv_eq_ediv_of_nonneg (by omega), yearOfEra]

theorem daysBeforeYear_tdiv {yoe : ℤ} (h : 0 ≤ yoe) :
    365 * yoe + yoe.tdiv 4 - yoe.tdiv 100 = daysBeforeYear yoe := by
  rw [Int.tdiv_eq_ediv_of_nonneg h, Int.tdiv_eq_ediv_of_nonneg h, daysBeforeYear]

/-- The function gives the date of the calendar. -/
theorem civilOfEra_eq (z : ℤ) : civilOfEra (era z) (dayOfEra z) =
    ((Date.ofNumber z).year, (Date.ofNumber z).month.toNat, (Date.ofNumber z).day.toNat) := by
  have hdoe := dayOfEra_mem z
  obtain ⟨⟨hyoe, -⟩, -, -⟩ := yearOfEra_spec hdoe
  have hdoy := dayOfYear_mem z
  obtain ⟨hmp, -, -⟩ := monthOf_mem hdoy
  have hmonth := calendarMonth_mem hmp
  have hmp' : (5 * dayOfYear z + 2).tdiv 153 = monthOf (dayOfYear z) :=
    Int.tdiv_eq_ediv_of_nonneg (by omega)
  have hbefore : (153 * monthOf (dayOfYear z) + 2).tdiv 5 = daysBefore (monthOf (dayOfYear z)) :=
    Int.tdiv_eq_ediv_of_nonneg (by omega)
  simp only [civilOfEra, yearOfEra_tdiv hdoe, daysBeforeYear_tdiv hyoe]
  rw [← dayOfYear, hmp', hbefore, ← calendarMonth, ← yearOf]
  have hiff : (calendarMonth (monthOf (dayOfYear z))).toNat ≤ 2 ↔
      calendarMonth (monthOf (dayOfYear z)) ≤ 2 := by omega
  simp only [hiff, Date.ofNumber]

/-- No step of it leaves the numbers where the years do not. -/
theorem civilOfEraChecked_eq (e z : ℤ) (h : -1000000000000 ≤ e ∧ e ≤ 1000000000000) :
    civilOfEraChecked e (dayOfEra z) = some (civilOfEra e (dayOfEra z)) := by
  have hdoe := dayOfEra_mem z
  obtain ⟨hyoe, -⟩ := yearOfEra_spec hdoe
  have hdoy := dayOfYear_mem z
  have hdoy' : dayOfYear z ≤ 365 := by omega
  obtain ⟨hmp, -⟩ := monthOf_mem hdoy
  have h1 := Int.tdiv_eq_ediv_of_nonneg (b := 1460) hdoe.1
  have h2 := Int.tdiv_eq_ediv_of_nonneg (b := 36524) hdoe.1
  have h3 := Int.tdiv_eq_ediv_of_nonneg (b := 146096) hdoe.1
  have h4 := Int.tdiv_eq_ediv_of_nonneg (b := 4) hyoe.1
  have h100 := Int.tdiv_eq_ediv_of_nonneg (b := 100) hyoe.1
  have hmonth : (5 * dayOfYear z + 2).tdiv 153 = monthOf (dayOfYear z) :=
    Int.tdiv_eq_ediv_of_nonneg (by omega)
  have hbefore : (153 * monthOf (dayOfYear z) + 2).tdiv 5 = daysBefore (monthOf (dayOfYear z)) :=
    Int.tdiv_eq_ediv_of_nonneg (by omega)
  have hbefore' : 0 ≤ daysBefore (monthOf (dayOfYear z)) ∧
      daysBefore (monthOf (dayOfYear z)) ≤ 337 := by
    unfold daysBefore
    omega
  unfold civilOfEraChecked civilOfEra
  rw [checked_bind (fits_of (by omega) (by omega)), checked_bind (fits_of (by omega) (by omega)),
    checked_bind (fits_of (by omega) (by omega))]
  simp only [yearOfEra_tdiv hdoe]
  rw [checked_bind (fits_of (by omega) (by omega)), checked_bind (fits_of (by omega) (by omega)),
    checked_bind (fits_of (by omega) (by omega)), checked_bind (fits_of (by omega) (by omega)),
    checked_bind (fits_of (by omega) (by omega))]
  simp only [daysBeforeYear_tdiv hyoe.1]
  rw [← dayOfYear, checked_bind (fits_of (by omega) (by omega)),
    checked_bind (fits_of (by omega) (by omega)), checked_bind (fits_of (by omega) (by omega))]
  simp only [hmonth]
  rw [checked_bind (fits_of (by omega) (by omega)), checked_bind (fits_of (by omega) (by omega)),
    hbefore, checked_bind (fits_of (by omega) (by omega)),
    checked_bind (fits_of (by omega) (by omega)),
    checked_bind (fits_of (by split <;> omega) (by split <;> omega))]
  rw [checked_of (fits_of (by omega) (by omega)), ← apply_ite some, Option.map_some]

/-- What the seconds of a day leave for the day. -/
theorem day_mem {z : ℤ} (h : Fits (z * 86400)) : -106751991167300 ≤ z ∧ z ≤ 106751991167300 := by
  unfold Fits at h
  omega

theorem trashChecked_eq {z : ℤ} (h : Fits (z * 86400)) :
    trashChecked z = some (Trash.civilFromDays z) := by
  have hz := day_mem h
  rw [trashChecked, checked_bind (fits_of (by omega) (by omega)), trash_eq]
  exact civilOfEraChecked_eq _ z (by omega)

theorem placesChecked_eq {z : ℤ} (h : Fits (z * 86400)) :
    placesChecked z = some (Stores.civilFromDays z) := by
  have hz := day_mem h
  have hmove : (if 0 ≤ z + 719468 then some (z + 719468) else checked (z + 719468 - 146096)) =
      some (if 0 ≤ z + 719468 then z + 719468 else z + 719468 - (146097 - 1)) := by
    split
    · rfl
    · exact checked_of (fits_of (by omega) (by omega))
  have hera : z + 719468 - (z + 719468) / 146097 * 146097 = dayOfEra z := by
    unfold dayOfEra
    omega
  rw [placesChecked, checked_bind (fits_of (by omega) (by omega)), hmove, Option.bind_some,
    places_eq]
  simp only [tdiv_floor _ (show (0 : ℤ) < 146097 by decide)]
  rw [checked_bind (fits_of (by omega) (by omega)), checked_bind (fits_of (by omega) (by omega)), hera]
  exact civilOfEraChecked_eq _ z (by omega)

/-! ## From a date to seconds -/

/-- The end of `parse_date`, step by step. -/
def epochChecked (y m d : ℤ) : Option ℤ :=
  (if m ≤ 2 then checked (y - 1) else some y).bind fun y =>
  (if 0 ≤ y then some y else checked (y - 399)).bind fun n =>
  let era := n.tdiv 400
  (checked (era * 400)).bind fun a => (checked (y - a)).bind fun yoe =>
  (checked (if 2 < m then m - 3 else m + 9)).bind fun mp =>
  (checked (153 * mp)).bind fun a => (checked (a + 2)).bind fun a =>
  (checked (a.tdiv 5 + d)).bind fun a => (checked (a - 1)).bind fun doy =>
  (checked (yoe * 365)).bind fun a => (checked (a + yoe.tdiv 4)).bind fun a =>
  (checked (a - yoe.tdiv 100)).bind fun a => (checked (a + doy)).bind fun doe =>
  (checked (era * 146097)).bind fun a => (checked (a + doe)).bind fun a =>
  (checked (a - 719468)).bind fun days => checked (days * 86400)

/-- The year, the month and the day that `parse_date` finds in a text. -/
def readDate (value : Str) : Option (ℤ × ℤ × ℤ) :=
  match value.splitOn '-' with
  | y :: m :: d :: _ =>
    (parseI64 y).bind fun y => (parseI64 m).bind fun m => (parseI64 d).bind fun d =>
      if 1 ≤ m ∧ m ≤ 12 ∧ 1 ≤ d ∧ d ≤ 31 then some (y, m, d) else none
  | _ => none

theorem parseDate_eq (value : Str) :
    parseDate value = (readDate value).map fun p => epochSeconds p.1 p.2.1 p.2.2 := by
  unfold parseDate readDate
  rcases value.splitOn '-' with _ | ⟨y, _ | ⟨m, _ | ⟨d, rest⟩⟩⟩
  case cons.cons.cons =>
    rcases hy : parseI64 y with _ | y'
    · simp only [hy, Option.bind_none, Option.map_none]
    rcases hm : parseI64 m with _ | m'
    · simp only [hy, hm, Option.bind_none, Option.bind_some, Option.map_none]
    rcases hd : parseI64 d with _ | d'
    · simp only [hy, hm, hd, Option.bind_none, Option.bind_some, Option.map_none]
    simp only [hy, hm, hd, Option.bind_some]
    split <;> rfl
  all_goals rfl

/-- `parse_date`, step by step. -/
def parseDateChecked (value : Str) : Option (Option ℤ) :=
  match readDate value with
  | some (y, m, d) => (epochChecked y m d).map some
  | none => some none

/-- A text without a dash gives no number below zero. -/
theorem parseI64_mem {s : Str} {n : ℤ} (hs : '-' ∉ s) (h : parseI64 s = some n) :
    0 ≤ n ∧ n < 2 ^ 63 := by
  have hhead : s.head? ≠ some '-' := fun hd => hs (List.mem_of_mem_head? hd)
  simp only [parseI64, if_neg hhead] at h
  obtain ⟨-, h⟩ := Option.ite_none_right_eq_some.1 h
  obtain ⟨hn, h⟩ := Option.ite_none_right_eq_some.1 h
  rw [← Option.some.inj h]
  exact ⟨Int.natCast_nonneg _, hn.2⟩

/-- The numbers of a date that is read. -/
theorem readDate_mem {s : Str} {y m d : ℤ} (h : readDate s = some (y, m, d)) :
    (0 ≤ y ∧ y < 2 ^ 63) ∧ (1 ≤ m ∧ m ≤ 12) ∧ 1 ≤ d ∧ d ≤ 31 := by
  unfold readDate at h
  split at h
  · next y' m' d' rest hsplit =>
    obtain ⟨a, ha, h⟩ := Option.bind_eq_some_iff.1 h
    obtain ⟨b, hb, h⟩ := Option.bind_eq_some_iff.1 h
    obtain ⟨c, hc, h⟩ := Option.bind_eq_some_iff.1 h
    split at h
    · next hmem =>
      obtain ⟨rfl, rfl, rfl⟩ : a = y ∧ b = m ∧ c = d := by simpa using h
      have hdash : '-' ∉ y' := @notMem_of_mem_splitOn Char _ _ s y' (hsplit ▸ List.mem_cons_self)
      exact ⟨parseI64_mem hdash ha, ⟨hmem.1, hmem.2.1⟩, hmem.2.2⟩
    · cases h
  · cases h

/-- The days before a year of four hundred, and of them before it. -/
theorem marchDays_eq (y : ℤ) : marchDays y =
    y / 400 * 146097 + (y % 400 * 365 + y % 400 / 4 - y % 400 / 100) := by
  unfold marchDays
  omega

theorem checked_bind_eq_none {α : Type*} {n : ℤ} {f : ℤ → Option α} (h : Fits n → f n = none) :
    (checked n).bind f = none := by
  by_cases hn : Fits n
  · rw [checked_bind hn, h hn]
  · exact checked_bind_of_not hn f

/-- The steps fit where the seconds do. -/
theorem epochChecked_eq {y m d : ℤ} (hy : 0 ≤ y ∧ y < 2 ^ 63) (hm : 1 ≤ m ∧ m ≤ 12)
    (hd : 1 ≤ d ∧ d ≤ 31) : epochChecked y m d = checked (dayNumber y m d * 86400) := by
  have hyear : (if m ≤ 2 then checked (y - 1) else some y) = some (marchYear y m) := by
    unfold marchYear
    split
    · exact checked_of (fits_of (by omega) (by omega))
    · rfl
  have hmarch : -1 ≤ marchYear y m ∧ marchYear y m < 2 ^ 63 := by
    unfold marchYear
    split <;> omega
  have hmonth : (if 2 < m then m - 3 else m + 9) = marchMonth m := by
    unfold marchMonth
    split <;> split <;> omega
  have hmp : 0 ≤ marchMonth m ∧ marchMonth m ≤ 11 := by
    unfold marchMonth
    split <;> omega
  unfold epochChecked dayNumber
  rw [hyear, Option.bind_some, hmonth, marchDays_eq]
  generalize marchYear y m = y' at *
  have hmove : (if 0 ≤ y' then some y' else checked (y' - 399)) =
      some (if 0 ≤ y' then y' else y' - (400 - 1)) := by
    split
    · rfl
    · exact checked_of (fits_of (by omega) (by omega))
  have hyoe : y' - y' / 400 * 400 = y' % 400 := by omega
  have hyoe' : 0 ≤ y' % 400 ∧ y' % 400 < 400 := by omega
  have h4 := Int.tdiv_eq_ediv_of_nonneg (b := 4) hyoe'.1
  have h100 := Int.tdiv_eq_ediv_of_nonneg (b := 100) hyoe'.1
  have hbefore : (153 * marchMonth m + 2).tdiv 5 = daysBefore (marchMonth m) :=
    Int.tdiv_eq_ediv_of_nonneg (by omega)
  have hbefore' : 0 ≤ daysBefore (marchMonth m) ∧ daysBefore (marchMonth m) ≤ 337 := by
    unfold daysBefore
    omega
  rw [hmove, Option.bind_some]
  simp only [tdiv_floor _ (show (0 : ℤ) < 400 by decide)]
  rw [checked_bind (fits_of (by omega) (by omega)), hyoe,
    checked_bind (fits_of (by omega) (by omega)), checked_bind (fits_of (by omega) (by omega)),
    checked_bind (fits_of (by omega) (by omega)), checked_bind (fits_of (by omega) (by omega)),
    hbefore, checked_bind (fits_of (by omega) (by omega)),
    checked_bind (fits_of (by omega) (by omega)), checked_bind (fits_of (by omega) (by omega)),
    h4, h100, checked_bind (fits_of (by omega) (by omega)),
    checked_bind (fits_of (by omega) (by omega)), checked_bind (fits_of (by omega) (by omega))]
  generalize hdoe : y' % 400 * 365 + y' % 400 / 4 - y' % 400 / 100 +
    (daysBefore (marchMonth m) + d - 1) = doe
  have hdoe' : 0 ≤ doe ∧ doe < 200000 := by omega
  have hdays : y' / 400 * 146097 + (y' % 400 * 365 + y' % 400 / 4 - y' % 400 / 100) +
      daysBefore (marchMonth m) + d - 1 - 719468 = y' / 400 * 146097 + doe - 719468 := by omega
  have hlow : -1 ≤ y' / 400 := by omega
  rw [hdays]
  by_cases hfit : Fits ((y' / 400 * 146097 + doe - 719468) * 86400)
  · have hle := (day_mem hfit).2
    rw [checked_bind (fits_of (by omega) (by omega)), checked_bind (fits_of (by omega) (by omega)),
      checked_bind (fits_of (by omega) (by omega))]
  · have hnone : checked ((y' / 400 * 146097 + doe - 719468) * 86400) = none := if_neg hfit
    rw [hnone]
    exact checked_bind_eq_none fun _ => checked_bind_eq_none fun _ => checked_bind_eq_none fun _ => hnone

theorem wrap_of {n : ℤ} (h : Fits n) : wrap n = n :=
  Int.bmod_eq_of_le (by unfold Fits at h; omega) (by unfold Fits at h; omega)

/-- What the function gives, of the numbers it takes. -/
theorem epochSeconds_eq {y m d : ℤ} (hm : 1 ≤ m ∧ m ≤ 12) :
    epochSeconds y m d = wrap (dayNumber y m d * 86400) := by
  have hmonth : (if 2 < m then m - 3 else m + 9) = marchMonth m := by
    unfold marchMonth
    split <;> split <;> omega
  have hmp : 0 ≤ marchMonth m := by
    unfold marchMonth
    split <;> omega
  have hbefore : (153 * marchMonth m + 2).tdiv 5 = daysBefore (marchMonth m) :=
    Int.tdiv_eq_ediv_of_nonneg (by omega)
  have hera := tdiv_floor (marchYear y m) (show (0 : ℤ) < 400 by decide)
  have hyoe : marchYear y m - marchYear y m / 400 * 400 = marchYear y m % 400 := by omega
  have h4 := Int.tdiv_eq_ediv_of_nonneg (b := 4) (show 0 ≤ marchYear y m % 400 by omega)
  have h100 := Int.tdiv_eq_ediv_of_nonneg (b := 100) (show 0 ≤ marchYear y m % 400 by omega)
  have h : epochSeconds y m d = wrap (((if 0 ≤ marchYear y m then marchYear y m else
      marchYear y m - (400 - 1)).tdiv 400 * 146097 +
      ((marchYear y m - (if 0 ≤ marchYear y m then marchYear y m else
        marchYear y m - (400 - 1)).tdiv 400 * 400) * 365 +
      (marchYear y m - (if 0 ≤ marchYear y m then marchYear y m else
        marchYear y m - (400 - 1)).tdiv 400 * 400).tdiv 4 -
      (marchYear y m - (if 0 ≤ marchYear y m then marchYear y m else
        marchYear y m - (400 - 1)).tdiv 400 * 400).tdiv 100 +
      ((153 * (if 2 < m then m - 3 else m + 9) + 2).tdiv 5 + d - 1)) - 719468) * 86400) := rfl
  rw [h, hera, hmonth, hbefore, hyoe, h4, h100, dayNumber, marchDays_eq]
  congr 2
  omega

/-- The last day whose seconds fit: the fourth of December 292277026596. -/
def lastDay : ℤ × ℤ × ℤ := (292277026596, 12, 4)

/-- A date is not after the last day. -/
def Within (y m d : ℤ) : Prop := y < lastDay.1 ∨ y = lastDay.1 ∧
  (m < lastDay.2.1 ∨ m = lastDay.2.1 ∧ d ≤ lastDay.2.2)

theorem within_iff {y m d : ℤ} (hy : 0 ≤ y) (hm : 1 ≤ m ∧ m ≤ 12) (hd : 1 ≤ d ∧ d ≤ 31) :
    Fits (dayNumber y m d * 86400) ↔ Within y m d := by
  have hlow : marchDays (-1) ≤ marchDays (marchYear y m) :=
    marchDays_mono (by unfold marchYear; split <;> omega)
  have hstart : marchDays (-1) = -366 := by decide
  have hlast : marchDays 292277026596 = 106751991886490 := by decide
  have hbefore : 0 ≤ daysBefore (marchMonth m) ∧ daysBefore (marchMonth m) ≤ 337 := by
    unfold daysBefore marchMonth
    split <;> omega
  have hfits : Fits (dayNumber y m d * 86400) ↔ dayNumber y m d ≤ 106751991167300 := by
    unfold Fits dayNumber
    omega
  rw [hfits]
  change _ ↔ y < 292277026596 ∨ y = 292277026596 ∧ (m < 12 ∨ m = 12 ∧ d ≤ 4)
  rcases lt_trichotomy y 292277026596 with hlt | rfl | hlt
  · have := marchDays_mono (show marchYear y m ≤ 292277026595 by unfold marchYear; split <;> omega)
    have hprev : marchDays 292277026595 = 106751991886124 := by decide
    unfold dayNumber
    omega
  · unfold dayNumber
    obtain ⟨h1, h12⟩ := hm
    interval_cases m
    case «1» | «2» =>
      rw [show marchYear 292277026596 _ = 292277026595 from rfl,
        show marchDays 292277026595 = 106751991886124 by decide]
      simp only [marchMonth, daysBefore, true_and]
      omega
    all_goals
      rw [show marchYear 292277026596 _ = 292277026596 from rfl, hlast]
      simp only [marchMonth, daysBefore, true_and]
      omega
  · unfold dayNumber
    by_cases hm2 : m ≤ 2
    · have := marchDays_mono (show 292277026596 ≤ marchYear y m by rw [marchYear, if_pos hm2]; omega)
      have hend : 306 ≤ daysBefore (marchMonth m) := by
        rw [marchMonth, if_pos hm2, daysBefore]
        omega
      omega
    · have := marchDays_mono (show 292277026597 ≤ marchYear y m by rw [marchYear, if_neg hm2]; omega)
      have hnext : marchDays 292277026597 = 106751991886855 := by decide
      omega

/-! ## A date as text -/

/-- ASCII bytes as characters. -/
def chars (bs : Bytes) : Str := bs.map fun b => Char.ofNat b.toNat

/-- A date year-month-day, with zeros in front up to the widths. -/
def written (wy wm wd y m d : ℕ) : Str :=
  chars (padded wy y) ++ '-' :: (chars (padded wm m) ++ '-' :: chars (padded wd d))

theorem char_of_digit {b : UInt8} (h : isDigit b = true) :
    (Char.ofNat b.toNat).isDigit = true ∧ (Char.ofNat b.toNat).toNat = b.toNat := by
  have hmem : 48 ≤ b.toNat ∧ b.toNat ≤ 57 := by
    simpa [isDigit, UInt8.le_iff_toNat_le] using h
  obtain ⟨h0, h9⟩ := hmem
  interval_cases b.toNat <;> decide

theorem all_isDigit_chars {bs : Bytes} (h : bs.all isDigit = true) :
    (chars bs).all Char.isDigit = true := by
  rw [chars, List.all_map, List.all_eq_true]
  exact fun b hb => (char_of_digit (List.all_eq_true.1 h b hb)).1

theorem digitsVal_chars {bs : Bytes} (h : bs.all isDigit = true) :
    digitsVal (chars bs) = parseDecimal bs := by
  induction bs using List.reverseRecOn with
  | nil => rfl
  | append_singleton bs b ih =>
    rw [List.all_append, Bool.and_eq_true] at h
    have hb := (char_of_digit (List.all_eq_true.1 h.2 b (List.mem_singleton_self b))).2
    rw [parseDecimal_append, ← ih h.1, chars, List.map_append, List.map_singleton, digitsVal,
      List.foldl_append, ← chars, ← digitsVal]
    change 10 * digitsVal (chars bs) + ((Char.ofNat b.toNat).toNat - 48) = _
    rw [hb]

/-- A number is read from its digits. -/
theorem parseI64_chars (w : ℕ) {n : ℕ} (h : n < 2 ^ 63) :
    parseI64 (chars (padded w n)) = some (n : ℤ) := by
  have hall := all_isDigit_chars (all_isDigit_padded w n)
  have hne : chars (padded w n) ≠ [] := by
    rw [chars, Ne, List.map_eq_nil_iff, padded, List.append_eq_nil_iff, not_and]
    exact fun _ => decimal_ne_nil n
  have hsign : ∀ c : Char, c.isDigit = false → (chars (padded w n)).head? ≠ some c := by
    intro c hc hhead
    rw [List.all_eq_true.1 hall c (List.mem_of_mem_head? hhead)] at hc
    cases hc
  have hval : digitsVal (chars (padded w n)) = n := by
    rw [digitsVal_chars (all_isDigit_padded w n), parseDecimal_padded]
  simp only [parseI64, hsign '+' (by decide), hsign '-' (by decide), or_self, and_false, if_false,
    hval]
  rw [if_pos ⟨hne, hall⟩, if_pos ⟨by omega, by omega⟩]

theorem notMem_chars (w n : ℕ) : '-' ∉ chars (padded w n) := by
  intro h
  exact absurd (List.all_eq_true.1 (all_isDigit_chars (all_isDigit_padded w n)) '-' h) (by decide)

theorem readDate_written (wy wm wd : ℕ) {y m d : ℕ} (hy : y < 2 ^ 63) (hm : 1 ≤ m ∧ m ≤ 12)
    (hd : 1 ≤ d ∧ d ≤ 31) : readDate (written wy wm wd y m d) = some (↑y, ↑m, ↑d) := by
  have hsplit : (written wy wm wd y m d).splitOn '-' =
      [chars (padded wy y), chars (padded wm m), chars (padded wd d)] := by
    rw [written, List.splitOn_append_cons_self, List.splitOn_append_cons_self,
      List.splitOn_eq_singleton (notMem_chars _ _), List.splitOn_eq_singleton (notMem_chars _ _),
      List.splitOn_eq_singleton (notMem_chars _ _)]
    rfl
  rw [readDate, hsplit]
  simp only [parseI64_chars wy hy, parseI64_chars wm (show m < 2 ^ 63 by omega),
    parseI64_chars wd (show d < 2 ^ 63 by omega), Option.bind_some]
  exact if_pos (by omega)

/-! ## Both ways -/

/-- Dates of this form are in this order. -/
def Before (a b : ℤ × ℕ × ℕ) : Prop :=
  a.1 < b.1 ∨ a.1 = b.1 ∧ (a.2.1 < b.2.1 ∨ a.2.1 = b.2.1 ∧ a.2.2 < b.2.2)

/-- A day is turned into its date by both functions, and the date back into the day. -/
structure Converts (z : ℤ) : Prop where
  agree : Trash.civilFromDays z = Stores.civilFromDays z
  /-- No step overflows. -/
  trash : trashChecked z = some (Trash.civilFromDays z)
  places : placesChecked z = some (Stores.civilFromDays z)
  /-- The date is one of the calendar, and of this day. -/
  valid : ∃ date : Date, date.number = z ∧
    Trash.civilFromDays z = (date.year, date.month.toNat, date.day.toNat)
  later : ∀ w, Fits (w * 86400) → z < w → Before (Trash.civilFromDays z) (Trash.civilFromDays w)
  back : ∀ wy wm wd, 0 ≤ (Trash.civilFromDays z).1 →
    parseDate (written wy wm wd (Trash.civilFromDays z).1.toNat (Trash.civilFromDays z).2.1
      (Trash.civilFromDays z).2.2) = some (z * 86400)

theorem trash_date (z : ℤ) : Trash.civilFromDays z =
    ((Date.ofNumber z).year, (Date.ofNumber z).month.toNat, (Date.ofNumber z).day.toNat) := by
  rw [trash_eq]
  exact civilOfEra_eq z

/-- The order of the dates is that of the calendar. -/
theorem before_iff {a b : Date} : Before (a.year, a.month.toNat, a.day.toNat)
    (b.year, b.month.toNat, b.day.toNat) ↔ a < b := by
  have := a.month_mem
  have := b.month_mem
  have := a.day_mem
  have := b.day_mem
  rw [Date.lt_iff]
  change (a.year < b.year ∨ a.year = b.year ∧ (a.month.toNat < b.month.toNat ∨
    a.month.toNat = b.month.toNat ∧ a.day.toNat < b.day.toNat)) ↔ _
  omega

/-- Every day whose seconds fit is turned into its date and back. -/
theorem converts {z : ℤ} (hz : Fits (z * 86400)) : Converts z where
  agree := by rw [trash_eq, places_eq]
  trash := trashChecked_eq hz
  places := placesChecked_eq hz
  valid := ⟨Date.ofNumber z, number_ofNumber z, trash_date z⟩
  later w _ h := by
    rw [trash_date, trash_date, before_iff]
    exact ofNumber_strictMono h
  back wy wm wd hyear := by
    have hdate := number_ofNumber z
    rw [trash_date] at hyear ⊢
    generalize Date.ofNumber z = date at *
    have hm := date.month_mem
    have hd := date.day_mem
    have hd31 : date.day ≤ 31 := by
      unfold monthDays at hd
      split at hd <;> split at hd <;> omega
    rw [Date.number] at hdate
    change 0 ≤ date.year at hyear
    have hwithin : date.year < 2 ^ 63 := by
      rw [← hdate, within_iff hyear hm ⟨hd.1, hd31⟩] at hz
      change date.year < 292277026596 ∨ date.year = 292277026596 ∧ _ at hz
      omega
    change parseDate (written wy wm wd date.year.toNat date.month.toNat date.day.toNat) = _
    rw [parseDate_eq, readDate_written wy wm wd (by omega) (by omega) (by omega), Option.map_some,
      Int.toNat_of_nonneg hyear, Int.toNat_of_nonneg (by omega), Int.toNat_of_nonneg (by omega),
      epochSeconds_eq hm, hdate, wrap_of hz]

/-- A text that names a day after the last names no day. -/
def Bounded (s : Str) : Prop := ∀ y m d, readDate s = some (y, m, d) → Within y m d

/-- No step of `parse_date` overflows where the text names no day after the last. -/
theorem parseDateChecked_iff (s : Str) : parseDateChecked s = some (parseDate s) ↔ Bounded s := by
  rw [parseDate_eq, parseDateChecked]
  cases hread : readDate s with
  | none =>
    refine ⟨fun _ y m d h => ?_, fun _ => rfl⟩
    rw [hread] at h
    cases h
  | some p =>
    obtain ⟨y, m, d⟩ := p
    obtain ⟨hy, hm, hd⟩ := readDate_mem hread
    have hbounded : Bounded s ↔ Within y m d := by
      refine ⟨fun h => h y m d hread, fun h y' m' d' h' => ?_⟩
      rw [hread] at h'
      cases h'
      exact h
    simp only [Option.map_some]
    rw [hbounded, ← within_iff hy.1 hm hd, epochChecked_eq hy hm hd, epochSeconds_eq hm]
    constructor
    · intro h
      by_contra hfit
      rw [checked, if_neg hfit] at h
      cases h
    · intro h
      rw [checked_of h, wrap_of h, Option.map_some]

/-- **Dates convert both ways, and a text is read without an overflow, exactly where the text names no
day after the last whose seconds fit.** -/
theorem dates_iff {z : ℤ} (hz : Fits (z * 86400)) (s : Str) :
    Converts z ∧ parseDateChecked s = some (parseDate s) ↔ Bounded s := by
  rw [parseDateChecked_iff]
  exact ⟨And.right, fun h => ⟨converts hz, h⟩⟩

theorem dates_iff_today : Converts 20704 ∧
    parseDateChecked "2026-09-08".toList = some (parseDate "2026-09-08".toList) ↔
      Bounded "2026-09-08".toList :=
  dates_iff (by decide) _

/-- The year of a text is not bounded, and the seconds of this one do not fit. -/
theorem year_overflows : ¬∀ z : ℤ, Fits (z * 86400) → ∀ s : Str,
    Converts z ∧ parseDateChecked s = some (parseDate s) := by
  intro h
  exact absurd (h 0 (by decide) "300000000000-01-01".toList).2 (by decide)

end Aurade.Ops.Dates
