import Mathlib

/-!
# The Gregorian calendar

A date is a year, a month and a day of that month, and dates are ordered by these in turn. A date has
a number: the days to it from the first of January 1970. Years are counted from March, so that the leap
day ends one: `marchDays` are the days before such a year, and the days in it before a month are linear
in the month but for rounding.

The number tells the date (`number_strictMono`), and `yearOfEra_spec` finds the year in four hundred
that a day is in from the day alone.
-/

namespace Aurade.Calendar

/-- The years that have a twenty-ninth of February. -/
def Leap (y : ℤ) : Prop := y % 4 = 0 ∧ (y % 100 ≠ 0 ∨ y % 400 = 0)

instance (y : ℤ) : Decidable (Leap y) := inferInstanceAs (Decidable (_ ∧ _))

/-- The days of a month. -/
def monthDays (y m : ℤ) : ℤ :=
  if m = 2 then if Leap y then 29 else 28
  else if m = 4 ∨ m = 6 ∨ m = 9 ∨ m = 11 then 30 else 31

/-- A day of the calendar. -/
structure Date where
  year : ℤ
  month : ℤ
  day : ℤ
  month_mem : 1 ≤ month ∧ month ≤ 12
  day_mem : 1 ≤ day ∧ day ≤ monthDays year month
  deriving DecidableEq

/-- The year, then the month, then the day. -/
def Date.parts (d : Date) : ℤ ×ₗ ℤ ×ₗ ℤ := toLex (d.year, toLex (d.month, d.day))

theorem Date.parts_injective : Function.Injective Date.parts := by
  rintro ⟨y, m, d, hm, hd⟩ ⟨y', m', d', hm', hd'⟩ h
  obtain ⟨rfl, h⟩ := Prod.ext_iff.1 (toLex_inj.1 h)
  obtain ⟨rfl, rfl⟩ := Prod.ext_iff.1 (toLex_inj.1 h)
  rfl

instance : LinearOrder Date := LinearOrder.lift' Date.parts Date.parts_injective

theorem Date.lt_iff {a b : Date} : a < b ↔ a.year < b.year ∨ a.year = b.year ∧
    (a.month < b.month ∨ a.month = b.month ∧ a.day < b.day) := by
  change toLex (a.year, toLex (a.month, a.day)) < toLex (b.year, toLex (b.month, b.day)) ↔ _
  rw [Prod.Lex.lt_iff, Prod.Lex.lt_iff]
  rfl

/-! ## Years that begin in March -/

/-- The year a month belongs to when years begin in March. -/
def marchYear (y m : ℤ) : ℤ := if m ≤ 2 then y - 1 else y

/-- The months before a month in its year. -/
def marchMonth (m : ℤ) : ℤ := if m ≤ 2 then m + 9 else m - 3

/-- The days before a year. -/
def marchDays (y : ℤ) : ℤ := 365 * y + y / 4 - y / 100 + y / 400

/-- The days of a year before a month of it. -/
def daysBefore (mp : ℤ) : ℤ := (153 * mp + 2) / 5

/-- The number of a day; the first of January 1970 is zero. -/
def dayNumber (y m d : ℤ) : ℤ :=
  marchDays (marchYear y m) + daysBefore (marchMonth m) + d - 1 - 719468

/-- The number of a date. -/
def Date.number (d : Date) : ℤ := dayNumber d.year d.month d.day

example : (Date.mk 1970 1 1 (by decide) (by decide)).number = 0 ∧
    (Date.mk 2026 9 8 (by decide) (by decide)).number = 20704 := by decide

theorem marchDays_succ (y : ℤ) :
    marchDays (y + 1) = marchDays y + if Leap (y + 1) then 366 else 365 := by
  unfold marchDays
  by_cases h : Leap (y + 1)
  · rw [if_pos h]
    obtain ⟨h4, h100⟩ := h
    omega
  · rw [if_neg h]
    unfold Leap at h
    omega

theorem marchDays_mono {a b : ℤ} (h : a ≤ b) : marchDays a ≤ marchDays b := by
  unfold marchDays
  omega

/-- The day of its year a date is, from zero. -/
theorem Date.dayOfYear_lt (d : Date) : 0 ≤ daysBefore (marchMonth d.month) + d.day - 1 ∧
    daysBefore (marchMonth d.month) + d.day - 1 <
      marchDays (marchYear d.year d.month + 1) - marchDays (marchYear d.year d.month) := by
  obtain ⟨y, m, d, ⟨h1, h12⟩, hd⟩ := d
  rw [marchDays_succ]
  simp only [marchYear, marchMonth, daysBefore, monthDays] at hd ⊢
  by_cases hm : m = 2
  · subst hm
    simp only [if_true, le_refl, sub_add_cancel] at hd ⊢
    split <;> simp_all <;> omega
  · rw [if_neg hm] at hd
    split <;> split at hd <;> split <;> omega

/-- The months but February have the days that are between them and the next. -/
theorem daysBefore_add {m : ℤ} (hm : 1 ≤ m ∧ m ≤ 12) (hne : m ≠ 2) (y : ℤ) :
    daysBefore (marchMonth m) + monthDays y m = daysBefore (marchMonth m + 1) := by
  obtain ⟨h1, h12⟩ := hm
  interval_cases m <;> first | exact absurd rfl hne | rfl

/-- In one year, the day of a later month comes later. -/
theorem Date.dayOfYear_lt_of_month {a b : Date} (h : marchMonth a.month < marchMonth b.month) :
    daysBefore (marchMonth a.month) + a.day < daysBefore (marchMonth b.month) + b.day := by
  have hma := a.month_mem
  have hmb := b.month_mem
  have hne : a.month ≠ 2 := by
    intro h2
    unfold marchMonth at h
    rw [h2, if_pos le_rfl] at h
    split at h <;> omega
  have hlen := daysBefore_add hma hne a.year
  have hmono : daysBefore (marchMonth a.month + 1) ≤ daysBefore (marchMonth b.month) := by
    unfold daysBefore
    omega
  have := a.day_mem
  have := b.day_mem
  omega

/-- A later date has a greater number. -/
theorem number_strictMono : StrictMono Date.number := by
  intro a b h
  have ha := a.dayOfYear_lt
  have hb := b.dayOfYear_lt
  have hma := a.month_mem
  have hmb := b.month_mem
  rw [Date.lt_iff] at h
  unfold Date.number dayNumber
  rcases lt_trichotomy (marchYear a.year a.month) (marchYear b.year b.month) with hy | hy | hy
  · have := marchDays_mono (show marchYear a.year a.month + 1 ≤ marchYear b.year b.month by omega)
    omega
  · rw [hy]
    by_cases hm : a.month = b.month
    · rw [hm]
      rw [marchYear, marchYear, hm] at hy
      split at hy <;> omega
    · have hlt : marchMonth a.month < marchMonth b.month := by
        unfold marchYear at hy
        unfold marchMonth
        split at hy <;> split at hy <;> simp_all <;> omega
      have := Date.dayOfYear_lt_of_month hlt
      omega
  · exfalso
    unfold marchYear at hy
    split at hy <;> split at hy <;> omega

/-! ## The day of four hundred years -/

/-- The year in four hundred that a day of them is in. -/
def yearOfEra (doe : ℤ) : ℤ := (doe - doe / 1460 + doe / 36524 - doe / 146096) / 365

/-- The days of four hundred years before one of them. -/
def daysBeforeYear (yoe : ℤ) : ℤ := 365 * yoe + yoe / 4 - yoe / 100

/-- A day is cut into centuries, then spans of four years, then years; the last of each may be longer
by a day. -/
theorem exists_cuts {doe : ℤ} (h : 0 ≤ doe ∧ doe < 146097) :
    ∃ c q j doy : ℤ, (0 ≤ c ∧ c ≤ 3) ∧ (0 ≤ q ∧ q ≤ 24) ∧ (0 ≤ j ∧ j ≤ 3) ∧ (0 ≤ doy ∧ doy ≤ 365) ∧
      (doy = 365 → j = 3 ∧ (q = 24 → c = 3)) ∧ doe = 36524 * c + 1461 * q + 365 * j + doy := by
  refine ⟨min 3 (doe / 36524), (doe - 36524 * min 3 (doe / 36524)) / 1461,
    min 3 ((doe - 36524 * min 3 (doe / 36524)) % 1461 / 365), _, ?_, ?_, ?_, ?_, ?_,
    (add_sub_cancel _ doe).symm⟩
  all_goals omega

/-- The centuries before a day, where the last day is of the fourth. -/
theorem centuries {c r : ℤ} (hc : 0 ≤ c ∧ c ≤ 3) (hr : 0 ≤ r ∧ r ≤ 36524)
    (hlast : r = 36524 → c = 3) :
    (36524 * c + r) / 36524 = c + (36524 * c + r) / 146096 := by
  by_cases h : r = 36524
  · obtain rfl := hlast h
    subst h
    rfl
  · omega

/-- The spans of four years before a day, where the last day of four is of the span after. -/
theorem fourths {c q s : ℤ} : (36524 * c + 1461 * q + s) / 1460 =
    25 * c + q + (24 * c + q + s) / 1460 := by
  rw [show 36524 * c + 1461 * q + s = 24 * c + q + s + 1460 * (25 * c + q) by ring,
    Int.add_mul_ediv_left _ _ (by decide), add_comm]

/-- The year of the cuts of a day. -/
theorem yearOfEra_cuts {c q j doy : ℤ} (hc : 0 ≤ c ∧ c ≤ 3) (hq : 0 ≤ q ∧ q ≤ 24)
    (hj : 0 ≤ j ∧ j ≤ 3) (hdoy : 0 ≤ doy ∧ doy ≤ 365)
    (hlast : doy = 365 → j = 3 ∧ (q = 24 → c = 3)) :
    yearOfEra (36524 * c + 1461 * q + 365 * j + doy) = 100 * c + 4 * q + j := by
  have hcentury : (36524 * c + 1461 * q + 365 * j + doy) / 36524 =
      c + (36524 * c + 1461 * q + 365 * j + doy) / 146096 := by
    rw [show 36524 * c + 1461 * q + 365 * j + doy = 36524 * c + (1461 * q + 365 * j + doy) by ring]
    exact centuries hc (by omega) (by omega)
  have hfourth : (36524 * c + 1461 * q + 365 * j + doy) / 1460 =
      25 * c + q + (24 * c + q + (365 * j + doy)) / 1460 := by
    rw [add_assoc, fourths]
  have hleap : 0 ≤ doy - (24 * c + q + (365 * j + doy)) / 1460 ∧
      doy - (24 * c + q + (365 * j + doy)) / 1460 < 365 := by
    clear hcentury hfourth
    omega
  unfold yearOfEra
  rw [hfourth, hcentury]
  clear hfourth hcentury
  omega

/-- The year of a day is the one the day is in. -/
theorem yearOfEra_spec {doe : ℤ} (h : 0 ≤ doe ∧ doe < 146097) :
    (0 ≤ yearOfEra doe ∧ yearOfEra doe < 400) ∧ daysBeforeYear (yearOfEra doe) ≤ doe ∧
      (doe - daysBeforeYear (yearOfEra doe) < 365 ∨
        doe - daysBeforeYear (yearOfEra doe) = 365 ∧ Leap (yearOfEra doe + 1)) := by
  obtain ⟨c, q, j, doy, hc, hq, hj, hdoy, hlast, rfl⟩ := exists_cuts h
  have hdays : daysBeforeYear (100 * c + 4 * q + j) = 36524 * c + 1461 * q + 365 * j := by
    have h4 : (100 * c + 4 * q + j) / 4 = 25 * c + q := by omega
    have h100 : (100 * c + 4 * q + j) / 100 = c := by omega
    unfold daysBeforeYear
    omega
  rw [yearOfEra_cuts hc hq hj hdoy hlast, hdays]
  unfold Leap
  omega

/-! ## The date of a number -/

/-- The four hundred years a day is in. -/
def era (z : ℤ) : ℤ := (z + 719468) / 146097

/-- The day of its four hundred years. -/
def dayOfEra (z : ℤ) : ℤ := (z + 719468) % 146097

/-- The year from March that a day is in. -/
def yearOf (z : ℤ) : ℤ := yearOfEra (dayOfEra z) + era z * 400

/-- The day of that year. -/
def dayOfYear (z : ℤ) : ℤ := dayOfEra z - daysBeforeYear (yearOfEra (dayOfEra z))

/-- The month, from March, of a day of a year. -/
def monthOf (doy : ℤ) : ℤ := (5 * doy + 2) / 153

/-- The month as it is counted in a date. -/
def calendarMonth (mp : ℤ) : ℤ := if mp < 10 then mp + 3 else mp - 9

theorem dayOfEra_mem (z : ℤ) : 0 ≤ dayOfEra z ∧ dayOfEra z < 146097 := by
  unfold dayOfEra
  omega

theorem leap_add_era (y k : ℤ) : Leap (y + k * 400) ↔ Leap y := by
  unfold Leap
  omega

theorem dayOfYear_mem (z : ℤ) :
    0 ≤ dayOfYear z ∧ (dayOfYear z < 365 ∨ dayOfYear z = 365 ∧ Leap (yearOf z + 1)) := by
  obtain ⟨_, hle, hlt⟩ := yearOfEra_spec (dayOfEra_mem z)
  refine ⟨sub_nonneg.2 hle, ?_⟩
  rwa [yearOf, add_right_comm, leap_add_era]

/-- The days before the year of a day, and the days of that year before it, are all before it. -/
theorem marchDays_yearOf (z : ℤ) : marchDays (yearOf z) + dayOfYear z = z + 719468 := by
  obtain ⟨hyear, -⟩ := yearOfEra_spec (dayOfEra_mem z)
  unfold yearOf dayOfYear marchDays daysBeforeYear
  have hdays : z + 719468 = era z * 146097 + dayOfEra z := by
    unfold era dayOfEra
    omega
  omega

/-- A day of a year is a day of its month. -/
theorem monthOf_mem {y doy : ℤ} (h : 0 ≤ doy ∧ (doy < 365 ∨ doy = 365 ∧ Leap (y + 1))) :
    (0 ≤ monthOf doy ∧ monthOf doy < 12) ∧ 1 ≤ doy - daysBefore (monthOf doy) + 1 ∧
      doy - daysBefore (monthOf doy) + 1 ≤
        monthDays (if calendarMonth (monthOf doy) ≤ 2 then y + 1 else y)
          (calendarMonth (monthOf doy)) := by
  obtain ⟨h0, h365⟩ := h
  have hmonth : 0 ≤ monthOf doy ∧ monthOf doy < 12 := by
    unfold monthOf
    omega
  have hlow : 153 * monthOf doy ≤ 5 * doy + 2 ∧ 5 * doy + 2 < 153 * monthOf doy + 153 := by
    unfold monthOf
    omega
  refine ⟨hmonth, by unfold daysBefore; omega, ?_⟩
  obtain ⟨hm0, hm12⟩ := hmonth
  generalize monthOf doy = mp at *
  unfold daysBefore
  interval_cases mp
  case «11» =>
    simp only [calendarMonth, monthDays]
    norm_num
    rcases h365 with h365 | ⟨h365, hleap⟩
    · split <;> omega
    · rw [if_pos hleap]
      omega
  all_goals
    simp only [calendarMonth, monthDays]
    norm_num
    omega

theorem calendarMonth_mem {mp : ℤ} (h : 0 ≤ mp ∧ mp < 12) :
    1 ≤ calendarMonth mp ∧ calendarMonth mp ≤ 12 := by
  unfold calendarMonth
  split <;> omega

/-- The date of a number. -/
def Date.ofNumber (z : ℤ) : Date where
  year := if calendarMonth (monthOf (dayOfYear z)) ≤ 2 then yearOf z + 1 else yearOf z
  month := calendarMonth (monthOf (dayOfYear z))
  day := dayOfYear z - daysBefore (monthOf (dayOfYear z)) + 1
  month_mem := calendarMonth_mem (monthOf_mem (dayOfYear_mem z)).1
  day_mem := (monthOf_mem (dayOfYear_mem z)).2

theorem number_ofNumber (z : ℤ) : (Date.ofNumber z).number = z := by
  have hmonth := (monthOf_mem (dayOfYear_mem z)).1
  have hdays := marchDays_yearOf z
  have hyear : marchYear (Date.ofNumber z).year (Date.ofNumber z).month = yearOf z := by
    by_cases h : calendarMonth (monthOf (dayOfYear z)) ≤ 2 <;> simp [marchYear, Date.ofNumber, h]
  have hmarch : marchMonth (Date.ofNumber z).month = monthOf (dayOfYear z) := by
    have hmonths : marchMonth (calendarMonth (monthOf (dayOfYear z))) = monthOf (dayOfYear z) := by
      obtain ⟨h0, h12⟩ := hmonth
      generalize monthOf (dayOfYear z) = mp at *
      interval_cases mp <;> rfl
    exact hmonths
  rw [Date.number, dayNumber, hyear, hmarch]
  simp only [Date.ofNumber]
  omega

/-- A later day has a later date. -/
theorem ofNumber_strictMono : StrictMono Date.ofNumber := by
  intro a b h
  rw [← number_strictMono.lt_iff_lt, number_ofNumber, number_ofNumber]
  exact h

/-- A date is the date of its number. -/
theorem ofNumber_number (d : Date) : Date.ofNumber d.number = d :=
  number_strictMono.injective (number_ofNumber _)

end Aurade.Calendar
