import Mathlib
import Aurade.Greeter.Alerts

/-!
# What a forecast says in words

`rain`, `front` and `spell` pick, from the hours ahead, the ones a sentence names. A sentence is given
here by what stands in it.

A front is at the coldest hour, and `front` looks its place up among the temperatures and takes the
hour at that place of all hours (`front_iff`). The rain is the run of wet hours from the first
(`rain_run`), and what is said of its end is an hour after its last, whether the forecast goes on or
not (`rain_ends`). `outlook_iff` is when both sentences are about the hours they name.
-/

namespace Aurade.Forecast.Outlook

open Greeter (Moment)

/-- `Hour`. -/
structure Hour where
  at_ : Option Moment
  temperature : Option ℚ
  condition : Str
  precipitation : Option ℤ
  daylight : Bool
  amount : Option ℚ
  rain : Option ℚ
  snow : Option ℚ
  pressure : Option ℚ
  wind : Option ℚ
  bearing : Option ℚ
  cape : Option ℚ
  deriving DecidableEq

/-- The chance of rain that is likely. -/
def likely : ℤ := 30

/-- The amount that is rain, in millimetres. -/
def trace : ℚ := 1 / 5

/-- The fall of the pressure that is a front. -/
def falling : ℚ := 2

/-- The turn of the wind that is a front. -/
def veer : ℚ := 60

/-- The drop of the temperature that is a front. -/
def colder : ℚ := 5

/-- So many seconds later. -/
def later (t : Moment) (seconds : ℤ) : Moment :=
  { t with instant := t.instant + seconds * 1000000 }

/-- Whether a moment is between two, where they can be compared. -/
def between (here at_ edge : Moment) : Bool :=
  match here.le at_ with
  | .ok true =>
    match at_.le edge with
    | .ok b => b
    | .error _ => false
  | _ => false

/-- `_ahead`. -/
def ahead (report : List Hour) (here : Moment) (hours : ℤ) : List Hour :=
  report.filter fun hour =>
    match hour.at_ with
    | some at_ => between here at_ (later here (hours * 3600))
    | none => false

/-! ## Rain -/

/-- Whether it rains in an hour. -/
def wet (hour : Hour) : Bool :=
  likely ≤ hour.precipitation.getD 0 || (hour.amount.map fun a => decide (trace ≤ a)).getD false

/-- The loop of `rain`, with the run so far. -/
def runFrom (wets : List Hour) : List Hour → List Hour → List Hour
  | run, [] => run
  | run, hour :: rest =>
    if hour ∉ wets ∧ run ≠ [] then run
    else if hour ∈ wets then runFrom wets (run ++ [hour]) rest
    else runFrom wets run rest

/-- What the sentence about rain says. -/
structure Rain where
  /-- The hour it starts. -/
  start : Hour
  /-- The hours that are added up. -/
  run : List Hour
  total : ℚ
  frozen : ℚ
  soon : Bool
  ends : Option Moment

/-- Whether it is called snow. -/
def Rain.snow (s : Rain) : Bool := 0 < s.frozen && s.total * (1 / 2) ≤ s.frozen

/-- Whether the amount is given. -/
def Rain.measured (s : Rain) : Bool := trace ≤ s.total

/-- `rain`. The hours ahead have a time. -/
def rain (report : List Hour) (here : Moment) : Option Rain :=
  let hours := ahead report here 24
  let wets := hours.filter wet
  wets.head?.map fun start =>
    let run := runFrom wets [] (hours.drop (hours.idxOf start))
    let ends := run.getLast?.bind fun hour => hour.at_.map fun at_ => later at_ 3600
    { start := start, run := run,
      total := (run.filterMap Hour.amount).sum, frozen := (run.filterMap Hour.snow).sum,
      soon := (start.at_.map fun at_ =>
        decide (at_.instant ≤ (later here (45 * 60)).instant)).getD false,
      ends := if 1 < run.length then ends else none }

/-! ## A front -/

/-- Some measurements of hours, of those that have one. -/
def series (measure : Hour → Option ℚ) (hours : List Hour) : List ℚ := hours.filterMap measure

/-- How far a bearing is from another. -/
def turn (from_ b : ℚ) : ℚ :=
  let x := b - from_ + 180
  |x - 360 * ⌊x / 360⌋ - 180|

/-- The first of a series less the least. -/
def fall (xs : List ℚ) : ℚ := xs.headD 0 - xs.min?.getD 0

/-- The farthest turn of a series from its first. -/
def swing (bearings : List ℚ) : ℚ := ((bearings.map (turn (bearings.headD 0))).max?).getD 0

/-- The three signs of a front. -/
def signs (hours : List Hour) : Bool :=
  let pressures := series Hour.pressure hours
  let bearings := series Hour.bearing hours
  let temperatures := series Hour.temperature hours
  6 ≤ pressures.length && 6 ≤ bearings.length && 6 ≤ temperatures.length &&
    falling ≤ fall pressures && veer ≤ swing bearings && colder ≤ fall temperatures

/-- What the sentence about a front says. -/
structure Front where
  drop : ℚ
  hour : Hour
  turned : ℚ
  deriving DecidableEq

/-- `front`. -/
def front (report : List Hour) (here : Moment) : Option Front :=
  let hours := ahead report here 18
  if signs hours then
    let temperatures := series Hour.temperature hours
    let coldest := temperatures.min?.getD 0
    hours[temperatures.idxOf coldest]?.map fun hour =>
      { drop := fall temperatures, hour := hour,
        turned := (series Hour.bearing hours).getLast?.getD 0 }
  else none

/-! ## The spell -/

/-- The conditions that are weather. -/
def spells : List Str :=
  ["fog".toList, "drizzle".toList, "rain".toList, "heavy-rain".toList, "freezing-rain".toList,
    "sleet".toList, "snow".toList, "heavy-snow".toList, "thunder".toList, "hail".toList]

/-- `spell`: the condition, and when it ends. -/
def spell (report : List Hour) (here : Moment) : Option (Str × Option Moment) :=
  match ahead report here 24 with
  | [] => none
  | first :: rest =>
    if first.condition ∈ spells then
      some (first.condition, (rest.find? (·.condition ∉ spells)).bind Hour.at_)
    else none

/-- A spell ends at an hour of the forecast that is no weather, after hours that are. -/
theorem spell_ends {report : List Hour} {here : Moment} {kind : Str} {t : Moment}
    (h : spell report here = some (kind, some t)) : ∃ before hour after,
      ahead report here 24 = before ++ hour :: after ∧ hour.at_ = some t ∧ before ≠ [] ∧
      hour.condition ∉ spells ∧ ∀ x ∈ before, x.condition ∈ spells := by
  unfold spell at h
  split at h
  · cases h
  · next first rest hahead =>
    split at h
    · next hfirst =>
      obtain ⟨-, hend⟩ := Prod.ext_iff.1 (Option.some.inj h)
      obtain ⟨hour, hfind, hat⟩ := Option.bind_eq_some_iff.1 hend
      obtain ⟨hdry, before, after, rfl, hbefore⟩ := List.find?_eq_some_iff_append.1 hfind
      refine ⟨first :: before, hour, after, hahead, hat, List.cons_ne_nil _ _,
        of_decide_eq_true hdry, List.forall_mem_cons.2 ⟨hfirst, fun x hx => ?_⟩⟩
      simpa using hbefore x hx
    · cases h

/-! ## The run -/

/-- The wet hours from the first. -/
def firstRun (hours : List Hour) : List Hour := (hours.dropWhile fun h => !wet h).takeWhile wet

/-- The hours after them. -/
def afterRun (hours : List Hour) : List Hour := (hours.dropWhile fun h => !wet h).dropWhile wet

theorem runFrom_eq {wets rest : List Hour} (h : ∀ hour ∈ rest, hour ∈ wets ↔ wet hour = true)
    {run : List Hour} (hrun : run ≠ []) : runFrom wets run rest = run ++ rest.takeWhile wet := by
  induction rest generalizing run with
  | nil => rw [runFrom, List.takeWhile_nil, List.append_nil]
  | cons hour rest ih =>
    have hmem := h hour List.mem_cons_self
    rw [runFrom]
    by_cases hw : wet hour = true
    · rw [if_neg (fun hn => hn.1 (hmem.2 hw)), if_pos (hmem.2 hw), List.takeWhile_cons_of_pos hw,
        ih (fun x hx => h x (List.mem_cons_of_mem _ hx)) (by simp), List.append_assoc,
        List.singleton_append]
    · rw [if_pos ⟨fun hn => hw (hmem.1 hn), hrun⟩, List.takeWhile_cons_of_neg hw, List.append_nil]

/-- The hours from the first wet one on. -/
theorem drop_start {hours : List Hour} {start : Hour} (h : (hours.filter wet).head? = some start) :
    hours.drop (hours.idxOf start) = hours.dropWhile (fun h => !wet h) ∧
      (hours.dropWhile fun h => !wet h).head? = some start := by
  induction hours with
  | nil => cases h
  | cons hour hours ih =>
    by_cases hw : wet hour = true
    · rw [List.filter_cons_of_pos hw] at h
      obtain rfl := Option.some.inj h
      rw [List.idxOf_cons_self, List.drop_zero, List.dropWhile_cons_of_neg (by simpa using hw)]
      exact ⟨rfl, rfl⟩
    · rw [List.filter_cons_of_neg hw] at h
      have hne : hour ≠ start := by
        rintro rfl
        exact hw (List.mem_filter.1 (List.mem_of_mem_head? h)).2
      rw [List.idxOf_cons_ne _ hne, List.drop_succ_cons,
        List.dropWhile_cons_of_pos (by simpa using hw)]
      exact ih h

/-- **The amount is of the run of wet hours from the first.** -/
theorem rain_run {report : List Hour} {here : Moment} {s : Rain} (h : rain report here = some s) :
    s.run = firstRun (ahead report here 24) ∧ s.run.head? = some s.start ∧
      s.total = (s.run.filterMap Hour.amount).sum := by
  obtain ⟨start, hstart, rfl⟩ := Option.map_eq_some_iff.1 h
  obtain ⟨hdrop, hhead⟩ := drop_start hstart
  obtain ⟨rest, hrest⟩ : ∃ rest, (ahead report here 24).dropWhile (fun h => !wet h) =
      start :: rest := List.head?_eq_some_iff.1 hhead
  have hwet : wet start = true := (List.mem_filter.1 (List.mem_of_mem_head? hstart)).2
  have hmem : ∀ hour ∈ start :: rest,
      hour ∈ (ahead report here 24).filter wet ↔ wet hour = true := by
    intro hour hhour
    rw [List.mem_filter, and_iff_right_iff_imp]
    exact fun _ => (List.dropWhile_sublist _).mem (hrest ▸ hhour)
  have hrun : runFrom ((ahead report here 24).filter wet) []
      ((ahead report here 24).drop ((ahead report here 24).idxOf start)) =
        firstRun (ahead report here 24) := by
    rw [hdrop, firstRun, hrest, runFrom, if_neg (fun hn => hn.2 rfl),
      if_pos ((hmem start List.mem_cons_self).2 hwet), List.nil_append,
      runFrom_eq (fun x hx => hmem x (List.mem_cons_of_mem _ hx)) (by simp),
      List.takeWhile_cons_of_pos hwet, List.singleton_append]
  refine ⟨hrun, ?_, rfl⟩
  change (runFrom _ [] _).head? = some start
  rw [hrun, firstRun, hrest, List.takeWhile_cons_of_pos hwet, List.head?_cons]

/-- The hours of a run have a time. -/
theorem at_isSome_of_mem_ahead {report : List Hour} {here : Moment} {n : ℤ} {hour : Hour}
    (h : hour ∈ ahead report here n) : hour.at_.isSome = true := by
  have hpos := (List.mem_filter.1 h).2
  cases hat : hour.at_ with
  | none =>
    rw [hat] at hpos
    cases hpos
  | some t => rfl

/-- An end is stated of every run of more than one hour. -/
theorem rain_ends {report : List Hour} {here : Moment} {s : Rain} (h : rain report here = some s) :
    s.ends.isSome = true ↔ 1 < s.run.length := by
  have hrun := (rain_run h).1
  obtain ⟨start, hstart, rfl⟩ := Option.map_eq_some_iff.1 h
  simp only at hrun ⊢
  rw [hrun]
  split
  · next hlen =>
    refine ⟨fun _ => hlen, fun _ => ?_⟩
    have hne : firstRun (ahead report here 24) ≠ [] := by
      intro hnil
      rw [hnil] at hlen
      cases hlen
    have hmem : (firstRun (ahead report here 24)).getLast hne ∈ ahead report here 24 :=
      (List.dropWhile_sublist _).mem ((List.takeWhile_sublist _).mem (List.getLast_mem hne))
    rw [List.getLast?_eq_some_getLast hne, Option.bind_some, Option.isSome_map]
    exact at_isSome_of_mem_ahead hmem
  · next hlen => exact ⟨fun h => (Bool.false_ne_true h).elim, fun h => absurd h hlen⟩

/-! ## The coldest hour -/

/-- The hours before the first at which a measurement is least. -/
def beforeLeast (measure : Hour → Option ℚ) (hours : List Hour) : List Hour :=
  hours.takeWhile fun h => measure h ≠ (series measure hours).min?

/-- The place of a value among those that are measured: the measurements before the hour that has it. -/
theorem idxOf_series {measure : Hour → Option ℚ} {hours : List Hour} {t : ℚ}
    (h : t ∈ series measure hours) : (series measure hours).idxOf t =
      (series measure (hours.takeWhile fun h => measure h ≠ some t)).length := by
  induction hours with
  | nil => cases h
  | cons hour hours ih =>
    cases hm : measure hour with
    | none =>
      have hseries : series measure (hour :: hours) = series measure hours :=
        List.filterMap_cons_none hm
      rw [hseries] at h ⊢
      rw [List.takeWhile_cons_of_pos (by simp [hm]), ih h, series, series,
        List.filterMap_cons_none hm]
    | some u =>
      have hseries : series measure (hour :: hours) = u :: series measure hours :=
        List.filterMap_cons_some hm
      rw [hseries] at h ⊢
      by_cases hu : u = t
      · subst hu
        rw [List.idxOf_cons_self, List.takeWhile_cons_of_neg (by simp [hm])]
        rfl
      · have hcons : series measure (hour :: hours.takeWhile fun h => measure h ≠ some t) =
            u :: series measure (hours.takeWhile fun h => measure h ≠ some t) :=
          List.filterMap_cons_some hm
        rw [List.idxOf_cons_ne _ hu, List.takeWhile_cons_of_pos (by simp [hm, hu]), hcons,
          List.length_cons, ih (List.mem_of_ne_of_mem (Ne.symm hu) h)]

/-- The measurements of some hours are as many as the hours where none is missing. -/
theorem length_series_iff {measure : Hour → Option ℚ} {hours : List Hour} :
    (series measure hours).length = hours.length ↔ ∀ h ∈ hours, measure h ≠ none := by
  induction hours with
  | nil => exact ⟨fun _ h hh => absurd hh List.not_mem_nil, fun _ => rfl⟩
  | cons hour hours ih =>
    have hle : (series measure hours).length ≤ hours.length := List.length_filterMap_le _ _
    rw [List.forall_mem_cons, ← ih, series]
    cases hm : measure hour with
    | none =>
      rw [List.filterMap_cons_none hm, List.length_cons, ← series]
      exact ⟨fun h => absurd h (by omega), fun h => absurd rfl h.1⟩
    | some u =>
      rw [List.filterMap_cons_some hm, List.length_cons, List.length_cons, ← series,
        Nat.add_right_cancel_iff]
      exact ⟨fun h => ⟨by simp, h⟩, And.right⟩

/-- The hour at the place of the least measurement has it where no hour before is without one. -/
theorem least_iff {measure : Hour → Option ℚ} {hours : List Hour} {t : ℚ}
    (ht : (series measure hours).min? = some t) :
    (∃ hour, hours[(series measure hours).idxOf t]? = some hour ∧ measure hour = some t) ↔
      ∀ h ∈ beforeLeast measure hours, measure h ≠ none := by
  have hmem : t ∈ series measure hours := List.min?_mem ht
  have hbefore : beforeLeast measure hours = hours.takeWhile fun h => measure h ≠ some t := by
    rw [beforeLeast, ht]
  have hle : (series measure (beforeLeast measure hours)).length ≤
      (beforeLeast measure hours).length := List.length_filterMap_le _ _
  rw [← length_series_iff, idxOf_series hmem, ← hbefore]
  constructor
  · rintro ⟨hour, hhour, hval⟩
    by_contra hne
    have hlt := lt_of_le_of_ne hle hne
    have hin : hour ∈ beforeLeast measure hours := by
      have hpre : beforeLeast measure hours <+: hours := hbefore ▸ List.takeWhile_prefix _
      obtain ⟨rest, hrest⟩ := hpre
      have hget : ∀ n : ℕ, hours[n]? = (beforeLeast measure hours ++ rest)[n]? :=
        fun n => by rw [hrest]
      rw [hget, List.getElem?_append_left hlt] at hhour
      exact List.mem_of_getElem? hhour
    rw [hbefore] at hin
    exact absurd hval (by simpa using List.mem_takeWhile_imp hin)
  · intro hlen
    obtain ⟨hour, hhour, hval⟩ := List.mem_filterMap.1 hmem
    have hne : (hours.dropWhile fun h => measure h ≠ some t) ≠ [] := by
      intro hnil
      have := List.dropWhile_eq_nil_iff.1 hnil hour hhour
      simp [hval] at this
    refine ⟨(hours.dropWhile fun h => measure h ≠ some t).head hne, ?_, ?_⟩
    · have hget : ∀ n : ℕ, hours[n]? = ((hours.takeWhile fun h => measure h ≠ some t) ++
          hours.dropWhile fun h => measure h ≠ some t)[n]? :=
        fun n => by rw [List.takeWhile_append_dropWhile]
      rw [hlen, hbefore, hget, List.getElem?_append_right le_rfl, Nat.sub_self, ← List.head?_eq_getElem?,
        List.head?_eq_some_head hne]
    · simpa using List.head_dropWhile_not (fun h => decide (measure h ≠ some t)) hne

/-! ## What the sentences are about -/

/-- The sentences are about the hours they name. -/
structure Faithful (report : List Hour) (here : Moment) : Prop where
  /-- The hour of a front has the least temperature of the hours considered. -/
  coldest : ∀ f, front report here = some f → f.hour ∈ ahead report here 18 ∧
    ∃ t, f.hour.temperature = some t ∧
      ∀ h ∈ ahead report here 18, ∀ u, h.temperature = some u → t ≤ u
  /-- The amount is of the wet hours that follow one another from the first, and all of them. -/
  amount : ∀ s, rain report here = some s → ∃ before after,
    ahead report here 24 = before ++ s.run ++ after ∧ (∀ h ∈ before, wet h = false) ∧
    (∀ h ∈ s.run, wet h = true) ∧ s.run.head? = some s.start ∧
    (∀ h ∈ after.head?, wet h = false) ∧ s.total = (s.run.filterMap Hour.amount).sum
  /-- An end is stated where the hour after these is in the forecast, and dry. -/
  ends : ∀ s, rain report here = some s → s.ends.isSome = true → ∃ before h after,
    ahead report here 24 = before ++ s.run ++ h :: after ∧ (∀ x ∈ before, wet x = false) ∧
    wet h = false

/-- Where a front comes, no hour before the coldest is without a temperature, and a run of more than
one wet hour has an hour after it. -/
structure Complete (report : List Hour) (here : Moment) : Prop where
  temperatures : signs (ahead report here 18) = true →
    ∀ h ∈ beforeLeast Hour.temperature (ahead report here 18), h.temperature ≠ none
  followed : 1 < (firstRun (ahead report here 24)).length → afterRun (ahead report here 24) ≠ []

/-- With its signs a front is said, at the place of the least temperature. -/
theorem front_of_signs {report : List Hour} {here : Moment}
    (h : signs (ahead report here 18) = true) : ∃ t f,
      (series Hour.temperature (ahead report here 18)).min? = some t ∧
      front report here = some f ∧ (ahead report here 18)[(series Hour.temperature
        (ahead report here 18)).idxOf t]? = some f.hour := by
  have hlen : 6 ≤ (series Hour.temperature (ahead report here 18)).length := by
    simp only [signs, Bool.and_eq_true, decide_eq_true_eq] at h
    exact h.1.1.1.2
  have hne : series Hour.temperature (ahead report here 18) ≠ [] := by
    intro hnil
    rw [hnil] at hlen
    cases hlen
  obtain ⟨t, ht⟩ : ∃ t, (series Hour.temperature (ahead report here 18)).min? = some t :=
    Option.ne_none_iff_exists'.1 (mt List.min?_eq_none_iff.1 hne)
  have hlt : (series Hour.temperature (ahead report here 18)).idxOf t <
      (ahead report here 18).length :=
    Nat.lt_of_lt_of_le (List.idxOf_lt_length_of_mem (List.min?_mem ht))
      (List.length_filterMap_le _ _)
  have hfront : front report here = ((ahead report here 18)[(series Hour.temperature
      (ahead report here 18)).idxOf t]?).map fun hour =>
        { drop := fall (series Hour.temperature (ahead report here 18)), hour := hour,
          turned := (series Hour.bearing (ahead report here 18)).getLast?.getD 0 } := by
    have hcoldest : (series Hour.temperature (ahead report here 18)).min?.getD 0 = t := by
      rw [ht, Option.getD_some]
    simp only [front, if_pos h, hcoldest]
  rw [List.getElem?_eq_getElem hlt, Option.map_some] at hfront
  exact ⟨t, _, ht, hfront, List.getElem?_eq_getElem hlt⟩

theorem signs_of_front {report : List Hour} {here : Moment} {f : Front}
    (h : front report here = some f) : signs (ahead report here 18) = true := by
  by_contra hs
  rw [front, if_neg hs] at h
  cases h

/-- **The hour of a front is the coldest where no hour before the coldest is without a temperature.** -/
theorem front_iff {report : List Hour} {here : Moment} (h : signs (ahead report here 18) = true) :
    (∀ f, front report here = some f → f.hour ∈ ahead report here 18 ∧
      ∃ t, f.hour.temperature = some t ∧
        ∀ h ∈ ahead report here 18, ∀ u, h.temperature = some u → t ≤ u) ↔
    ∀ h ∈ beforeLeast Hour.temperature (ahead report here 18), h.temperature ≠ none := by
  obtain ⟨t, f, ht, hf, hhour⟩ := front_of_signs h
  have hleast : ∀ h ∈ ahead report here 18, ∀ u, h.temperature = some u → t ≤ u :=
    fun h hh u hu => (List.min?_eq_some_iff.1 ht).2 u (List.mem_filterMap.2 ⟨h, hh, hu⟩)
  rw [← least_iff ht]
  constructor
  · intro hall
    obtain ⟨-, u, hu, hmin⟩ := hall f hf
    refine ⟨f.hour, hhour, hu.trans (congrArg some ?_)⟩
    obtain ⟨c, hc, hct⟩ := List.mem_filterMap.1 (List.min?_mem ht)
    exact le_antisymm (hmin c hc t hct) (hleast _ (List.mem_of_getElem? hhour) u hu)
  · rintro ⟨hour, hhour', hval⟩ f' hf'
    rw [hf] at hf'
    obtain rfl := Option.some.inj hf'
    obtain rfl := Option.some.inj (hhour.symm.trans hhour')
    exact ⟨List.mem_of_getElem? hhour, t, hval, hleast⟩

theorem dropWhile_dry {before run after : List Hour} {start : Hour}
    (hbefore : ∀ h ∈ before, wet h = false) (hrun : ∀ h ∈ run, wet h = true)
    (hstart : run.head? = some start) (hafter : ∀ h ∈ after.head?, wet h = false) :
    firstRun (before ++ run ++ after) = run ∧ afterRun (before ++ run ++ after) = after := by
  obtain ⟨rest, rfl⟩ := List.head?_eq_some_iff.1 hstart
  have hdrop : (before ++ start :: rest ++ after).dropWhile (fun h => !wet h) =
      start :: rest ++ after := by
    rw [List.append_assoc, List.dropWhile_append_of_pos (fun h hh => by simp [hbefore h hh]),
      List.cons_append, List.dropWhile_cons_of_neg (by simp [hrun start List.mem_cons_self])]
  have hdry : after.takeWhile wet = [] ∧ after.dropWhile wet = after := by
    cases after with
    | nil => exact ⟨rfl, rfl⟩
    | cons h after =>
      have hw : ¬wet h = true := by simp [hafter h rfl]
      exact ⟨List.takeWhile_cons_of_neg hw, List.dropWhile_cons_of_neg hw⟩
  rw [firstRun, afterRun, hdrop, List.takeWhile_append_of_pos hrun, List.dropWhile_append_of_pos hrun,
    hdry.1, hdry.2, List.append_nil]
  exact ⟨rfl, rfl⟩

theorem splitRun (hours : List Hour) :
    hours = (hours.takeWhile fun h => !wet h) ++ firstRun hours ++ afterRun hours := by
  rw [firstRun, afterRun, List.append_assoc, List.takeWhile_append_dropWhile,
    List.takeWhile_append_dropWhile]

theorem wet_head_afterRun {hours : List Hour} {h : Hour} (hh : (afterRun hours).head? = some h) :
    wet h = false := by
  have hdry := List.head?_dropWhile_not wet (hours.dropWhile fun h => !wet h)
  rw [← afterRun, hh] at hdry
  exact hdry

/-- Rain is said of where an hour is wet. -/
theorem exists_rain {report : List Hour} {here : Moment}
    (h : firstRun (ahead report here 24) ≠ []) : ∃ s, rain report here = some s := by
  obtain ⟨hour, hhour⟩ := List.exists_mem_of_ne_nil _ h
  have hmem : hour ∈ (ahead report here 24).filter wet :=
    List.mem_filter.2 ⟨(List.dropWhile_sublist _).mem ((List.takeWhile_sublist _).mem hhour),
      List.mem_takeWhile_imp hhour⟩
  obtain ⟨start, rest, hstart⟩ := List.exists_cons_of_ne_nil (List.ne_nil_of_mem hmem)
  exact ⟨_, by rw [rain, hstart, List.head?_cons, Option.map_some]⟩

/-- **The sentences are about the hours they name exactly where none of these is missing.** -/
theorem outlook_iff (report : List Hour) (here : Moment) :
    Faithful report here ↔ Complete report here := by
  constructor
  · intro hf
    refine ⟨fun hs => (front_iff hs).1 hf.coldest, fun hlen hnil => ?_⟩
    -- the run of more than one hour is said, with its end
    have hne : firstRun (ahead report here 24) ≠ [] := by
      intro h
      rw [h] at hlen
      cases hlen
    obtain ⟨s, hs⟩ := exists_rain hne
    obtain ⟨hrun, hstart, -⟩ := rain_run hs
    obtain ⟨before, h, after, hsplit, hbefore, hdry⟩ :=
      hf.ends s hs ((rain_ends hs).2 (by rw [hrun]; exact hlen))
    have hwet : ∀ h ∈ s.run, wet h = true := by
      rw [hrun]
      exact fun h hh => List.mem_takeWhile_imp hh
    have hafter : ∀ x ∈ (h :: after).head?, wet x = false := fun x hx => by
      obtain rfl := Option.some.inj hx
      exact hdry
    have := (dropWhile_dry hbefore hwet hstart hafter).2
    rw [← hsplit, hnil] at this
    cases this
  · intro hc
    have hwet : ∀ h ∈ firstRun (ahead report here 24), wet h = true :=
      fun h hh => List.mem_takeWhile_imp hh
    have hbefore : ∀ h ∈ (ahead report here 24).takeWhile (fun h => !wet h), wet h = false :=
      fun h hh => by simpa using List.mem_takeWhile_imp hh
    refine ⟨fun f hf => (front_iff (signs_of_front hf)).2 (hc.temperatures (signs_of_front hf)) f hf,
      fun s hs => ?_, fun s hs hends => ?_⟩
    · obtain ⟨hrun, hstart, htotal⟩ := rain_run hs
      refine ⟨_, afterRun (ahead report here 24), hrun ▸ splitRun _, hbefore, hrun ▸ hwet, hstart,
        fun h hh => wet_head_afterRun hh, htotal⟩
    · obtain ⟨hrun, -, -⟩ := rain_run hs
      have hne := hc.followed (by rw [← hrun]; exact (rain_ends hs).1 hends)
      obtain ⟨h, after, hafter⟩ := List.exists_cons_of_ne_nil hne
      refine ⟨_, h, after, ?_, hbefore, wet_head_afterRun (by rw [hafter]; rfl)⟩
      rw [hrun, ← hafter]
      exact splitRun _

/-- An hour of the sample forecasts. -/
def sampleHour (n : ℕ) (chance : ℤ) (temperature : Option ℚ) (pressure bearing : ℚ) : Hour where
  at_ := some ⟨n * 3600000000, true⟩
  temperature := temperature
  condition := "cloudy".toList
  precipitation := some chance
  daylight := true
  amount := none
  rain := none
  snow := none
  pressure := some pressure
  wind := none
  bearing := some bearing
  cape := none

/-- Rain to the end of what is forecast. -/
def sampleRain : List Hour := [sampleHour 1 80 none 1010 0, sampleHour 2 80 none 1010 0]

/-- A front, with an hour before it that has no temperature. -/
def sampleFront : List Hour :=
  [sampleHour 1 0 none 1016 180, sampleHour 2 0 (some 20) 1015 180,
    sampleHour 3 0 (some 20) 1014 180, sampleHour 4 0 (some 20) 1013 250,
    sampleHour 5 0 (some 20) 1012 270, sampleHour 6 0 (some 12) 1011 300,
    sampleHour 7 0 (some 13) 1011 300]

/-- The end of rain that goes on is stated, and the front is put an hour before the coldest. -/
theorem outlook_misnames : ¬Faithful sampleRain ⟨0, true⟩ ∧ ¬Faithful sampleFront ⟨0, true⟩ := by
  constructor
  · intro hf
    obtain ⟨before, h, after, hsplit, -⟩ := hf.ends
      { start := sampleHour 1 80 none 1010 0, run := sampleRain, total := 0, frozen := 0,
        soon := false, ends := some ⟨3 * 3600000000, true⟩ } rfl rfl
    have hlen := congrArg List.length hsplit
    rw [show (ahead sampleRain ⟨0, true⟩ 24).length = 2 from rfl, List.length_append,
      List.length_append, List.length_cons, show sampleRain.length = 2 from rfl] at hlen
    omega
  · intro hf
    obtain ⟨-, t, ht, hmin⟩ := hf.coldest
      { drop := 8, hour := sampleHour 5 0 (some 20) 1012 270, turned := 300 } (by decide +kernel)
    obtain rfl := Option.some.inj ht
    have := hmin (sampleHour 6 0 (some 12) 1011 300) (by decide) 12 rfl
    exact absurd this (by decide)

end Aurade.Forecast.Outlook
