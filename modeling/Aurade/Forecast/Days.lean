import Aurade.Forecast.Values

/-!
# Days of a forecast

The National Weather Service forecasts halves of a day, and `nwsDays` folds them into days by the date
they start on. It gives no ultraviolet index, so `borrowUltraviolet` asks the other service for one, and
what that service answers is a column.

`nwsDays_spec` says what the days are. The column is read by position, so that an index is the one of
the day it is put on exactly where the two lists run over the same dates (`SameDates`): `joined_iff`.
-/

namespace Aurade.Forecast.Days

/-- What is done by libraries: the date of a moment that is written out, and the sky an icon shows,
which may raise. -/
structure Reading (D : Type) extends Library where
  date : Str → Option D
  sky : Str → Option Str

/-- `Day`. -/
structure Day (D : Type) where
  date : D
  name : Str
  high : Option ℚ
  low : Option ℚ
  condition : Str
  precipitation : Option ℤ
  ultraviolet : Option ℚ

variable {D : Type} [DecidableEq D] (r : Reading D)

/-- `_celsius`, with the arithmetic of floats in `toCelsius`. -/
def celsius (toCelsius : ℚ → ℚ) (unit : Str) : Option ℚ → Option ℚ
  | none => none
  | some v => some (if unit.map Char.toUpper = ['F'] then toCelsius v else v)

/-! ## Folding -/

/-- A half of a day, as it is read. -/
structure Half (D : Type) where
  date : D
  daytime : Bool
  /-- What is printed, where it is something. -/
  name : Option Str
  temperature : Option ℚ
  chance : Option ℤ
  icon : Str

/-- What the loop reads of a period; nothing of one without a start. -/
def readHalf (toCelsius : ℚ → ℚ) (period : Value) : Except Raised (Option (Half D)) := do
  let start ← period.get "startTime"
  match r.date (start.textOr r.toLibrary) with
  | none => .ok none
  | some date =>
    let daytime ← period.get "isDaytime"
    let name ← period.get "name"
    let temperature ← period.get "temperature"
    let temperature ← number r.toLibrary temperature
    let unit ← period.get "temperatureUnit"
    let chance ← period.get "probabilityOfPrecipitation"
    let chance ← percent r.toLibrary chance
    let icon ← period.get "icon"
    .ok (some {
      date := date, daytime := daytime.truthy,
      name := if name.truthy then some (name.text r.toLibrary) else none,
      temperature := celsius toCelsius (unit.textOr r.toLibrary) temperature,
      chance := chance, icon := icon.textOr r.toLibrary })

/-- `sky_from_icon`. -/
def skyFromIcon (icon : Str) : Except Raised Str :=
  match r.sky icon with
  | some condition => .ok condition
  | none => .error .valueError

/-- The temperature of a half is put on its day. A night shows its sky where there was no day. -/
def Day.measure (day : Day D) (half : Half D) : Except Raised (Day D) :=
  if half.daytime then
    (skyFromIcon r half.icon).map fun condition =>
      { day with high := half.temperature, name := half.name.getD day.name, condition := condition }
  else if day.high = none then
    (skyFromIcon r half.icon).map fun condition =>
      { day with low := half.temperature, condition := condition }
  else .ok { day with low := half.temperature }

/-- And its chance of rain, where that is greater. -/
def Day.wetten (day : Day D) (chance : Option ℤ) : Day D :=
  match chance with
  | some chance => { day with precipitation := some (max (day.precipitation.getD 0) chance) }
  | none => day

/-- What a half does to its day. -/
def Day.take (day : Day D) (half : Half D) : Except Raised (Day D) :=
  (day.measure r half).map fun day => day.wetten half.chance

/-- The condition of a day nothing is known of. -/
def cloudy : Str := "cloudy".toList

/-- A new day. -/
def Half.day (half : Half D) : Day D where
  date := half.date
  name := half.name.getD []
  high := none
  low := none
  condition := cloudy
  precipitation := none
  ultraviolet := none

/-- What a half does to the days. -/
def takeHalf (days : List (Day D)) (half : Half D) : Except Raised (List (Day D)) :=
  let days := if half.date ∈ days.map Day.date then days else days ++ [half.day]
  days.mapM fun day => if day.date = half.date then day.take r half else .ok day

/-- The loop of `_nws_days` over one period. -/
def takePeriod (toCelsius : ℚ → ℚ) (days : List (Day D)) (period : Value) :
    Except Raised (List (Day D)) := do
  match ← readHalf r toCelsius period with
  | none => .ok days
  | some half => takeHalf r days half

/-- `_nws_days`. -/
def nwsDays (toCelsius : ℚ → ℚ) (periods : List Value) : Except Raised (List (Day D)) :=
  periods.foldlM (takePeriod r toCelsius) []

/-! ## The other service -/

/-- `_at`. -/
def at_ (table : Value) (key : String) (index : ℕ) : Except Raised Value := do
  match ← table.get key with
  | .arr column => .ok (column[index]?.getD .null)
  | _ => .ok .null

/-- `_borrow_ultraviolet`, of what was answered, if anything was. -/
def borrowUltraviolet (answer : Option Value) (days : List (Day D)) : Except Raised (List (Day D)) :=
  match answer with
  | none => .ok days
  | some answer => do
    let daily ← answer.getD "daily" (.dict [])
    days.zipIdx.mapM fun (day, index) => do
      let value ← number r.toLibrary (← at_ daily "uv_index_max" index)
      .ok (match value with
        | some value => { day with ultraviolet := some value }
        | none => day)

/-- The days of the report. -/
def reportDays (toCelsius : ℚ → ℚ) (periods : List Value) (answer : Option Value) :
    Except Raised (List (Day D)) := do
  borrowUltraviolet r answer (← nwsDays r toCelsius periods)

/-! ## What the days are -/

/-- The halves of a forecast, without those that have no start. -/
def halves (toCelsius : ℚ → ℚ) (periods : List Value) : List (Half D) :=
  periods.filterMap fun p => (readHalf r toCelsius p).toOption.join

/-- The temperature of the last of some halves, where it has one. -/
def lastTemperature (hs : List (Half D)) : Option ℚ := hs.getLast?.bind Half.temperature

/-- The daytime halves, or the others, that start on a date. -/
def onDate (daytime : Bool) (date : D) (hs : List (Half D)) : List (Half D) :=
  hs.filter fun h => h.daytime = daytime ∧ h.date = date

/-- Each of some dates once, where it is first met. -/
def firstMet (dates : List D) : List D :=
  dates.foldl (fun met date => if date ∈ met then met else met ++ [date]) []

theorem firstMet_concat (dates : List D) (date : D) : firstMet (dates ++ [date]) =
    if date ∈ firstMet dates then firstMet dates else firstMet dates ++ [date] := by
  rw [firstMet, List.foldl_append]
  rfl

theorem mem_firstMet {dates : List D} {date : D} : date ∈ firstMet dates ↔ date ∈ dates := by
  induction dates using List.reverseRecOn with
  | nil => exact Iff.rfl
  | append_singleton dates d ih =>
    rw [firstMet_concat, List.mem_append, List.mem_singleton]
    split
    · next hd =>
      rw [ih]
      refine ⟨Or.inl, fun h => h.elim id ?_⟩
      rintro rfl
      exact ih.1 hd
    · rw [List.mem_append, List.mem_singleton, ih]

/-- They stand in the order they are first met. -/
theorem pairwise_firstMet (dates : List D) :
    (firstMet dates).Pairwise fun a b => dates.idxOf a < dates.idxOf b := by
  induction dates using List.reverseRecOn with
  | nil => exact List.Pairwise.nil
  | append_singleton dates d ih =>
    have hplace : ∀ a ∈ firstMet dates, (dates ++ [d]).idxOf a = dates.idxOf a :=
      fun a ha => List.idxOf_append_of_mem (mem_firstMet.1 ha)
    have hold : (firstMet dates).Pairwise fun a b =>
        (dates ++ [d]).idxOf a < (dates ++ [d]).idxOf b := by
      refine ih.imp_of_mem fun {a b} ha hb hlt => ?_
      rwa [hplace a ha, hplace b hb]
    rw [firstMet_concat]
    split
    · exact hold
    · next hd =>
      refine List.pairwise_append.2 ⟨hold, List.pairwise_singleton _ _, fun a ha b hb => ?_⟩
      obtain rfl := List.mem_singleton.1 hb
      rw [hplace a ha, List.idxOf_append_of_notMem (mt mem_firstMet.2 hd)]
      exact Nat.lt_of_lt_of_le (List.idxOf_lt_length_of_mem (mem_firstMet.1 ha))
        (Nat.le_add_right _ _)

/-- Days are folded from halves: each date is in them where it is first met, with the temperatures of
the last halves that start on it. -/
structure Folded (hs : List (Half D)) (days : List (Day D)) : Prop where
  dates : days.map Day.date = firstMet (hs.map Half.date)
  high : ∀ day ∈ days, day.high = lastTemperature (onDate true day.date hs)
  low : ∀ day ∈ days, day.low = lastTemperature (onDate false day.date hs)

variable {r}

omit [DecidableEq D] in
/-- What a half does to its day. -/
theorem take_ok {day day' : Day D} {half : Half D} (h : day.take r half = .ok day') :
    day'.date = day.date ∧ day'.ultraviolet = day.ultraviolet ∧
      day'.high = (if half.daytime then half.temperature else day.high) ∧
      day'.low = (if half.daytime then day.low else half.temperature) := by
  obtain ⟨mid, hmid, rfl⟩ := Act.except_map_eq_ok.1 h
  have hmid' : mid.date = day.date ∧ mid.ultraviolet = day.ultraviolet ∧
      mid.high = (if half.daytime then half.temperature else day.high) ∧
      mid.low = (if half.daytime then day.low else half.temperature) := by
    rw [Day.measure] at hmid
    split at hmid
    · next hd =>
      obtain ⟨c, -, rfl⟩ := Act.except_map_eq_ok.1 hmid
      simp [hd]
    · next hd =>
      split at hmid
      · obtain ⟨c, -, rfl⟩ := Act.except_map_eq_ok.1 hmid
        simp [hd]
      · rw [← Except.ok.inj hmid]
        simp [hd]
  unfold Day.wetten
  split <;> exact hmid'

theorem onDate_concat (daytime : Bool) (date : D) (hs : List (Half D)) (half : Half D) :
    onDate daytime date (hs ++ [half]) = onDate daytime date hs ++
      if half.daytime = daytime ∧ half.date = date then [half] else [] := by
  rw [onDate, List.filter_append, ← onDate]
  congr 1
  by_cases h : half.daytime = daytime ∧ half.date = date
  · rw [if_pos h]
    exact List.filter_cons_of_pos (decide_eq_true h)
  · rw [if_neg h]
    exact List.filter_cons_of_neg (by simpa using h)

theorem lastTemperature_concat (daytime : Bool) (date : D) (hs : List (Half D)) (half : Half D) :
    lastTemperature (onDate daytime date (hs ++ [half])) =
      if half.daytime = daytime ∧ half.date = date then half.temperature
      else lastTemperature (onDate daytime date hs) := by
  rw [onDate_concat]
  split
  · rw [lastTemperature, List.getLast?_concat, Option.bind_some]
  · rw [List.append_nil]

/-- The days a half is put into. -/
def opened (days : List (Day D)) (half : Half D) : List (Day D) :=
  if half.date ∈ days.map Day.date then days else days ++ [half.day]

theorem onDate_eq_nil {daytime : Bool} {date : D} {hs : List (Half D)} (h : date ∉ hs.map Half.date) :
    onDate daytime date hs = [] := by
  rw [onDate, List.filter_eq_nil_iff]
  intro half hhalf hdate
  exact h (List.mem_map.2 ⟨half, hhalf, (of_decide_eq_true hdate).2⟩)

theorem opened_dates {hs : List (Half D)} {days : List (Day D)} (half : Half D)
    (hf : Folded hs days) :
    (opened days half).map Day.date = firstMet ((hs ++ [half]).map Half.date) := by
  rw [List.map_append, List.map_singleton, firstMet_concat, ← hf.dates, opened]
  split
  · rfl
  · rw [List.map_append]
    rfl

/-- A day that is opened has no temperatures, as no half has been met that starts on it. -/
theorem mem_opened {hs : List (Half D)} {days : List (Day D)} {half : Half D} (hf : Folded hs days)
    {day : Day D} (h : day ∈ opened days half) :
    (day ∈ days ∨ day.ultraviolet = none) ∧
      day.high = lastTemperature (onDate true day.date hs) ∧
      day.low = lastTemperature (onDate false day.date hs) := by
  unfold opened at h
  split at h
  · exact ⟨Or.inl h, hf.high day h, hf.low day h⟩
  · next hnew =>
    rcases List.mem_append.1 h with h | h
    · exact ⟨Or.inl h, hf.high day h, hf.low day h⟩
    · obtain rfl := List.mem_singleton.1 h
      have hdate : half.day.date = half.date := rfl
      rw [hf.dates, mem_firstMet] at hnew
      rw [hdate, onDate_eq_nil hnew, onDate_eq_nil hnew]
      exact ⟨Or.inr rfl, rfl, rfl⟩

theorem exists_of_forall₂ {α β : Type} {R : α → β → Prop} {as : List α} {bs : List β}
    (h : List.Forall₂ R as bs) {b : β} (hb : b ∈ bs) : ∃ a ∈ as, R a b := by
  induction h with
  | nil => cases hb
  | @cons a b' as bs hab _ ih =>
    rcases List.mem_cons.1 hb with rfl | hb
    · exact ⟨a, List.mem_cons_self, hab⟩
    · obtain ⟨a', ha', h⟩ := ih hb
      exact ⟨a', List.mem_cons_of_mem _ ha', h⟩

theorem map_eq_of_forall₂ {α β γ : Type} {R : α → β → Prop} {f : α → γ} {g : β → γ}
    (hR : ∀ a b, R a b → g b = f a) {as : List α} {bs : List β} (h : List.Forall₂ R as bs) :
    bs.map g = as.map f := by
  induction h with
  | nil => rfl
  | cons hab _ ih => rw [List.map_cons, List.map_cons, hR _ _ hab, ih]

/-- A half that is folded in. -/
theorem takeHalf_folded {hs : List (Half D)} {days days' : List (Day D)} {half : Half D}
    (h : takeHalf r days half = .ok days') (hf : Folded hs days)
    (huv : ∀ day ∈ days, day.ultraviolet = none) :
    Folded (hs ++ [half]) days' ∧ ∀ day ∈ days', day.ultraviolet = none := by
  have hrel := Act.except_mapM_eq_ok.1 (show (opened days half).mapM (fun day =>
    if day.date = half.date then day.take r half else .ok day) = .ok days' from h)
  have hstep : ∀ a b : Day D, (if a.date = half.date then a.take r half else .ok a) = .ok b →
      b.date = a.date ∧ b.ultraviolet = a.ultraviolet ∧
      b.high = (if half.daytime = true ∧ half.date = a.date then half.temperature else a.high) ∧
      b.low = if half.daytime = false ∧ half.date = a.date then half.temperature else a.low := by
    intro a b hab
    by_cases hdate : a.date = half.date
    · rw [if_pos hdate] at hab
      obtain ⟨hd, huv, hhigh, hlow⟩ := take_ok hab
      refine ⟨hd, huv, ?_, ?_⟩
      · rw [hhigh]
        simp [hdate]
      · rw [hlow]
        cases half.daytime <;> simp [hdate]
    · rw [if_neg hdate] at hab
      rw [← Except.ok.inj hab]
      simp [Ne.symm hdate]
  have hdates : days'.map Day.date = (opened days half).map Day.date :=
    map_eq_of_forall₂ (fun a b hab => (hstep a b hab).1) hrel
  refine ⟨⟨hdates.trans (opened_dates half hf), ?_, ?_⟩, ?_⟩
  all_goals
    intro day hd
    obtain ⟨a, ha, hab⟩ := exists_of_forall₂ hrel hd
    obtain ⟨hdate, hborrowed, hhigh, hlow⟩ := hstep a day hab
    obtain ⟨hmem, ihigh, ilow⟩ := mem_opened hf ha
  · rw [lastTemperature_concat, hhigh, hdate, ihigh]
  · rw [lastTemperature_concat, hlow, hdate, ilow]
  · rw [hborrowed]
    exact hmem.elim (huv a) id

/-- **What the days are**: each date once, in the order it is first met, with the temperatures of the
last halves that start on it. -/
theorem nwsDays_spec {toCelsius : ℚ → ℚ} {periods : List Value} {days : List (Day D)}
    (h : nwsDays r toCelsius periods = .ok days) :
    Folded (halves r toCelsius periods) days ∧ ∀ day ∈ days, day.ultraviolet = none := by
  refine Act.except_foldlM_done (I := fun done days => Folded (halves r toCelsius done) days ∧
    ∀ day ∈ days, day.ultraviolet = none) ⟨⟨rfl, ?_, ?_⟩, ?_⟩ ?_ h
  · exact fun day hd => absurd hd List.not_mem_nil
  · exact fun day hd => absurd hd List.not_mem_nil
  · exact fun day hd => absurd hd List.not_mem_nil
  · intro done period days days' hf hstep
    obtain ⟨half, hread, hstep⟩ := Act.except_bind_eq_ok.1 hstep
    rw [halves, List.filterMap_append]
    cases half with
    | none =>
      rw [← Except.ok.inj hstep, List.filterMap_cons_none (by rw [hread]; rfl), List.filterMap_nil,
        List.append_nil]
      exact hf
    | some half =>
      rw [List.filterMap_cons_some (by rw [hread]; rfl), List.filterMap_nil]
      exact takeHalf_folded hstep hf.1 hf.2

/-! ## Joining the two -/

/-- The list a table has under a key. -/
def columnOf (table : Value) (key : String) : List Value :=
  match table with
  | .dict fields =>
    match fields.lookup key.toList with
    | some (.arr column) => column
    | _ => []
  | _ => []

/-- The days of the other service's answer. -/
def daily (answer : Value) : Value :=
  match answer with
  | .dict fields => (fields.lookup "daily".toList).getD (.dict [])
  | _ => .null

variable (r) in
/-- The ultraviolet index at a position of the answer. -/
def indexAt (answer : Value) (i : ℕ) : Option ℚ :=
  (number r.toLibrary ((columnOf (daily answer) "uv_index_max")[i]?.getD .null)).toOption.join

variable (r) in
/-- The answer gives an index for a date. -/
def Given (answer : Value) (date : D) (v : ℚ) : Prop :=
  ∃ i stamp, (columnOf (daily answer) "time")[i]? = some stamp ∧
    r.date (stamp.text r.toLibrary) = some date ∧ indexAt r answer i = some v

theorem at_ok {table v : Value} {key : String} {i : ℕ} (h : at_ table key i = .ok v) :
    v = (columnOf table key)[i]?.getD .null := by
  obtain ⟨w, hw, h⟩ := Act.except_bind_eq_ok.1 h
  cases table with
  | dict fields =>
    have hw' : (fields.lookup key.toList).getD .null = w := Except.ok.inj hw
    subst hw'
    cases hc : fields.lookup key.toList with
    | none =>
      simp only [hc, Option.getD_none] at h
      simp only [columnOf, hc, List.getElem?_nil, Option.getD_none]
      exact (Except.ok.inj h).symm
    | some w =>
      simp only [hc, Option.getD_some] at h
      cases w
      case arr column =>
        simp only [columnOf, hc]
        exact (Except.ok.inj h).symm
      all_goals
        simp only [columnOf, hc, List.getElem?_nil, Option.getD_none]
        exact (Except.ok.inj h).symm
  | _ => cases hw

omit [DecidableEq D] in
/-- A day gets the index at its position. -/
theorem borrow_ok {answer : Value} {days days' : List (Day D)}
    (h : borrowUltraviolet r (some answer) days = .ok days') :
    List.Forall₂ (fun p day' => day' =
      { p.1 with ultraviolet := (indexAt r answer p.2).or p.1.ultraviolet }) days.zipIdx days' := by
  obtain ⟨d, hd, h⟩ := Act.except_bind_eq_ok.1 h
  have hdaily : d = daily answer := by
    cases answer with
    | dict fields => exact (Except.ok.inj hd).symm
    | _ => cases hd
  subst hdaily
  refine (Act.except_mapM_eq_ok.1 h).imp fun p day' hp => ?_
  obtain ⟨day, i⟩ := p
  obtain ⟨v, hv, hp⟩ := Act.except_bind_eq_ok.1 hp
  obtain ⟨x, hx, hp⟩ := Act.except_bind_eq_ok.1 hp
  have hindex : indexAt r answer i = x := by
    rw [indexAt, ← at_ok hv, hx]
    rfl
  rw [hindex, ← Except.ok.inj hp]
  cases x <;> rfl

variable (r) in
/-- The days are joined by date: they are those of the forecast, and an index is one the other
service gave for that date. -/
structure Joined (toCelsius : ℚ → ℚ) (periods : List Value) (answer : Option Value)
    (days : List (Day D)) : Prop where
  distinct : (days.map Day.date).Nodup
  /-- The dates are those of the halves. -/
  met : ∀ date, date ∈ days.map Day.date ↔ date ∈ (halves r toCelsius periods).map Half.date
  /-- In the order they are first met. -/
  order : (days.map Day.date).Pairwise fun a b =>
    ((halves r toCelsius periods).map Half.date).idxOf a <
      ((halves r toCelsius periods).map Half.date).idxOf b
  high : ∀ day ∈ days, day.high = lastTemperature (onDate true day.date (halves r toCelsius periods))
  low : ∀ day ∈ days, day.low = lastTemperature (onDate false day.date (halves r toCelsius periods))
  ultraviolet : ∀ day ∈ days, ∀ v, day.ultraviolet = some v →
    ∃ a, answer = some a ∧ Given r a day.date v

variable (r) in
/-- The answer runs over the dates of the forecast: an index at a position is one for the date that is
met at that position. -/
def SameDates (toCelsius : ℚ → ℚ) (periods : List Value) (answer : Option Value) : Prop :=
  ∀ a, answer = some a → ∀ i date v,
    (firstMet ((halves r toCelsius periods).map Half.date))[i]? = some date →
      indexAt r a i = some v → Given r a date v

/-- Borrowing changes nothing but the index. -/
theorem borrow_folded {hs : List (Half D)} {answer : Value} {days days' : List (Day D)}
    (h : borrowUltraviolet r (some answer) days = .ok days') (hf : Folded hs days) :
    Folded hs days' := by
  have hrel := borrow_ok h
  refine ⟨?_, ?_, ?_⟩
  · rw [map_eq_of_forall₂ (f := fun p => p.1.date) (fun p day' hp => by rw [hp]) hrel, ← hf.dates]
    rw [show (fun p : Day D × ℕ => p.1.date) = Day.date ∘ Prod.fst from rfl, ← List.map_map,
      List.zipIdx_map_fst]
  all_goals
    intro day hd
    obtain ⟨p, hp, rfl⟩ := exists_of_forall₂ hrel hd
    have hmem := List.mem_of_getElem? (List.mem_zipIdx_iff_getElem?.1 hp)
  · exact hf.high p.1 hmem
  · exact hf.low p.1 hmem

omit [DecidableEq D] in
/-- The index of a day is the one at the position its date is met. -/
theorem borrowed_iff {answer : Value} {days days' : List (Day D)}
    (h : borrowUltraviolet r (some answer) days = .ok days')
    (hblank : ∀ day ∈ days, day.ultraviolet = none) (hnodup : (days.map Day.date).Nodup)
    {day : Day D} (hd : day ∈ days') {i : ℕ} (hi : (days.map Day.date)[i]? = some day.date) :
    day.ultraviolet = indexAt r answer i := by
  obtain ⟨⟨own, k⟩, hp, rfl⟩ := exists_of_forall₂ (borrow_ok h) hd
  have hk : days[k]? = some own := List.mem_zipIdx_iff_getElem?.1 hp
  have hk' : (days.map Day.date)[k]? = some own.date := by
    rw [List.getElem?_map, hk]
    rfl
  have hik : i = k := by
    obtain ⟨hilt, hival⟩ := List.getElem?_eq_some_iff.1 hi
    obtain ⟨hklt, hkval⟩ := List.getElem?_eq_some_iff.1 hk'
    exact (hnodup.getElem_inj_iff).1 (hival.trans hkval.symm)
  rw [hik]
  change (indexAt r answer k).or own.ultraviolet = _
  rw [hblank own (List.mem_of_getElem? hk), Option.or_none]

/-- **The days are joined by date exactly where the two services list the same dates**, in a report
that is made. -/
theorem joined_iff {toCelsius : ℚ → ℚ} {periods : List Value} {answer : Option Value}
    {days : List (Day D)} (h : reportDays r toCelsius periods answer = .ok days) :
    Joined r toCelsius periods answer days ↔ SameDates r toCelsius periods answer := by
  obtain ⟨own, hown, hborrow⟩ := Act.except_bind_eq_ok.1 h
  obtain ⟨hf, hblank⟩ := nwsDays_spec hown
  have horder := pairwise_firstMet ((halves r toCelsius periods).map Half.date)
  have hnodup : (firstMet ((halves r toCelsius periods).map Half.date)).Nodup :=
    horder.imp fun hlt heq => absurd (heq ▸ hlt) (lt_irrefl _)
  have hdays : Folded (halves r toCelsius periods) days := by
    cases answer with
    | none => exact Except.ok.inj hborrow ▸ hf
    | some a => exact borrow_folded hborrow hf
  have hown' : (own.map Day.date).Nodup := by rwa [hf.dates]
  constructor
  · rintro hj a rfl i date v hi hv
    have hmem : date ∈ days.map Day.date := by
      rw [hdays.dates]
      exact List.mem_of_getElem? hi
    obtain ⟨day, hd, rfl⟩ := List.mem_map.1 hmem
    have huv := borrowed_iff hborrow hblank hown' hd (by rw [hf.dates]; exact hi)
    obtain ⟨a', ha', hgiven⟩ := hj.ultraviolet day hd v (huv.trans hv)
    exact Option.some.inj ha' ▸ hgiven
  · intro hsame
    refine ⟨?_, ?_, ?_, hdays.high, hdays.low, ?_⟩
    · rwa [hdays.dates]
    · intro date
      rw [hdays.dates, mem_firstMet]
    · rw [hdays.dates]
      exact horder
    · intro day hd v hv
      cases answer with
      | none =>
        rw [← Except.ok.inj hborrow] at hd
        rw [hblank day hd] at hv
        cases hv
      | some a =>
        have hmem : day.date ∈ firstMet ((halves r toCelsius periods).map Half.date) := by
          rw [← hdays.dates]
          exact List.mem_map_of_mem hd
        obtain ⟨i, hi⟩ := List.mem_iff_getElem?.1 hmem
        have huv := borrowed_iff hborrow hblank hown' hd (by rw [hf.dates]; exact hi)
        exact ⟨a, rfl, hsame a rfl i day.date v hi (huv.symm.trans hv)⟩

/-! ## A forecast that began yesterday -/

/-- The date is what a moment begins with. -/
def sampleReading : Reading Str where
  ofInt n := some n
  ofText _ := none
  print _ := []
  date s := if 10 ≤ s.length then some (s.take 10) else none
  sky _ := some cloudy

/-- A half that starts at a moment. -/
def samplePeriod (start : String) (daytime : Bool) (temperature : ℤ) : Value :=
  .dict [("startTime".toList, .str start.toList), ("isDaytime".toList, .bool daytime),
    ("temperature".toList, .int temperature), ("temperatureUnit".toList, .str "C".toList)]

/-- The indices of the eighth and the ninth. -/
def sampleAnswer : Value :=
  .dict [("daily".toList, .dict [
    ("time".toList, .arr [.str "2026-09-08".toList, .str "2026-09-09".toList]),
    ("uv_index_max".toList, .arr [.int 6, .int 7])])]

/-- Last night, and today. -/
def samplePeriods : List Value :=
  [samplePeriod "2026-09-07T18:00:00-05:00" false 21, samplePeriod "2026-09-08T06:00:00-05:00" true 33]

/-- Yesterday gets the index of today. -/
def sampleDays : List (Day Str) :=
  [⟨"2026-09-07".toList, [], none, some 21, cloudy, none, some 6⟩,
    ⟨"2026-09-08".toList, [], some 33, none, cloudy, none, some 7⟩]

theorem joined_iff_today : Joined sampleReading id
    [samplePeriod "2026-09-08T06:00:00-05:00" true 33] (some sampleAnswer)
      [⟨"2026-09-08".toList, [], some 33, none, cloudy, none, some 6⟩] ↔
    SameDates sampleReading id [samplePeriod "2026-09-08T06:00:00-05:00" true 33]
      (some sampleAnswer) :=
  joined_iff rfl

theorem yesterday_misplaced : reportDays sampleReading id samplePeriods (some sampleAnswer) =
    .ok sampleDays ∧ ¬Joined sampleReading id samplePeriods (some sampleAnswer) sampleDays := by
  refine ⟨rfl, fun hj => ?_⟩
  obtain ⟨a, ha, i, stamp, hstamp, hdate, -⟩ := hj.ultraviolet _ List.mem_cons_self 6 rfl
  obtain rfl := Option.some.inj ha
  have htimes : columnOf (daily sampleAnswer) "time" =
      [.str "2026-09-08".toList, .str "2026-09-09".toList] := rfl
  have hmem := List.mem_of_getElem? hstamp
  rw [htimes] at hmem
  rcases List.mem_cons.1 hmem with rfl | hmem
  · exact absurd hdate (by decide)
  · obtain rfl := List.mem_singleton.1 hmem
    exact absurd hdate (by decide)

end Aurade.Forecast.Days
