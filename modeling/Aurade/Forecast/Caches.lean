import Mathlib
import Aurade.Forecast.Values
import Aurade.Greeter.Settings

/-!
# What the login screen keeps

Two caches hold JSON: the last forecast and the place of the machine. Each is read field by field, and
what is no number is passed over; but an integer may be too large for a float, which is not caught, and
what the forecast has under `hours` is looped over as it is. `Readable` says when a forecast is read.

How old an answer is is never less than nothing, so one from the future is always fresh; and the place
has neither the checks of `parse` nor, where its moment is missing, a moment other than now.
`trusted_iff` says of which contents the settings and the caches are read as they should be.
-/

namespace Aurade.Forecast.Caches

/-- What is done by libraries, and the moments that are written out. -/
structure Reader (M : Type) extends Library where
  moment : Str → Option M

/-- What became of a file with JSON. -/
inductive Loaded
  /-- It cannot be read, or holds none. -/
  | refused
  /-- It is nested too deep. -/
  | deep
  | value (v : Value)

/-- What is raised and not caught. -/
inductive Uncaught
  | recursionError
  | raised (e : Raised)

/-- A computation that raises nothing. -/
def Returns {ε α : Type} (x : Except ε α) : Prop := ∃ a, x = .ok a

/-- `record.get("version") == 1`. -/
def isOne : Value → Bool
  | .int n => n = 1
  | .float x => x = .fin 1
  | .bool b => b
  | _ => false

/-- `get`, of the fields of a dictionary. -/
def field (fields : List (Str × Value)) (key : String) : Value := (fields.lookup key.toList).getD .null

variable {M : Type} (r : Reader M)

/-! ## The forecast -/

/-- `Hour`. -/
structure Hour (M : Type) where
  at_ : Option M
  temperature : Option ℚ
  condition : Str
  precipitation : Option ℤ
  daylight : Bool
  amount : Option ℚ
  rain : Option ℚ
  snow : Option ℚ
  pressure : Option ℚ
  wind : Option ℚ
  bearing : Option ℚ
  cape : Option ℚ

/-- `Day`, with its moment for the date. -/
structure Day (M : Type) where
  date : Option M
  name : Str
  high : Option ℚ
  low : Option ℚ
  condition : Str
  precipitation : Option ℤ
  ultraviolet : Option ℚ

/-- `Report`. Of `now`, the fields that are given. -/
structure Report (M : Type) where
  place : Str
  provider : Str
  latitude : ℚ
  longitude : ℚ
  zone : Str
  taken : ℚ
  narrative : Str
  airIndex : Option ℤ
  airPm : Option ℚ
  now : List (Str × Value)
  hours : List (Hour M)
  days : List (Day M)

/-- How long a forecast is current. -/
def freshFor : ℚ := 900

/-- `Report.age`. -/
def Report.age (report : Report M) (clock : ℚ) : ℚ := max 0 (clock - report.taken)

/-- `Report.fresh`. -/
def Report.fresh (report : Report M) (clock : ℚ) : Bool := report.age clock < freshFor

/-- The fields of `Now`. -/
def nowFields : List Str :=
  ["temperature".toList, "feels_like".toList, "humidity".toList, "dew_point".toList, "wind".toList,
    "gust".toList, "bearing".toList, "pressure".toList, "visibility".toList, "cloud".toList,
    "condition".toList, "daylight".toList, "summary".toList]

/-- A condition, or the one of a sky nothing is known of. -/
def conditionOf (fields : List (Str × Value)) : Str :=
  if (field fields "condition").truthy then (field fields "condition").text r.toLibrary
  else "cloudy".toList

/-- An hour as it is read. -/
def readHour (fields : List (Str × Value)) : Except Raised (Hour M) := do
  let temperature ← number r.toLibrary (field fields "temperature")
  let precipitation ← percent r.toLibrary (field fields "precipitation")
  let amount ← number r.toLibrary (field fields "amount")
  let rain ← number r.toLibrary (field fields "rain")
  let snow ← number r.toLibrary (field fields "snow")
  let pressure ← number r.toLibrary (field fields "pressure")
  let wind ← number r.toLibrary (field fields "wind")
  let bearing ← number r.toLibrary (field fields "bearing")
  let cape ← number r.toLibrary (field fields "cape")
  .ok {
    at_ := r.moment ((field fields "at").textOr r.toLibrary), temperature := temperature,
    condition := conditionOf r fields, precipitation := precipitation,
    daylight := ((fields.lookup "daylight".toList).getD (.bool true)).truthy, amount := amount,
    rain := rain, snow := snow, pressure := pressure, wind := wind, bearing := bearing, cape := cape }

/-- A day as it is read. -/
def readDay (fields : List (Str × Value)) : Except Raised (Day M) := do
  let high ← number r.toLibrary (field fields "high")
  let low ← number r.toLibrary (field fields "low")
  let precipitation ← percent r.toLibrary (field fields "precipitation")
  let ultraviolet ← number r.toLibrary (field fields "ultraviolet")
  .ok {
    date := r.moment ((field fields "date").textOr r.toLibrary),
    name := (field fields "name").textOr r.toLibrary, high := high, low := low,
    condition := conditionOf r fields, precipitation := precipitation, ultraviolet := ultraviolet }

/-- A loop over entries, which passes over what is no dictionary. -/
def readEntries {α : Type} (read : List (Str × Value) → Except Raised α) :
    List Value → Except Raised (List α)
  | [] => .ok []
  | .dict fields :: rest => do
    let a ← read fields
    let as ← readEntries read rest
    .ok (a :: as)
  | _ :: rest => readEntries read rest

/-- What a loop over `value or []` goes through. -/
def looped (v : Value) : Except Raised (List Value) := if v.truthy then v.iter else .ok []

/-- Such a loop. -/
def readAll {α : Type} (read : List (Str × Value) → Except Raised α) (v : Value) :
    Except Raised (List α) := do
  let entries ← looped v
  readEntries read entries

/-- `from_record`, of a record that is one. -/
def readReport (fields : List (Str × Value)) : Except Raised (Report M) := do
  let latitude ← number r.toLibrary (field fields "latitude")
  let longitude ← number r.toLibrary (field fields "longitude")
  let taken ← number r.toLibrary (field fields "taken")
  let index ← number r.toLibrary (field fields "air_index")
  let pm ← number r.toLibrary (field fields "air_pm")
  let hours ← readAll (readHour r) (field fields "hours")
  let days ← readAll (readDay r) (field fields "days")
  .ok {
    place := (field fields "place").textOr r.toLibrary,
    provider := (field fields "provider").textOr r.toLibrary,
    latitude := latitude.getD 0, longitude := longitude.getD 0,
    zone := (field fields "zone").textOr r.toLibrary, taken := taken.getD 0,
    narrative := (field fields "narrative").textOr r.toLibrary,
    airIndex := index.map fun q => Int.tdiv q.num q.den, airPm := pm,
    now := match field fields "now" with
      | .dict saved => saved.filter fun f => f.1 ∈ nowFields
      | _ => [],
    hours := hours, days := days }

/-- `from_record`. -/
def fromRecord : Value → Except Raised (Option (Report M))
  | .dict fields =>
    if isOne (field fields "version") then (readReport r fields).map some else .ok none
  | _ => .ok none

/-- `weather.load`. -/
def loadReport : Loaded → Except Uncaught (Option (Report M))
  | .refused => .ok none
  | .deep => .error .recursionError
  | .value v => (fromRecord r v).mapError .raised

/-! ## The place -/

/-- `Place`. -/
structure Place where
  latitude : PyFloat
  longitude : PyFloat
  name : Str
  taken : PyFloat

/-- A place, taken now where no moment is given. -/
def Place.make (clock : ℚ) (latitude longitude : PyFloat) (name : Str) (taken : PyFloat) : Place where
  latitude := latitude
  longitude := longitude
  name := name
  taken := if taken = .fin 0 then .fin clock else taken

/-- How long a place is current. -/
def placeFor : ℚ := 86400

/-- `clock - taken`. -/
def since (clock : ℚ) : PyFloat → PyFloat
  | .nan => .nan
  | .inf negative => .inf !negative
  | .fin q => .fin (clock - q)

/-- `max(0.0, x)`. -/
def atLeastZero : PyFloat → PyFloat
  | .fin q => .fin (max 0 q)
  | .inf false => .inf false
  | _ => .fin 0

/-- `x < FRESH`. -/
def current : PyFloat → Bool
  | .fin q => q < placeFor
  | .inf negative => negative
  | .nan => false

/-- `Place.age`. -/
def Place.age (place : Place) (clock : ℚ) : PyFloat := atLeastZero (since clock place.taken)

/-- `Place.fresh`. -/
def Place.fresh (place : Place) (clock : ℚ) : Bool := current (place.age clock)

/-- `_number` of the place. -/
def placeNumber (lib : Library) : Value → Except Raised (Option PyFloat)
  | .null => .ok none
  | .bool _ => .ok none
  | v =>
    match float lib v with
    | .ok x => .ok (some x)
    | .error .typeError => .ok none
    | .error .valueError => .ok none
    | .error e => .error e

/-- The checks of `parse`. -/
def onGlobe (latitude longitude : PyFloat) : Bool :=
  latitude.within (-90) 90 && longitude.within (-180) 180 &&
    !(latitude = .fin 0 && longitude = .fin 0)

/-- The name of a place, from its city and its region. -/
def placeName (lib : Library) (fields : List (Str × Value)) : Str :=
  let city := Str.strip ((field fields "city").textOr lib)
  let code := field fields "region_code"
  let region := Str.strip ((if code.truthy then code else field fields "region").textOr lib)
  if city ≠ [] ∧ region ≠ [] then city ++ ", ".toList ++ region else city

/-- `parse`. -/
def parse (lib : Library) (clock : ℚ) : Value → Except Raised (Option Place)
  | .dict fields =>
    if (field fields "error").truthy then .ok none
    else do
      let latitude ← placeNumber lib (field fields "latitude")
      let longitude ← placeNumber lib (field fields "longitude")
      match latitude, longitude with
      | some latitude, some longitude =>
        if onGlobe latitude longitude then
          .ok (some (Place.make clock latitude longitude (placeName lib fields) (.fin 0)))
        else .ok none
      | _, _ => .ok none
  | _ => .ok none

/-- `locate.load`, of a record that is one. -/
def readPlace (lib : Library) (clock : ℚ) (fields : List (Str × Value)) : Except Raised (Option Place) := do
  let latitude ← placeNumber lib (field fields "latitude")
  let longitude ← placeNumber lib (field fields "longitude")
  match latitude, longitude with
  | some latitude, some longitude =>
    let taken ← placeNumber lib (field fields "taken")
    .ok (some (Place.make clock latitude longitude ((field fields "name").textOr lib)
      (taken.getD (.fin 0))))
  | _, _ => .ok none

/-- `locate.load`. -/
def loadPlace (lib : Library) (clock : ℚ) : Loaded → Except Uncaught (Option Place)
  | .refused => .ok none
  | .deep => .error .recursionError
  | .value (.dict fields) =>
    if isOne (field fields "version") then (readPlace lib clock fields).mapError .raised else .ok none
  | .value _ => .ok none

/-- What `locate` does: the place it returns, whether it asks for one, and the place it keeps. -/
structure Located where
  place : Option Place
  asked : Bool
  kept : Option Place

/-- Whether a place from the cache is returned as it is. -/
def kept (clock : ℚ) (now : Option ℚ) : Option Place → Bool
  | none => false
  | some place =>
    match now with
    | none => place.fresh clock
    | some now => current (since now place.taken)

/-- `locate`. What is raised while asking is caught. -/
def locate (lib : Library) (clock : ℚ) (now : Option ℚ) (cache : Loaded) (answer : Option Value) :
    Except Uncaught Located := do
  let place ← loadPlace lib clock cache
  if kept clock now place then .ok ⟨place, false, none⟩
  else
    match answer.map (parse lib clock) with
    | some (.ok (some found)) => .ok ⟨some found, true, some found⟩
    | _ => .ok ⟨place, true, none⟩

/-! ## What is read -/

section Reads

variable {ε α β : Type}

@[simp] theorem returns_ok (a : α) : Returns (.ok a : Except ε α) := ⟨a, rfl⟩

@[simp] theorem not_returns_error (e : ε) : ¬Returns (.error e : Except ε α) := by
  rintro ⟨a, h⟩
  cases h

theorem returns_bind {x : Except ε α} {f : α → Except ε β} :
    Returns (x >>= f) ↔ ∃ a, x = .ok a ∧ Returns (f a) := by
  cases x with
  | error e =>
    constructor
    · exact fun h => absurd h (not_returns_error e)
    · rintro ⟨a, h, -⟩
      cases h
  | ok a =>
    constructor
    · exact fun h => ⟨a, rfl, h⟩
    · rintro ⟨b, hb, h⟩
      cases hb
      exact h

theorem returns_map {x : Except ε α} {f : α → β} : Returns (x.map f) ↔ Returns x := by
  cases x <;> simp [Except.map]

theorem returns_mapError {ε' : Type} {x : Except ε α} {f : ε → ε'} :
    Returns (x.mapError f) ↔ Returns x := by
  cases x <;> simp [Except.mapError]

theorem returns_percent {lib : Library} {v : Value} : (∃ x, percent lib v = .ok x) ↔ v.Small lib := by
  rw [← number_isOk]
  exact returns_map

end Reads

/-- The numbers under some keys are not too large. -/
def SmallAt (lib : Library) (fields : List (Str × Value)) (keys : List String) : Prop :=
  ∀ key ∈ keys, (field fields key).Small lib

/-- A value that can be looped over, or is none. -/
def Iterable : Value → Prop
  | .bool b => b = false
  | .int n => n = 0
  | .float x => x = .fin 0
  | _ => True

/-- A value that is read entry by entry. -/
structure Listed (lib : Library) (keys : List String) (v : Value) : Prop where
  iterable : Iterable v
  small : ∀ entries, v = .arr entries → ∀ fields, Value.dict fields ∈ entries → SmallAt lib fields keys

def reportKeys : List String := ["latitude", "longitude", "taken", "air_index", "air_pm"]

def hourKeys : List String :=
  ["temperature", "precipitation", "amount", "rain", "snow", "pressure", "wind", "bearing", "cape"]

def dayKeys : List String := ["high", "low", "precipitation", "ultraviolet"]

/-- A forecast that is read. -/
structure Readable (lib : Library) (fields : List (Str × Value)) : Prop where
  small : SmallAt lib fields reportKeys
  hours : Listed lib hourKeys (field fields "hours")
  days : Listed lib dayKeys (field fields "days")

theorem returns_readHour (fields : List (Str × Value)) :
    Returns (readHour r fields) ↔ SmallAt r.toLibrary fields hourKeys := by
  simp only [readHour, returns_bind, returns_ok, and_true, exists_and_right, number_isOk, returns_percent,
    SmallAt, hourKeys, List.forall_mem_cons, List.not_mem_nil, false_imp_iff, implies_true]

theorem returns_readDay (fields : List (Str × Value)) :
    Returns (readDay r fields) ↔ SmallAt r.toLibrary fields dayKeys := by
  simp only [readDay, returns_bind, returns_ok, and_true, exists_and_right, number_isOk, returns_percent,
    SmallAt, dayKeys, List.forall_mem_cons, List.not_mem_nil, false_imp_iff, implies_true]

theorem returns_readEntries {α : Type} (read : List (Str × Value) → Except Raised α)
    (entries : List Value) : Returns (readEntries read entries) ↔
      ∀ fields, Value.dict fields ∈ entries → Returns (read fields) := by
  induction entries with
  | nil => simp [readEntries]
  | cons v entries ih =>
    cases v with
    | dict fields =>
      have hstep : Returns (readEntries read (.dict fields :: entries)) ↔
          Returns (read fields) ∧ Returns (readEntries read entries) := by
        simp only [readEntries, returns_bind, returns_ok, and_true, exists_and_right]
        rfl
      rw [hstep, ih]
      constructor
      · rintro ⟨hread, hall⟩ fields' hmem
        rcases List.mem_cons.1 hmem with heq | hmem
        · rwa [Value.dict.inj heq]
        · exact hall fields' hmem
      · exact fun hall => ⟨hall fields List.mem_cons_self, fun f hf => hall f (List.mem_cons_of_mem _ hf)⟩
    | _ => simp [readEntries, ih]

/-- Characters and keys are no entries. -/
theorem not_dict_mem_map {α : Type} {f : α → Str} {as : List α} {fields : List (Str × Value)} :
    Value.dict fields ∉ as.map fun a => Value.str (f a) := by
  intro hmem
  obtain ⟨a, -, h⟩ := List.mem_map.1 hmem
  cases h

theorem readAll_eq {α : Type} {read : List (Str × Value) → Except Raised α} {v : Value}
    {entries : List Value} (h : looped v = .ok entries) :
    readAll read v = readEntries read entries := by
  rw [readAll, h]
  rfl

/-- What has no dictionaries in it is read, and has nothing to be too large. -/
theorem readAll_of_no_entries {α : Type} {read : List (Str × Value) → Except Raised α} {lib : Library}
    {keys : List String} {v : Value} {entries : List Value}
    (h : looped v = .ok entries)
    (hno : ∀ fields, Value.dict fields ∉ entries) (hv : Iterable v) (harr : ∀ es, v ≠ .arr es) :
    Returns (readAll read v) ↔ Listed lib keys v := by
  refine ⟨fun _ => ⟨hv, fun es hes => absurd hes (harr es)⟩, fun _ => ?_⟩
  rw [readAll_eq h, returns_readEntries]
  exact fun fields hmem => absurd hmem (hno fields)

/-- What cannot be looped over. -/
theorem readAll_of_not_iterable {α : Type} {read : List (Str × Value) → Except Raised α} {lib : Library}
    {keys : List String} {v : Value} (h : looped v = .error .typeError)
    (hv : ¬Iterable v) : Returns (readAll read v) ↔ Listed lib keys v := by
  refine ⟨fun hr => ?_, fun hl => absurd hl.iterable hv⟩
  rw [readAll, h] at hr
  exact absurd hr (not_returns_error _)

theorem returns_readAll {α : Type} {read : List (Str × Value) → Except Raised α} {lib : Library}
    {keys : List String} (hread : ∀ fields, Returns (read fields) ↔ SmallAt lib fields keys) (v : Value) :
    Returns (readAll read v) ↔ Listed lib keys v := by
  have hnil : ∀ fields, Value.dict fields ∉ ([] : List Value) := fun _ => List.not_mem_nil
  cases v with
  | null => exact readAll_of_no_entries rfl hnil trivial (by simp)
  | bool b =>
    cases b
    · exact readAll_of_no_entries rfl hnil rfl (by simp)
    · exact readAll_of_not_iterable rfl (by simp [Iterable])
  | int n =>
    by_cases hn : n = 0
    · exact readAll_of_no_entries (by simp [looped, Value.truthy, hn]) hnil hn (by simp)
    · exact readAll_of_not_iterable (by simp [looped, Value.truthy, hn, Value.iter]) hn
  | float x =>
    by_cases hx : x = .fin 0
    · exact readAll_of_no_entries (by simp [looped, Value.truthy, hx]) hnil hx (by simp)
    · exact readAll_of_not_iterable (by simp [looped, Value.truthy, hx, Value.iter]) hx
  | str s =>
    by_cases hs : s = []
    · exact readAll_of_no_entries (by simp [looped, Value.truthy, hs]) hnil trivial (by simp)
    · have hchars : looped (.str s) = .ok (s.map fun c => .str [c]) := by
        simp [looped, Value.truthy, hs, Value.iter]
      exact readAll_of_no_entries hchars (fun _ => not_dict_mem_map) trivial (by simp)
  | arr items =>
    have hitems : looped (.arr items) = .ok items := by
      cases items <;> rfl
    rw [readAll_eq hitems, returns_readEntries]
    constructor
    · intro h
      refine ⟨trivial, fun es hes fields hmem => (hread fields).1 (h fields ?_)⟩
      rwa [Value.arr.inj hes]
    · exact fun h fields hmem => (hread fields).2 (h.small items rfl fields hmem)
  | dict fields =>
    by_cases hf : fields = []
    · exact readAll_of_no_entries (by simp [looped, Value.truthy, hf]) hnil trivial (by simp)
    · have hkeys : looped (.dict fields) = .ok (fields.map fun f => .str f.1) := by
        simp [looped, Value.truthy, hf, Value.iter]
      exact readAll_of_no_entries hkeys (fun _ => not_dict_mem_map) trivial (by simp)

theorem returns_readReport (fields : List (Str × Value)) :
    Returns (readReport r fields) ↔ Readable r.toLibrary fields := by
  have hhours := returns_readAll (returns_readHour r) (field fields "hours")
  have hdays := returns_readAll (returns_readDay r) (field fields "days")
  have hall : Returns (readReport r fields) ↔ SmallAt r.toLibrary fields reportKeys ∧
      Returns (readAll (readHour r) (field fields "hours")) ∧
      Returns (readAll (readDay r) (field fields "days")) := by
    simp only [readReport, returns_bind, returns_ok, and_true, exists_and_right, number_isOk,
      SmallAt, reportKeys, List.forall_mem_cons, List.not_mem_nil, false_imp_iff, implies_true, and_assoc]
    rfl
  rw [hall, hhours, hdays]
  exact ⟨fun h => ⟨h.1, h.2.1, h.2.2⟩, fun h => ⟨h.small, h.hours, h.days⟩⟩

theorem loadReport_eq_some {weather : Loaded} {report : Report M} :
    loadReport r weather = .ok (some report) ↔
      ∃ fields, weather = .value (.dict fields) ∧ isOne (field fields "version") = true ∧
        readReport r fields = .ok report := by
  cases weather with
  | refused => simp [loadReport]
  | deep => simp [loadReport]
  | value v =>
    cases v with
    | dict fields =>
      by_cases hone : isOne (field fields "version") = true
      · cases hr : readReport r fields <;>
          simp [loadReport, fromRecord, hone, hr, Except.map, Except.mapError]
      · simp [loadReport, fromRecord, hone, Except.mapError]
    | _ => simp [loadReport, fromRecord, Except.mapError]

theorem returns_loadReport {weather : Loaded} :
    Returns (loadReport r weather) ↔ weather ≠ .deep ∧
      ∀ fields, weather = .value (.dict fields) → isOne (field fields "version") = true →
        Readable r.toLibrary fields := by
  cases weather with
  | refused => simp [loadReport]
  | deep => simp [loadReport]
  | value v =>
    rw [loadReport, returns_mapError]
    cases v with
    | dict fields =>
      by_cases hone : isOne (field fields "version") = true
      · simp [fromRecord, hone, returns_map, returns_readReport]
      · simp [fromRecord, hone]
    | _ => simp [fromRecord]

/-- The moment of a report that is read. -/
theorem readReport_taken {fields : List (Str × Value)} {report : Report M}
    (h : readReport r fields = .ok report) :
    ∃ taken, number r.toLibrary (field fields "taken") = .ok taken ∧ report.taken = taken.getD 0 := by
  rw [readReport] at h
  obtain ⟨_, _, h⟩ := Act.except_bind_eq_ok.1 h
  obtain ⟨_, _, h⟩ := Act.except_bind_eq_ok.1 h
  obtain ⟨taken, htaken, h⟩ := Act.except_bind_eq_ok.1 h
  obtain ⟨_, _, h⟩ := Act.except_bind_eq_ok.1 h
  obtain ⟨_, _, h⟩ := Act.except_bind_eq_ok.1 h
  obtain ⟨_, _, h⟩ := Act.except_bind_eq_ok.1 h
  obtain ⟨_, _, h⟩ := Act.except_bind_eq_ok.1 h
  cases h
  exact ⟨taken, htaken, rfl⟩

theorem Report.fresh_iff {report : Report M} {clock : ℚ} :
    report.fresh clock = true ↔ clock - report.taken < freshFor := by
  have hpos : (0 : ℚ) < freshFor := by norm_num [freshFor]
  rw [Report.fresh, Report.age, decide_eq_true_eq, max_lt_iff, and_iff_right hpos]

/-- **A report is fetched anew in time exactly where it is not from the future.** -/
theorem Report.stale_iff {report : Report M} {clock : ℚ} :
    (∀ later, clock + freshFor ≤ later → report.fresh later = false) ↔ report.taken ≤ clock := by
  simp only [← Bool.not_eq_true, Report.fresh_iff]
  constructor
  · intro h
    have := h (clock + freshFor) le_rfl
    linarith
  · intro h later hlater
    linarith

/-- A report from the future is fresh. -/
theorem Report.fresh_of_future {report : Report M} {clock : ℚ} (h : clock < report.taken) :
    report.fresh clock = true := by
  have hpos : (0 : ℚ) < freshFor := by norm_num [freshFor]
  rw [Report.fresh_iff]
  linarith

/-! ## What is read of a place -/

/-- An integer that is not too large for a float. -/
def Fits (lib : Library) (v : Value) : Prop := ∀ n, v = .int n → (lib.ofInt n).isSome

theorem returns_placeNumber (lib : Library) (v : Value) :
    (∃ x, placeNumber lib v = .ok x) ↔ Fits lib v := by
  unfold placeNumber Fits
  cases v with
  | int n => cases h : lib.ofInt n <;> simp [float, h]
  | str s => cases h : lib.ofText s <;> simp [float, h]
  | _ => simp [float]

theorem readPlace_eq_some {lib : Library} {clock : ℚ} {fields : List (Str × Value)} {place : Place} :
    readPlace lib clock fields = .ok (some place) ↔ ∃ lat lon taken,
      placeNumber lib (field fields "latitude") = .ok (some lat) ∧
      placeNumber lib (field fields "longitude") = .ok (some lon) ∧
      placeNumber lib (field fields "taken") = .ok taken ∧
      Place.make clock lat lon ((field fields "name").textOr lib) (taken.getD (.fin 0)) = place := by
  constructor
  · intro h
    obtain ⟨lat, hlat, h⟩ := Act.except_bind_eq_ok.1 h
    obtain ⟨lon, hlon, h⟩ := Act.except_bind_eq_ok.1 h
    cases lat with
    | none => cases h
    | some lat =>
      cases lon with
      | none => cases h
      | some lon =>
        obtain ⟨taken, htaken, h⟩ := Act.except_bind_eq_ok.1 h
        exact ⟨lat, lon, taken, hlat, hlon, htaken, Option.some.inj (Except.ok.inj h)⟩
  · rintro ⟨lat, lon, taken, hlat, hlon, htaken, rfl⟩
    simp only [readPlace, hlat, hlon, htaken, bind, Except.bind]

theorem returns_readPlace {lib : Library} {clock : ℚ} {fields : List (Str × Value)} :
    Returns (readPlace lib clock fields) ↔
      Fits lib (field fields "latitude") ∧ Fits lib (field fields "longitude") ∧
      ∀ lat lon, placeNumber lib (field fields "latitude") = .ok (some lat) →
        placeNumber lib (field fields "longitude") = .ok (some lon) → Fits lib (field fields "taken") := by
  rw [← returns_placeNumber, ← returns_placeNumber, ← returns_placeNumber, readPlace, returns_bind]
  constructor
  · rintro ⟨lat, hlat, h⟩
    obtain ⟨lon, hlon, h⟩ := returns_bind.1 h
    refine ⟨⟨lat, hlat⟩, ⟨lon, hlon⟩, fun x y hx hy => ?_⟩
    cases hlat.symm.trans hx
    cases hlon.symm.trans hy
    obtain ⟨taken, htaken, -⟩ := returns_bind.1 h
    exact ⟨taken, htaken⟩
  · rintro ⟨⟨lat, hlat⟩, ⟨lon, hlon⟩, h⟩
    refine ⟨lat, hlat, returns_bind.2 ⟨lon, hlon, ?_⟩⟩
    cases lat with
    | none => exact returns_ok none
    | some lat =>
      cases lon with
      | none => exact returns_ok none
      | some lon =>
        obtain ⟨taken, htaken⟩ := h lat lon hlat hlon
        exact returns_bind.2 ⟨taken, htaken, returns_ok _⟩

theorem loadPlace_eq_some {lib : Library} {clock : ℚ} {cache : Loaded} {place : Place} :
    loadPlace lib clock cache = .ok (some place) ↔
      ∃ fields, cache = .value (.dict fields) ∧ isOne (field fields "version") = true ∧
        readPlace lib clock fields = .ok (some place) := by
  cases cache with
  | refused => simp [loadPlace]
  | deep => simp [loadPlace]
  | value v =>
    cases v with
    | dict fields =>
      by_cases hone : isOne (field fields "version") = true
      · cases hr : readPlace lib clock fields <;> simp [loadPlace, hone, hr, Except.mapError]
      · simp [loadPlace, hone]
    | _ => simp [loadPlace]

theorem returns_loadPlace {lib : Library} {clock : ℚ} {cache : Loaded} :
    Returns (loadPlace lib clock cache) ↔ cache ≠ .deep ∧
      ∀ fields, cache = .value (.dict fields) → isOne (field fields "version") = true →
        Returns (readPlace lib clock fields) := by
  cases cache with
  | refused => simp [loadPlace]
  | deep => simp [loadPlace]
  | value v =>
    cases v with
    | dict fields =>
      by_cases hone : isOne (field fields "version") = true
      · simp [loadPlace, hone, returns_mapError]
      · simp [loadPlace, hone]
    | _ => simp [loadPlace]

/-! ## How old a place is -/

/-- A moment later than the clock. -/
def Later (clock : ℚ) : PyFloat → Prop
  | .fin q => clock < q
  | .inf negative => negative = false
  | .nan => False

/-- A moment that is one and is not later than the clock. -/
def Past (clock : ℚ) : PyFloat → Prop
  | .fin q => q ≠ 0 ∧ q ≤ clock
  | .inf negative => negative = true
  | .nan => False

theorem placeFor_pos : (0 : ℚ) < placeFor := by norm_num [placeFor]

/-- A place that was taken in this moment is current. -/
theorem current_zero : current (.fin 0) = true := decide_eq_true placeFor_pos

theorem fresh_make (later : ℚ) (lat lon : PyFloat) (name : Str) (taken : PyFloat) :
    (Place.make later lat lon name taken).fresh later = false ↔ Past (later - placeFor) taken := by
  cases taken with
  | nan =>
    have hfresh : (Place.make later lat lon name .nan).fresh later = true := current_zero
    rw [hfresh]
    exact ⟨(fun h => by cases h), fun h => h.elim⟩
  | inf negative =>
    cases negative with
    | false =>
      have hfresh : (Place.make later lat lon name (.inf false)).fresh later = true := current_zero
      rw [hfresh]
      exact ⟨(fun h => by cases h), fun h => by cases h⟩
    | true => exact ⟨fun _ => rfl, fun _ => rfl⟩
  | fin q =>
    by_cases hq : q = 0
    · subst hq
      have hage : (Place.make later lat lon name (.fin 0)).age later = .fin 0 := by
        simp [Place.make, Place.age, since, atLeastZero]
      rw [Place.fresh, hage, current_zero]
      exact ⟨(fun h => by cases h), fun h => absurd rfl h.1⟩
    · have hage : (Place.make later lat lon name (.fin q)).age later = .fin (max 0 (later - q)) := by
        simp [Place.make, Place.age, since, atLeastZero, hq]
      rw [Place.fresh, hage, current, decide_eq_false_iff_not, max_lt_iff, not_and, Past, and_iff_right hq]
      constructor
      · intro h
        linarith [not_lt.1 (h placeFor_pos)]
      · intro h _
        linarith

/-- What was past stays past. -/
theorem Past.mono {clock later : ℚ} {taken : PyFloat} (h : Past clock taken) (hle : clock ≤ later) :
    Past later taken := by
  cases taken with
  | nan => exact h
  | inf negative => exact h
  | fin q => exact ⟨h.1, h.2.trans hle⟩

/-- **A place is looked up anew in time exactly where its moment is past.** -/
theorem stale_iff (clock : ℚ) (lat lon : PyFloat) (name : Str) (taken : PyFloat) :
    (∀ later, clock + placeFor ≤ later → (Place.make later lat lon name taken).fresh later = false) ↔
      Past clock taken := by
  constructor
  · intro h
    have hlast := (fresh_make _ lat lon name taken).1 (h (clock + placeFor) le_rfl)
    rwa [add_sub_cancel_right] at hlast
  · intro h later hlater
    exact (fresh_make later lat lon name taken).2 (h.mono (le_sub_iff_add_le.2 hlater))

/-- A moment that is past is not later than the clock. -/
theorem Past.not_later {clock : ℚ} {taken : PyFloat} (h : Past clock taken) : ¬Later clock taken := by
  cases taken with
  | nan => exact h.elim
  | inf negative =>
    cases h
    exact fun hlater => by cases hlater
  | fin q => exact not_lt.2 h.2

/-- The service is asked exactly where the place of the cache is not current. -/
theorem asked_iff {lib : Library} {clock : ℚ} {now : Option ℚ} {cache : Loaded} :
    (∀ answer found, locate lib clock now cache answer = .ok found → found.asked = true) ↔
      ∀ place, loadPlace lib clock cache = .ok (some place) → kept clock now (some place) = false := by
  constructor
  · intro h place hplace
    by_contra hkept
    have hlocate : locate lib clock now cache none = .ok ⟨some place, false, none⟩ := by
      simp [locate, hplace, hkept, bind, Except.bind]
    have hasked := h none _ hlocate
    cases hasked
  · intro h answer found hfound
    obtain ⟨place, hplace, hfound⟩ := Act.except_bind_eq_ok.1 hfound
    have hkept : kept clock now place = false := by
      cases place with
      | none => rfl
      | some place => exact h place hplace
    rw [hkept, if_neg Bool.false_ne_true] at hfound
    split at hfound <;> cases hfound <;> rfl

/-- Nor is a place with a past moment current where the clock is given. -/
theorem not_current_of_past {clock later : ℚ} {taken : PyFloat} (h : Past clock taken)
    (hle : clock + placeFor ≤ later) : current (since later taken) = false := by
  cases taken with
  | nan => exact h.elim
  | inf negative =>
    cases h
    rfl
  | fin q =>
    have := h.2
    rw [since, current, decide_eq_false_iff_not]
    linarith

/-! ## When the caches are trusted -/

/-- What is wanted of the settings and the caches at a moment: they are read; the settings are allowed
and the place is on the globe; and an answer from the future is not taken for a fresh one, so that it is
asked for anew in time. -/
structure Trusted (h : Greeter.Settings.Host) (record : Option Str) (weather place : Loaded) (clock : ℚ) :
    Prop where
  settings : ∃ kept, Greeter.Settings.read h record = .ok kept ∧
    ∀ k, Greeter.Settings.Allowed k (kept k)
  report_read : Returns (loadReport r weather)
  report_future : ∀ report, loadReport r weather = .ok (some report) → clock < report.taken →
    report.fresh clock = false
  report_refetched : ∀ report, loadReport r weather = .ok (some report) →
    ∀ later, clock + freshFor ≤ later → report.fresh later = false
  place_read : ∀ now, Returns (loadPlace r.toLibrary now place)
  in_range : ∀ now p, loadPlace r.toLibrary now place = .ok (some p) →
    onGlobe p.latitude p.longitude = true
  place_future : ∀ p, loadPlace r.toLibrary clock place = .ok (some p) → Later clock p.taken →
    p.fresh clock = false
  place_refetched : ∀ later, clock + placeFor ≤ later → ∀ now, now = none ∨ now = some later →
    ∀ answer found, locate r.toLibrary later now place answer = .ok found → found.asked = true

/-- What has to be so for it: the interval is no number without an end; the forecast can be read and is
not from the future; and the place has numbers on the globe and a moment that is past, or is none. -/
structure Sound (h : Greeter.Settings.Host) (record : Option Str) (weather place : Loaded) (clock : ℚ) :
    Prop where
  interval : ∀ text value, record = some text →
    Greeter.Settings.given h text .photoInterval = some value →
    ∀ negative, h.float value ≠ some (.inf negative)
  report_shallow : weather ≠ .deep
  report : ∀ fields, weather = .value (.dict fields) → isOne (field fields "version") = true →
    Readable r.toLibrary fields ∧
    ∀ taken, number r.toLibrary (field fields "taken") = .ok taken → taken.getD 0 ≤ clock
  place_shallow : place ≠ .deep
  place : ∀ fields, place = .value (.dict fields) → isOne (field fields "version") = true →
    Fits r.toLibrary (field fields "latitude") ∧ Fits r.toLibrary (field fields "longitude") ∧
    ∀ lat lon, placeNumber r.toLibrary (field fields "latitude") = .ok (some lat) →
      placeNumber r.toLibrary (field fields "longitude") = .ok (some lon) →
      onGlobe lat lon = true ∧
      ∃ taken, placeNumber r.toLibrary (field fields "taken") = .ok (some taken) ∧ Past clock taken

section Trust

variable {r} {h : Greeter.Settings.Host} {record : Option Str} {weather place : Loaded} {clock : ℚ}

theorem Sound.settings (hs : Sound r h record weather place clock) :
    ∃ kept, Greeter.Settings.read h record = .ok kept ∧ ∀ k, Greeter.Settings.Allowed k (kept k) := by
  obtain ⟨kept, hkept⟩ := (Greeter.Settings.read_returns_iff h record).2 hs.interval
  exact ⟨kept, hkept, Greeter.Settings.read_allowed hkept⟩

theorem Sound.taken_le (hs : Sound r h record weather place clock) {report : Report M}
    (hr : loadReport r weather = .ok (some report)) : report.taken ≤ clock := by
  obtain ⟨fields, rfl, hone, hread⟩ := (loadReport_eq_some r).1 hr
  obtain ⟨taken, htaken, heq⟩ := readReport_taken r hread
  rw [heq]
  exact (hs.report fields rfl hone).2 taken htaken

/-- What is read of a place that is sound. -/
theorem Sound.loaded (hs : Sound r h record weather place clock) {now : ℚ} {p : Place}
    (hp : loadPlace r.toLibrary now place = .ok (some p)) :
    ∃ lat lon name taken, p = Place.make now lat lon name taken ∧ onGlobe lat lon = true ∧
      Past clock taken := by
  obtain ⟨fields, rfl, hone, hread⟩ := loadPlace_eq_some.1 hp
  obtain ⟨lat, lon, taken, hlat, hlon, htaken, rfl⟩ := readPlace_eq_some.1 hread
  obtain ⟨hglobe, taken', htaken', hpast⟩ := (hs.place fields rfl hone).2.2 lat lon hlat hlon
  cases htaken.symm.trans htaken'
  exact ⟨lat, lon, _, taken', rfl, hglobe, hpast⟩

theorem Past.make_taken {now : ℚ} {lat lon : PyFloat} {name : Str} {taken : PyFloat}
    (hp : Past clock taken) : (Place.make now lat lon name taken).taken = taken := by
  refine if_neg ?_
  rintro rfl
  exact hp.1 rfl

theorem trusted_of_sound (hs : Sound r h record weather place clock) :
    Trusted r h record weather place clock := by
  refine ⟨hs.settings, ?_, ?_, ?_, ?_, ?_, ?_, ?_⟩
  · exact (returns_loadReport r).2 ⟨hs.report_shallow, fun f hf hone => (hs.report f hf hone).1⟩
  · exact fun report hr hlt => absurd (hs.taken_le hr) (not_le.2 hlt)
  · exact fun report hr => Report.stale_iff.2 (hs.taken_le hr)
  · intro now
    refine returns_loadPlace.2 ⟨hs.place_shallow, fun f hf hone => ?_⟩
    obtain ⟨hlat, hlon, hrest⟩ := hs.place f hf hone
    refine returns_readPlace.2 ⟨hlat, hlon, fun lat lon hx hy => ?_⟩
    obtain ⟨-, taken, htaken, -⟩ := hrest lat lon hx hy
    exact (returns_placeNumber _ _).1 ⟨_, htaken⟩
  · intro now p hp
    obtain ⟨lat, lon, name, taken, rfl, hglobe, -⟩ := hs.loaded hp
    exact hglobe
  · intro p hp hlater
    obtain ⟨lat, lon, name, taken, rfl, -, hpast⟩ := hs.loaded hp
    rw [hpast.make_taken] at hlater
    exact absurd hlater hpast.not_later
  · intro later hle now hnow
    refine asked_iff.2 fun p hp => ?_
    obtain ⟨lat, lon, name, taken, rfl, -, hpast⟩ := hs.loaded hp
    rcases hnow with rfl | rfl
    · exact (stale_iff clock lat lon name taken).2 hpast later hle
    · rw [kept, hpast.make_taken]
      exact not_current_of_past hpast hle

theorem Trusted.report_sound (ht : Trusted r h record weather place clock)
    {fields : List (Str × Value)} (hf : weather = .value (.dict fields))
    (hone : isOne (field fields "version") = true) :
    Readable r.toLibrary fields ∧
    ∀ taken, number r.toLibrary (field fields "taken") = .ok taken → taken.getD 0 ≤ clock := by
  have hreadable := ((returns_loadReport r).1 ht.report_read).2 fields hf hone
  refine ⟨hreadable, fun taken htaken => ?_⟩
  obtain ⟨report, hreport⟩ := (returns_readReport r fields).2 hreadable
  have hload := (loadReport_eq_some r).2 ⟨fields, hf, hone, hreport⟩
  obtain ⟨taken', htaken', heq⟩ := readReport_taken r hreport
  cases htaken.symm.trans htaken'
  rw [← heq]
  exact Report.stale_iff.1 (ht.report_refetched report hload)

theorem Trusted.place_sound (ht : Trusted r h record weather place clock)
    {fields : List (Str × Value)} (hf : place = .value (.dict fields))
    (hone : isOne (field fields "version") = true) {lat lon : PyFloat}
    (hlat : placeNumber r.toLibrary (field fields "latitude") = .ok (some lat))
    (hlon : placeNumber r.toLibrary (field fields "longitude") = .ok (some lon)) :
    onGlobe lat lon = true ∧
    ∃ taken, placeNumber r.toLibrary (field fields "taken") = .ok (some taken) ∧ Past clock taken := by
  have hread := returns_readPlace.1 ((returns_loadPlace.1 (ht.place_read clock)).2 fields hf hone)
  obtain ⟨taken, htaken⟩ := (returns_placeNumber _ _).2 (hread.2.2 lat lon hlat hlon)
  have hload : ∀ now, loadPlace r.toLibrary now place = .ok (some (Place.make now lat lon
      ((field fields "name").textOr r.toLibrary) (taken.getD (.fin 0)))) := fun now =>
    loadPlace_eq_some.2 ⟨fields, hf, hone, readPlace_eq_some.2 ⟨lat, lon, taken, hlat, hlon, htaken, rfl⟩⟩
  have hpast : Past clock (taken.getD (.fin 0)) := by
    refine (stale_iff clock lat lon ((field fields "name").textOr r.toLibrary) _).1 fun later hle => ?_
    exact asked_iff.1 (ht.place_refetched later hle none (Or.inl rfl)) _ (hload later)
  refine ⟨ht.in_range clock _ (hload clock), ?_⟩
  cases taken with
  | none => exact absurd rfl hpast.1
  | some taken => exact ⟨taken, htaken, hpast⟩

theorem sound_of_trusted (ht : Trusted r h record weather place clock) :
    Sound r h record weather place clock := by
  obtain ⟨kept, hkept, -⟩ := ht.settings
  refine ⟨(Greeter.Settings.read_returns_iff h record).1 ⟨kept, hkept⟩,
    ((returns_loadReport r).1 ht.report_read).1, fun f hf hone => ht.report_sound hf hone,
    (returns_loadPlace.1 (ht.place_read clock)).1, fun f hf hone => ?_⟩
  have hread := returns_readPlace.1 ((returns_loadPlace.1 (ht.place_read clock)).2 f hf hone)
  exact ⟨hread.1, hread.2.1, fun lat lon hlat hlon => ht.place_sound hf hone hlat hlon⟩

end Trust

/-- **The settings and the caches are read, and not trusted where they are from the future, exactly
where their contents are sound.** -/
theorem trusted_iff (h : Greeter.Settings.Host) (record : Option Str) (weather place : Loaded)
    (clock : ℚ) : Trusted r h record weather place clock ↔ Sound r h record weather place clock :=
  ⟨sound_of_trusted, trusted_of_sound⟩

/-- A host on which `inf` is a float. -/
def plainHost : Greeter.Settings.Host where
  lower s := s.map Char.toLower
  lower_ascii _ _ := rfl
  float s :=
    if s = "inf".toList then some (.inf false) else if s = "120".toList then some (.fin 120) else none
  float_default := rfl
  timezone := none

/-- A reader of small integers. -/
def plainReader : Reader Unit where
  ofInt n := if n.natAbs / 2 ^ 256 / 2 ^ 256 / 2 ^ 256 / 2 ^ 256 = 0 then some n else none
  ofText _ := none
  print _ := []
  moment _ := none

/-- A cache of the first version. -/
def cacheOf (fields : List (Str × Value)) : Loaded :=
  .value (.dict (("version".toList, .int 1) :: fields))

/-- An interval without an end, hours that are no list, a forecast from the future, a place that is not
on the globe, and one whose latitude is too large for a float. -/
theorem caches_mistrusted :
    ¬Trusted plainReader plainHost (some "photo_interval=inf".toList) .refused .refused 1000 ∧
    ¬Trusted plainReader plainHost none (cacheOf [("hours".toList, .bool true)]) .refused 1000 ∧
    ¬Trusted plainReader plainHost none (cacheOf [("taken".toList, .int 2000)]) .refused 1000 ∧
    ¬Trusted plainReader plainHost none .refused
      (cacheOf [("latitude".toList, .int 500), ("longitude".toList, .int 0)]) 1000 ∧
    ¬Trusted plainReader plainHost none .refused
      (cacheOf [("latitude".toList, .int (10 ^ 200 * 10 ^ 200))]) 1000 := by
  refine ⟨fun ht => ?_, fun ht => ?_, fun ht => ?_, fun ht => ?_, fun ht => ?_⟩
  · exact (sound_of_trusted ht).interval _ "inf".toList rfl (by decide) false rfl
  · have hiterable : true = false := ((sound_of_trusted ht).report _ rfl rfl).1.hours.iterable
    cases hiterable
  · have hle := ((sound_of_trusted ht).report _ rfl rfl).2 (some 2000) rfl
    norm_num at hle
  · have hglobe := (((sound_of_trusted ht).place _ rfl rfl).2.2 (.fin 500) (.fin 0) rfl rfl).1
    exact absurd hglobe (by decide)
  · exact absurd (((sound_of_trusted ht).place _ rfl rfl).1 _ rfl) (by decide)

end Aurade.Forecast.Caches
