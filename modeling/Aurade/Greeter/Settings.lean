import Mathlib
import Aurade.Forecast.Values
import Aurade.Greeter.Accounts

/-!
# How the login screen behaves

The record is read line by line: a line gives a key a value, the last one counts, and what has no key or
an unknown one is passed over. Then every value is held to its own set, and a place is derived where
none was typed.

A record that is read has only allowed values (`read_allowed`), whatever it holds. It is read unless the
interval of the photos is written as a number without an end (`read_returns_iff`), which is a float but no
integer.
-/

namespace Aurade.Greeter.Settings

open Forecast (PyFloat)
open Accounts (pieces)

/-- What is done elsewhere: lower case, the texts that are floats, and the place of the timezone, its
coordinates printed. -/
structure Host where
  lower : Str → Str
  lower_ascii : ∀ s : Str, (∀ c ∈ s, c.toNat < 128) → lower s = s.map Char.toLower
  float : Str → Option PyFloat
  float_default : float "120".toList = some (.fin 120)
  timezone : Option (Str × Str × Str)

/-- The keys of a record. -/
inductive Key
  | photos
  | photoInterval
  | photoCard
  | weather
  | weatherPlace
  | weatherLatitude
  | weatherLongitude
  | weatherUnits
  | weatherProvider
  | alerts
  | location
  | locationFrom
  | greeting
  deriving DecidableEq

namespace Key

def all : List Key :=
  [photos, photoInterval, photoCard, weather, weatherPlace, weatherLatitude, weatherLongitude,
    weatherUnits, weatherProvider, alerts, location, locationFrom, greeting]

/-- A key as it is written. -/
def name : Key → Str
  | photos => "photos".toList
  | photoInterval => "photo_interval".toList
  | photoCard => "photo_card".toList
  | weather => "weather".toList
  | weatherPlace => "weather_place".toList
  | weatherLatitude => "weather_latitude".toList
  | weatherLongitude => "weather_longitude".toList
  | weatherUnits => "weather_units".toList
  | weatherProvider => "weather_provider".toList
  | alerts => "alerts".toList
  | location => "location".toList
  | locationFrom => "location_from".toList
  | greeting => "greeting".toList

/-- The key of a name. -/
def ofName (name : Str) : Option Key := all.find? fun k => k.name = name

end Key

/-- A record. -/
abbrev Record := Key → Str

def onWord : Str := "on".toList

def offWord : Str := "off".toList

/-- `DEFAULTS`. -/
def defaults : Record
  | .photos => "rotate".toList
  | .photoInterval => "120".toList
  | .photoCard => onWord
  | .weather => offWord
  | .weatherPlace => []
  | .weatherLatitude => []
  | .weatherLongitude => []
  | .weatherUnits => "c".toList
  | .weatherProvider => "auto".toList
  | .alerts => onWord
  | .location => onWord
  | .locationFrom => []
  | .greeting => "hour".toList

/-! ## The lines -/

/-- `_clean`. -/
def clean (value : Str) : Str :=
  let value := Str.strip value
  let bare :=
    if 2 ≤ value.length ∧ value.head? = value.getLast? ∧
        (value.head? = some '"' ∨ value.head? = some '\'') then value.tail.dropLast
    else value
  Str.strip bare

/-- What a line says: a key and its value. -/
def entryOf (h : Host) (line : Str) : Option (Key × Str) :=
  let line := Str.strip line
  if line = [] ∨ line.head? = some '#' then none
  else
    match Str.splitOnce '=' line with
    | none => none
    | some (key, value) => (Key.ofName (h.lower (Str.strip key))).map fun k => (k, clean value)

/-- One turn of the loop. -/
def readLine (h : Host) (record : Record) (line : Str) : Record :=
  match entryOf h line with
  | some (k, value) => Function.update record k value
  | none => record

/-- The loop of `read`. -/
def collect (h : Host) (text : Str) : Record := (pieces text).foldl (readLine h) defaults

/-- What the last line for a key says. -/
def given (h : Host) (text : Str) (k : Key) : Option Str :=
  ((pieces text).filterMap (entryOf h)).reverse.lookup k

theorem foldl_readLine (h : Host) (lines : List Str) (record : Record) (k : Key) :
    lines.foldl (readLine h) record k =
      ((lines.filterMap (entryOf h)).reverse.lookup k).getD (record k) := by
  induction lines using List.reverseRecOn with
  | nil => rfl
  | append_singleton lines line ih =>
    rw [List.foldl_append, List.foldl_cons, List.foldl_nil, List.filterMap_append, List.reverse_append]
    cases he : entryOf h line with
    | none => simp [readLine, he, ih]
    | some e =>
      obtain ⟨k', value⟩ := e
      by_cases hk : k = k'
      · subst hk
        simp [readLine, he]
      · have hne : (k == k') = false := beq_eq_false_iff_ne.2 hk
        simp [readLine, he, ih, hk, List.lookup_cons, hne]

/-- The last line for a key counts. -/
theorem collect_eq (h : Host) (text : Str) (k : Key) :
    collect h text k = (given h text k).getD (defaults k) :=
  foldl_readLine h (pieces text) defaults k

/-! ## The values -/

/-- `truthy`. -/
def truthy (h : Host) (value : Str) (fallback : Bool) : Bool :=
  let word := h.lower (Str.strip value)
  if word ∈ ["on".toList, "yes".toList, "true".toList, "1".toList] then true
  else if word ∈ ["off".toList, "no".toList, "false".toList, "0".toList] then false
  else fallback

/-- A switch as it is kept. -/
def switch (b : Bool) : Str := if b then onWord else offWord

/-- `interval`. An overflow is not caught. -/
def interval (h : Host) (value : Str) : Except Forecast.Raised ℤ :=
  match h.float value with
  | none => .ok 120
  | some .nan => .ok 120
  | some (.inf _) => .error .overflowError
  | some (.fin q) => .ok (max 20 (min 86400 (Int.tdiv q.num q.den)))

/-- A value of a set, without regard to case, or the default. -/
def oneOf (h : Host) (values : List Str) (value default : Str) : Str :=
  h.lower (if h.lower value ∈ values then value else default)

/-- `_coordinates_ok`. -/
def coordinatesOk (h : Host) (record : Record) : Bool :=
  match h.float (record .weatherLatitude), h.float (record .weatherLongitude) with
  | some lat, some lon => lat.within (-90) 90 && lon.within (-180) 180
  | _, _ => false

/-- `_locatable`. -/
def locatable (h : Host) (record : Record) : Bool :=
  record .weather ≠ onWord || Str.strip (record .weatherPlace) ≠ [] || coordinatesOk h record

/-- Whether a place was typed. -/
def asked (record : Record) : Bool :=
  [Key.weatherPlace, .weatherLatitude, .weatherLongitude].any fun k => Str.strip (record k) ≠ []

/-- The first half of `_clamp`: each value is held to its set. -/
def tidy (h : Host) (record : Record) (seconds : ℤ) : Record
  | .photos =>
    if record .photos ∈ ["rotate".toList, "fixed".toList] then record .photos else defaults .photos
  | .photoInterval => (toString seconds).toList
  | .photoCard => switch (truthy h (record .photoCard) true)
  | .weather => switch (truthy h (record .weather) false)
  | .weatherUnits => oneOf h ["c".toList, "f".toList] (record .weatherUnits) (defaults .weatherUnits)
  | .greeting =>
    if record .greeting ∈ ["hour".toList, "plain".toList] then record .greeting else defaults .greeting
  | .weatherProvider =>
    oneOf h ["auto".toList, "nws".toList, "openmeteo".toList] (record .weatherProvider)
      (defaults .weatherProvider)
  | .alerts => switch (truthy h (record .alerts) true)
  | .location => switch (truthy h (record .location) true)
  | k => record k

/-- A record with the place of the timezone. -/
def derived (record : Record) (latitude longitude name : Str) : Record :=
  let record := Function.update record .weatherLatitude latitude
  let record := Function.update record .weatherLongitude longitude
  let place := if record .weatherPlace ≠ [] then record .weatherPlace else name
  let record := Function.update record .weatherPlace place
  Function.update record .locationFrom "timezone".toList

/-- Where the place is from, and one from the timezone where none was typed. -/
def placed (h : Host) (record : Record) : Record :=
  let record := Function.update record .locationFrom (if asked record then "typed".toList else [])
  if !asked record && !locatable h record then
    match h.timezone with
    | some (latitude, longitude, name) => derived record latitude longitude name
    | none => record
  else record

/-- The second half of `_clamp`: the place, and no weather without one. -/
def settle (h : Host) (record : Record) : Record :=
  let record := placed h record
  if locatable h record then record else Function.update record .weather offWord

/-- `_clamp`. -/
def clamp (h : Host) (record : Record) : Except Forecast.Raised Record := do
  let seconds ← interval h (record .photoInterval)
  .ok (settle h (tidy h record seconds))

/-- `read`, of a text, where it can be read. -/
def read (h : Host) : Option Str → Except Forecast.Raised Record
  | none => .ok defaults
  | some text => clamp h (collect h text)

/-! ## What is allowed -/

/-- The values a key may have. -/
def Allowed : Key → Str → Prop
  | .photos, v => v ∈ ["rotate".toList, "fixed".toList]
  | .photoInterval, v => ∃ n : ℤ, 20 ≤ n ∧ n ≤ 86400 ∧ v = (toString n).toList
  | .photoCard, v | .weather, v | .alerts, v | .location, v => v ∈ [onWord, offWord]
  | .weatherUnits, v => v ∈ ["c".toList, "f".toList]
  | .weatherProvider, v => v ∈ ["auto".toList, "nws".toList, "openmeteo".toList]
  | .locationFrom, v => v ∈ [[], "typed".toList, "timezone".toList]
  | .greeting, v => v ∈ ["hour".toList, "plain".toList]
  | .weatherPlace, _ | .weatherLatitude, _ | .weatherLongitude, _ => True

/-- Every default is allowed. -/
theorem defaults_allowed (k : Key) : Allowed k (defaults k) := by
  cases k
  case photoInterval => exact ⟨120, by decide, by decide, by decide⟩
  all_goals simp [Allowed, defaults]

/-- The interval is an integer unless the text is a number without an end, and then within its limits. -/
theorem interval_ok_iff (h : Host) (value : Str) :
    (∃ n, interval h value = .ok n) ↔ ∀ negative, h.float value ≠ some (.inf negative) := by
  unfold interval
  cases h.float value with
  | none => simp
  | some x => cases x <;> simp

theorem interval_bounds {h : Host} {value : Str} {n : ℤ} (hn : interval h value = .ok n) :
    20 ≤ n ∧ n ≤ 86400 := by
  unfold interval at hn
  split at hn
  case h_3 => cases hn
  all_goals
    have hn := Except.ok.inj hn
    omega

theorem switch_mem (b : Bool) : switch b ∈ [onWord, offWord] := by
  cases b <;> simp [switch]

/-- What is one of a set is in it, where the default is and is in lower case. -/
theorem oneOf_mem (h : Host) {values : List Str} {default : Str} (hmem : default ∈ values)
    (hascii : ∀ c ∈ default, c.toNat < 128) (hlower : default.map Char.toLower = default) (value : Str) :
    oneOf h values value default ∈ values := by
  unfold oneOf
  split
  · next hvalue => exact hvalue
  · rw [h.lower_ascii default hascii, hlower]
    exact hmem

theorem tidy_allowed (h : Host) (record : Record) {seconds : ℤ} (hs : 20 ≤ seconds ∧ seconds ≤ 86400)
    {k : Key} (hk : k ≠ .locationFrom) : Allowed k (tidy h record seconds k) := by
  cases k with
  | photos =>
    show (if _ then _ else _) ∈ _
    split
    · next hmem => exact hmem
    · exact defaults_allowed .photos
  | photoInterval => exact ⟨seconds, hs.1, hs.2, rfl⟩
  | photoCard => exact switch_mem _
  | weather => exact switch_mem _
  | weatherPlace => trivial
  | weatherLatitude => trivial
  | weatherLongitude => trivial
  | weatherUnits => exact oneOf_mem h (by decide) (by simp [defaults]) (by decide) _
  | weatherProvider => exact oneOf_mem h (by decide) (by simp [defaults]) (by decide) _
  | alerts => exact switch_mem _
  | location => exact switch_mem _
  | locationFrom => exact absurd rfl hk
  | greeting =>
    show (if _ then _ else _) ∈ _
    split
    · next hmem => exact hmem
    · exact defaults_allowed .greeting

/-- A value that is allowed may be put under its key. -/
theorem allowed_update {record : Record} {k₀ : Key} {value : Str} (hv : Allowed k₀ value)
    (hr : ∀ k, k ≠ k₀ → Allowed k (record k)) (k : Key) : Allowed k (Function.update record k₀ value k) := by
  by_cases heq : k = k₀
  · subst heq
    rwa [Function.update_self]
  · rw [Function.update_of_ne heq]
    exact hr k heq

theorem derived_allowed {record : Record} (hr : ∀ k, Allowed k (record k)) (latitude longitude name : Str)
    (k : Key) : Allowed k (derived record latitude longitude name k) := by
  have hzone : Allowed .locationFrom "timezone".toList :=
    List.mem_cons_of_mem _ (List.mem_cons_of_mem _ List.mem_cons_self)
  have h₁ := @allowed_update _ .weatherLatitude latitude trivial fun k _ => hr k
  have h₂ := @allowed_update _ .weatherLongitude longitude trivial fun k _ => h₁ k
  have h₃ := fun name => @allowed_update _ .weatherPlace name trivial fun k _ => h₂ k
  exact allowed_update hzone (fun k _ => h₃ _ k) k

theorem placed_allowed (h : Host) {record : Record}
    (hr : ∀ k, k ≠ .locationFrom → Allowed k (record k)) (k : Key) : Allowed k (placed h record k) := by
  have hfrom : Allowed .locationFrom (if asked record then "typed".toList else []) := by
    show (if _ then _ else _) ∈ _
    split <;> simp
  have hfirst := allowed_update hfrom hr
  rw [placed]
  generalize Function.update record _ _ = first at hfirst ⊢
  split
  · cases h.timezone with
    | none => exact hfirst k
    | some place => exact derived_allowed hfirst _ _ _ k
  · exact hfirst k

theorem settle_allowed (h : Host) {record : Record}
    (hr : ∀ k, k ≠ .locationFrom → Allowed k (record k)) (k : Key) : Allowed k (settle h record k) := by
  have hplaced := placed_allowed h hr
  have hoff : Allowed .weather offWord := List.mem_cons_of_mem _ List.mem_cons_self
  unfold settle
  split
  · exact hplaced k
  · exact allowed_update hoff (fun k _ => hplaced k) k

/-- **Every value of a record that is read is allowed.** -/
theorem read_allowed {h : Host} {text : Option Str} {record : Record} (hread : read h text = .ok record)
    (k : Key) : Allowed k (record k) := by
  cases text with
  | none =>
    cases hread
    exact defaults_allowed k
  | some text =>
    obtain ⟨seconds, hseconds, hrecord⟩ := Act.except_bind_eq_ok.1 hread
    cases hrecord
    exact settle_allowed h (fun k hk => tidy_allowed h _ (interval_bounds hseconds) hk) k

/-- **A record is read unless its last interval is a number without an end.** -/
theorem read_returns_iff (h : Host) (text : Option Str) :
    (∃ record, read h text = .ok record) ↔
      ∀ t value, text = some t → given h t .photoInterval = some value →
        ∀ negative, h.float value ≠ some (.inf negative) := by
  cases text with
  | none => exact ⟨(fun _ t value ht => by cases ht), fun _ => ⟨defaults, rfl⟩⟩
  | some text =>
    have hclamp : (∃ record, read h (some text) = .ok record) ↔
        ∃ n, interval h (collect h text .photoInterval) = .ok n := by
      constructor
      · rintro ⟨record, hrecord⟩
        obtain ⟨n, hn, -⟩ := Act.except_bind_eq_ok.1 hrecord
        exact ⟨n, hn⟩
      · rintro ⟨n, hn⟩
        exact ⟨_, Act.except_bind_eq_ok.2 ⟨n, hn, rfl⟩⟩
    rw [hclamp, interval_ok_iff, collect_eq]
    constructor
    · rintro hfloat t value ht hvalue
      cases ht
      rwa [hvalue] at hfloat
    · intro hgiven
      cases hvalue : given h text .photoInterval with
      | none =>
        intro negative hinf
        rw [Option.getD_none, defaults, h.float_default] at hinf
        cases hinf
      | some value => exact hgiven text value rfl hvalue

end Aurade.Greeter.Settings
