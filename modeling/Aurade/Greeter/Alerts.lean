import Mathlib
import Aurade.Foundations.Act
import Aurade.Foundations.Chars
import Aurade.Foundations.Compare

/-!
# Weather warnings

`shown` makes of the alerts of the feed what the greeter shows: each is parsed, those that are no
warning or are over are left out, of each event the newest message stays, and the rest is ranked.
What is over is left out before the newest is chosen. So an event that a cancellation ends comes
back with an older message, and `shown_iff` says when the result is what it should be (`Rightly`).

Any step may raise: parsing, on a feature of another shape, and every comparison of a time that has a
zone with one that has none.
-/

namespace Aurade.Greeter

/-! ## What the feed holds -/

/-- A value of JSON, as it is loaded. Of a number it is known whether it is zero, and how it prints.
-/
inductive Json
  | null
  | bool (b : Bool)
  | num (zero : Bool) (text : Str)
  | str (s : Str)
  | arr (items : List Json)
  | dict (fields : List (Str × Json))

/-- What may be raised. -/
inductive Raised
  | attributeError | typeError | keyError
  deriving DecidableEq

namespace Json

def truthy : Json → Bool
  | null => false
  | bool b => b
  | num zero _ => !zero
  | str s => s ≠ []
  | arr items => !items.isEmpty
  | dict fields => !fields.isEmpty

/-- `or`. -/
def or (j other : Json) : Json := if j.truthy then j else other

/-- `get`, of a dictionary. -/
def get (key : String) : Json → Except Raised Json
  | dict fields => .ok ((fields.lookup key.toList).getD null)
  | _ => .error .attributeError

/-- What a loop over a value goes through. -/
def iter : Json → Except Raised (List Json)
  | str s => .ok (s.map fun c => str [c])
  | arr items => .ok items
  | dict fields => .ok (fields.map fun f => str f.1)
  | _ => .error .typeError

/-- `[0]`, of a value that is not empty. -/
def first : Json → Except Raised Json
  | str s => .ok (str (s.take 1))
  | arr items => .ok (items.headD null)
  | dict _ => .error .keyError
  | _ => .error .typeError

/-- `tuple(point[:2])`. -/
def pair : Json → Except Raised (List Json)
  | str s => .ok ((s.take 2).map fun c => str [c])
  | arr items => .ok (items.take 2)
  | _ => .error .typeError

/-- `str`. A composite value prints as `repr` says. -/
def print (repr : Json → Str) : Json → Str
  | null => "None".toList
  | bool true => "True".toList
  | bool false => "False".toList
  | num _ text => text
  | str s => s
  | j => repr j

end Json

/-- A time: the microseconds from the first of January of the year 1, to which it is the time of a
zone or one by an unknown clock. A time of a zone is counted at UTC. -/
@[ext] structure Moment where
  instant : ℤ
  aware : Bool
  deriving DecidableEq

/-- `datetime.min`, at UTC. -/
def Moment.min : Moment := ⟨0, true⟩

/-- `datetime.max`, at UTC. -/
def Moment.max : Moment := ⟨3652059 * 86400 * 1000000 - 1, true⟩

/-- `<` of two times. -/
def Moment.lt (a b : Moment) : Except Raised Bool :=
  if a.aware = b.aware then .ok (a.instant < b.instant) else .error .typeError

/-- `<=` of two times. -/
def Moment.le (a b : Moment) : Except Raised Bool :=
  if a.aware = b.aware then .ok (a.instant ≤ b.instant) else .error .typeError

/-- One alert, with the fields that are looked at and shown. -/
structure Alert where
  event : Str
  category : Str
  severity : Str
  urgency : Str
  certainty : Str
  status : Str
  headline : Str
  description : Str
  instruction : Str
  response : Str
  area : Str
  sent : Option Moment
  onset : Option Moment
  expires : Option Moment
  identifier : Str
  action : Str
  broadcast : Bool
  polygon : Option (List (List Json))

/-! ## Parsing -/

/-- `_vtec_parts`: the action and the event's identity. -/
def vtecParts (vtec : Str) : Str × Str :=
  let bare := (vtec.dropWhile (· = '/')).rdropWhile (· = '/')
  let parts := (bare.splitOn '.').filter (· ≠ [])
  if parts.length < 6 then ([], [])
  else (parts.getD 1 [], ['.'].intercalate ((parts.drop 2).take 4))

section

variable (repr : Json → Str) (iso : Str → Option Moment)

/-- `_first`. -/
def firstOf (parameters : Json) (key : String) : Except Raised Str := do
  let found := (← (parameters.or (.dict [])).get key).or (.arr [])
  if found.truthy then
    let j ← found.first
    .ok (j.print repr)
  else .ok []

/-- `_moment`. `iso` is `fromisoformat`, and what it raises is caught. -/
def moment (text : Str) : Option Moment := if text = [] then none else iso text

/-- `str(properties.get(key) or "")`. -/
def textOf (properties : Json) (key : String) : Except Raised Str := do
  let j ← properties.get key
  .ok ((j.or (.str [])).print repr)

/-- The ring of a polygon. -/
def ringOf (geometry : Json) : Except Raised (Option (List (List Json))) := do
  let type ← geometry.get "type"
  if (type.or (.str [])).print repr = "Polygon".toList then
    let rings := (← geometry.get "coordinates").or (.arr [])
    if rings.truthy then
      let ring ← rings.first
      let points ← ring.iter
      let pairs ← points.mapM Json.pair
      .ok (some pairs)
    else .ok none
  else .ok none

/-- `parse`, less the motion of the storm, which nothing here looks at. Reading it raises what
`_first` does. -/
def parse (feature : Json) : Except Raised Alert := do
  let properties := (← feature.get "properties").or (.dict [])
  let parameters := (← properties.get "parameters").or (.dict [])
  let channels ← ((← parameters.get "BLOCKCHANNEL").or (.arr [])).iter
  let blocked := channels.map (Json.print repr)
  let vtec := vtecParts (← firstOf repr parameters "VTEC")
  let geometry := (← feature.get "geometry").or (.dict [])
  let polygon ← ringOf repr geometry
  let event ← textOf repr properties "event"
  let category ← textOf repr properties "category"
  let severity ← textOf repr properties "severity"
  let urgency ← textOf repr properties "urgency"
  let certainty ← textOf repr properties "certainty"
  let status ← textOf repr properties "status"
  let headline ← textOf repr properties "headline"
  let description ← textOf repr properties "description"
  let instruction ← textOf repr properties "instruction"
  let response ← textOf repr properties "response"
  let area ← textOf repr properties "areaDesc"
  let sent ← textOf repr properties "sent"
  let onset ← textOf repr properties "onset"
  let expires ← textOf repr properties "expires"
  let id ← textOf repr properties "id"
  let _ ← firstOf repr parameters "eventMotionDescription"
  .ok { event, category, severity, urgency, certainty, status, headline, description, instruction,
        response, area
        sent := moment iso sent, onset := moment iso onset, expires := moment iso expires
        identifier := if vtec.2 ≠ [] then vtec.2 else id
        action := vtec.1
        broadcast := !blocked.contains "EAS".toList
        polygon }

end

/-! ## What is shown -/

def weather : Str := "Met".toList

def shelter : List Str :=
  ["Shelter In Place Warning".toList, "Nuclear Power Plant Warning".toList]

def actual : Str := "Actual".toList

def finished : List Str := ["CAN".toList, "EXP".toList, "UPG".toList]

/-- `admitted`, of one alert. -/
def Alert.admitted (a : Alert) : Bool :=
  (a.category = weather || a.event ∈ shelter) && a.status = actual

inductive Tier
  | takeover | banner | line
  deriving DecidableEq

/-- `tier`. -/
def Alert.tier (a : Alert) : Tier :=
  if a.severity = "Extreme".toList ∧ a.urgency = "Immediate".toList then .takeover
  else if a.severity ∈ ["Extreme".toList, "Severe".toList] then .banner
  else .line

/-- `ORDER`. -/
def Tier.order : Tier → ℕ
  | .takeover => 0
  | .banner => 1
  | .line => 2

/-- `live`. -/
def live (whn : Moment) : List Alert → Except Raised (List Alert)
  | [] => .ok []
  | a :: alerts => do
    let past ← (if a.action ∈ finished then .ok true
      else match a.expires with
        | some e => e.le whn
        | none => .ok false)
    let kept ← live whn alerts
    .ok (if past then kept else a :: kept)

/-- Under which an event is known. -/
def Alert.key (a : Alert) : Str :=
  if a.identifier ≠ [] then a.identifier else a.event ++ '/' :: a.area

/-- When it was sent, where it says so. -/
def Alert.sentAt (a : Alert) : Moment := a.sent.getD Moment.min

/-- `newest`. -/
def newest : List Alert → Except Raised (List Alert) :=
  bestBy Alert.key fun a seen => seen.sentAt.le a.sentAt

/-- When it ends, where it says so. -/
def Alert.endsAt (a : Alert) : Moment := a.expires.getD Moment.max

/-- `<` of two keys of `rank`, which are compared place by place. -/
def rankLt (a b : Alert) : Except Raised Bool :=
  if a.tier.order ≠ b.tier.order then .ok (a.tier.order < b.tier.order)
  else if a.endsAt = b.endsAt then .ok (a.event < b.event)
  else a.endsAt.lt b.endsAt

/-- `rank`. -/
def rank : List Alert → Except Raised (List Alert) := sortBy rankLt

/-- `shown`. -/
def shown (repr : Json → Str) (iso : Str → Option Moment) (features : List Json) (whn : Moment) :
    Except Raised (List Alert) := do
  let alerts ← features.mapM (parse repr iso)
  let current ← live whn (alerts.filter Alert.admitted)
  let best ← newest current
  rank best

/-! ## What should be shown -/

/-- A message that ends its event, or whose time is over. A time without a zone is read at UTC. -/
def Alert.ended (whn : Moment) (a : Alert) : Bool :=
  a.action ∈ finished || a.expires.any fun e => e.instant ≤ whn.instant

/-- When it was sent, a message that does not say so first of all. -/
def Alert.sentTime (a : Alert) : ℤ := a.sentAt.instant

/-- The place of a message among those shown: the loudest first, then the one that ends soonest. -/
def Alert.rankKey (a : Alert) : ℕ ×ₗ (ℤ ×ₗ Str) :=
  toLex (a.tier.order, toLex (a.endsAt.instant, a.event))

section

variable (repr : Json → Str) (iso : Str → Option Moment) (features : List Json) (whn : Moment)

/-- The messages of the feed that are admitted, those that cannot be parsed left out. -/
def messages : List Alert :=
  (features.filterMap fun f => (parse repr iso f).toOption).filter Alert.admitted

/-- The most recently sent message of its event. -/
def Latest (a : Alert) : Prop :=
  IsLatest Alert.key Alert.sentTime (messages repr iso features) a

/-- What is shown is right: of each event the most recently sent message, unless it ends the event;
each event once, in the order of the ranks; and nothing raised. -/
def Rightly : Prop :=
  ∃ alerts, shown repr iso features whn = .ok alerts ∧
    (∀ a, a ∈ alerts ↔ Latest repr iso features a ∧ a.ended whn = false) ∧
    (alerts.map Alert.key).Nodup ∧ alerts.Pairwise fun a b => a.rankKey ≤ b.rankKey

/-- Nothing in the feed that cannot be parsed or compared, and no event that ends while an older
message of it would go on. -/
structure Plain : Prop where
  parsed : ∀ f ∈ features, ∃ a, parse repr iso f = .ok a
  /-- A time of expiry has a zone exactly when the time it is compared with has. -/
  expiries : ∀ a ∈ messages repr iso features, a.action ∉ finished →
    ∀ e, a.expires = some e → e.aware = whn.aware
  /-- The messages of an event that are not over say when they were sent all with a zone, or all
  without. -/
  sendings : Alike Alert.key (·.sentAt.aware)
    ((messages repr iso features).filter fun a => !a.ended whn)
  /-- So do those of one tier of when they end. -/
  ends : ∀ a b, Latest repr iso features a → Latest repr iso features b → a.ended whn = false →
    b.ended whn = false → a.tier = b.tier → a.endsAt.aware = b.endsAt.aware
  last : ∀ a, Latest repr iso features a → a.ended whn = true →
    ∀ b ∈ messages repr iso features, b.key = a.key → b.ended whn = true

end

/-! ## The steps -/

theorem mapM_parse_ok {f : Json → Except Raised Alert} {features : List Json}
    (h : ∀ j ∈ features, ∃ a, f j = .ok a) :
    features.mapM f = .ok (features.filterMap fun j => (f j).toOption) := by
  induction features with
  | nil => rfl
  | cons j features ih =>
    obtain ⟨hj, hrest⟩ := List.forall_mem_cons.1 h
    obtain ⟨a, ha⟩ := hj
    rw [List.mapM_cons, ha, ih hrest, List.filterMap_cons, ha]
    rfl

theorem parsed_of_mapM {f : Json → Except Raised Alert} {features : List Json} {alerts : List Alert}
    (h : features.mapM f = .ok alerts) : ∀ j ∈ features, ∃ a, f j = .ok a := by
  induction features generalizing alerts with
  | nil => exact fun j hj => absurd hj List.not_mem_nil
  | cons j features ih =>
    rw [List.mapM_cons] at h
    obtain ⟨a, ha, h⟩ := Act.except_bind_eq_ok.1 h
    obtain ⟨rest, hrest, -⟩ := Act.except_bind_eq_ok.1 h
    exact List.forall_mem_cons.2 ⟨⟨a, ha⟩, ih hrest⟩

/-- What `live` asks of one message. -/
theorem live_cons {whn : Moment} {a : Alert} {alerts : List Alert}
    (h : a.action ∉ finished → ∀ e, a.expires = some e → e.aware = whn.aware) :
    live whn (a :: alerts) =
      (live whn alerts).map fun kept => if a.ended whn then kept else a :: kept := by
  rw [live]
  by_cases hdone : a.action ∈ finished
  · have hended : a.ended whn = true := by simp only [Alert.ended, hdone, decide_true, Bool.true_or]
    simp only [hdone, hended, if_true]
    cases live whn alerts <;> rfl
  · cases hexpires : a.expires with
    | none =>
      have hended : a.ended whn = false := by
        simp only [Alert.ended, hdone, hexpires, decide_false, Option.any_none, Bool.or_false]
      simp only [hdone, hended, if_false]
      cases live whn alerts <;> rfl
    | some e =>
      have hended : a.ended whn = decide (e.instant ≤ whn.instant) := by
        simp only [Alert.ended, hdone, hexpires, decide_false, Option.any_some, Bool.false_or]
      simp only [hdone, hended, Moment.le, h hdone e hexpires, if_false, if_true]
      cases live whn alerts <;> rfl

theorem live_ok {whn : Moment} {alerts : List Alert}
    (h : ∀ a ∈ alerts, a.action ∉ finished → ∀ e, a.expires = some e → e.aware = whn.aware) :
    live whn alerts = .ok (alerts.filter fun a => !a.ended whn) := by
  induction alerts with
  | nil => rfl
  | cons a alerts ih =>
    obtain ⟨ha, hrest⟩ := List.forall_mem_cons.1 h
    rw [live_cons ha, ih hrest, List.filter_cons]
    cases a.ended whn <;> rfl

theorem expiries_of_live {whn : Moment} {alerts kept : List Alert} (h : live whn alerts = .ok kept) :
    ∀ a ∈ alerts, a.action ∉ finished → ∀ e, a.expires = some e → e.aware = whn.aware := by
  induction alerts generalizing kept with
  | nil => exact fun a ha => absurd ha List.not_mem_nil
  | cons a alerts ih =>
    rw [live] at h
    obtain ⟨past, hpast, h⟩ := Act.except_bind_eq_ok.1 h
    obtain ⟨rest, hrest, -⟩ := Act.except_bind_eq_ok.1 h
    refine List.forall_mem_cons.2 ⟨fun hdone e hexpires => ?_, ih hrest⟩
    simp only [hdone, if_false, hexpires, Moment.le] at hpast
    by_contra hne
    rw [if_neg hne] at hpast
    cases hpast

theorem Tier.order_injective : Function.Injective Tier.order := by
  intro a b h
  cases a <;> cases b <;> first | rfl | cases h

theorem comparison_rank :
    Comparison rankLt (fun a => a.tier.order) (fun a => a.endsAt.aware) Alert.rankKey where
  ok {a b} hkind := by
    rw [rankLt]
    by_cases horder : a.tier.order = b.tier.order
    · rw [if_neg (not_not.2 horder)]
      have haware : a.endsAt.aware = b.endsAt.aware := hkind horder
      by_cases hsame : a.endsAt = b.endsAt
      · rw [if_pos hsame]
        simp only [Alert.rankKey, Prod.Lex.toLex_lt_toLex, horder, hsame, lt_irrefl, false_or,
          true_and]
      · have hinstant : a.endsAt.instant ≠ b.endsAt.instant := fun h =>
          hsame (Moment.ext h haware)
        rw [if_neg hsame, Moment.lt, if_pos haware]
        simp only [Alert.rankKey, Prod.Lex.toLex_lt_toLex, horder, lt_irrefl, false_or, true_and,
          hinstant, false_and, or_false]
    · rw [if_pos horder]
      simp only [Alert.rankKey, Prod.Lex.toLex_lt_toLex, horder, false_and, or_false]
  fails {a b} horder hkind t ht := by
    have hne : a.endsAt ≠ b.endsAt := fun h => hkind (by rw [h])
    rw [rankLt, if_neg (not_not.2 horder), if_neg hne, Moment.lt, if_neg hkind] at ht
    cases ht
  mono {a b} horder := Prod.Lex.toLex_lt_toLex.2 (Or.inl horder)

theorem newest_ok {alerts : List Alert} (h : Alike Alert.key (·.sentAt.aware) alerts) :
    ∃ best, newest alerts = .ok best ∧ Selected Alert.key Alert.sentTime alerts best :=
  bestBy_ok (fun _ _ hkind => if_pos hkind.symm) h

theorem alike_of_newest {alerts best : List Alert} (h : newest alerts = .ok best) :
    Alike Alert.key (·.sentAt.aware) alerts := by
  refine of_bestBy Alert.sentTime (fun a b hkind => if_pos hkind.symm) (fun a b hkind t ht => ?_) h
  have hfails : b.sentAt.le a.sentAt = .error .typeError := if_neg (Ne.symm hkind)
  cases hfails.symm.trans ht

/-! ## The whole -/

section

variable {repr : Json → Str} {iso : Str → Option Moment} {features : List Json} {whn : Moment}

theorem shown_eq (h : ∀ f ∈ features, ∃ a, parse repr iso f = .ok a) :
    shown repr iso features whn =
      (do
        let current ← live whn (messages repr iso features)
        let best ← newest current
        rank best : Except Raised (List Alert)) := by
  rw [shown, mapM_parse_ok h]
  rfl

/-- Where the messages of an event that is ended are all over, the latest of those that are not is
the latest. -/
theorem isLatest_current (hlast : ∀ a, Latest repr iso features a → a.ended whn = true →
    ∀ b ∈ messages repr iso features, b.key = a.key → b.ended whn = true) (a : Alert) :
    IsLatest Alert.key Alert.sentTime
        ((messages repr iso features).filter fun a => !a.ended whn) a ↔
      Latest repr iso features a ∧ a.ended whn = false := by
  constructor
  · intro ha
    obtain ⟨hmem, hnot⟩ := List.mem_filter.1 ha.mem
    rw [Bool.not_eq_true'] at hnot
    obtain ⟨z, hz, hza⟩ := exists_isLatest Alert.key Alert.sentTime hmem
    have hzlive : z.ended whn = false := by
      by_contra hended
      rw [Bool.not_eq_false] at hended
      have := hlast z hz hended a hmem hza.symm
      rw [hnot] at this
      cases this
    have hz' := hz.filter (p := fun a => !a.ended whn) (by rw [hzlive]; rfl)
    have haz : a = z := ha.unique hz' hza.symm
    exact ⟨haz ▸ hz, hnot⟩
  · rintro ⟨ha, hnot⟩
    exact IsLatest.filter ha (by rw [hnot]; rfl)

theorem rightly_of_plain (h : Plain repr iso features whn) : Rightly repr iso features whn := by
  obtain ⟨best, hbest, hchosen⟩ := newest_ok h.sendings
  have hmem : ∀ a, a ∈ best ↔ Latest repr iso features a ∧ a.ended whn = false := fun a =>
    (hchosen.mem_iff a).trans (isLatest_current h.last a)
  have halike : Alike (fun a => a.tier.order) (fun a => a.endsAt.aware) best := by
    intro a ha b hb htier
    obtain ⟨ha, ha'⟩ := (hmem a).1 ha
    obtain ⟨hb, hb'⟩ := (hmem b).1 hb
    exact h.ends a b ha hb ha' hb' (Tier.order_injective htier)
  obtain ⟨alerts, hrank⟩ := comparison_rank.sortBy_ok halike
  obtain ⟨hperm, hsorted, -⟩ := comparison_rank.of_sortBy hrank
  refine ⟨alerts, ?_, fun a => hperm.mem_iff.trans (hmem a), ?_, hsorted⟩
  · rw [shown_eq h.parsed, live_ok h.expiries]
    show (newest _ >>= rank) = _
    rw [hbest]
    exact hrank
  · exact (hperm.map Alert.key).nodup_iff.2 hchosen.nodup

theorem plain_of_rightly (h : Rightly repr iso features whn) : Plain repr iso features whn := by
  obtain ⟨alerts, hshown, hmem, -, -⟩ := h
  have hparsed : ∀ f ∈ features, ∃ a, parse repr iso f = .ok a := by
    obtain ⟨all, hall, -⟩ := Act.except_bind_eq_ok.1 hshown
    exact parsed_of_mapM hall
  rw [shown_eq hparsed] at hshown
  obtain ⟨current, hlive, hshown⟩ := Act.except_bind_eq_ok.1 hshown
  obtain ⟨best, hnewest, hrank⟩ := Act.except_bind_eq_ok.1 hshown
  have hexpiries := expiries_of_live hlive
  obtain rfl := Except.ok.inj ((live_ok hexpiries).symm.trans hlive)
  have hsendings := alike_of_newest hnewest
  obtain ⟨best', hbest', hchosen⟩ := newest_ok hsendings
  obtain rfl := Except.ok.inj (hnewest.symm.trans hbest')
  obtain ⟨hperm, -, halike⟩ := comparison_rank.of_sortBy hrank
  have hlast : ∀ a, Latest repr iso features a → a.ended whn = true →
      ∀ b ∈ messages repr iso features, b.key = a.key → b.ended whn = true := by
    intro a ha hended b hb hba
    by_contra hnot
    have hb' : b ∈ (messages repr iso features).filter fun a => !a.ended whn :=
      List.mem_filter.2 ⟨hb, by simpa using hnot⟩
    obtain ⟨c, hc, hcb⟩ := exists_isLatest Alert.key Alert.sentTime hb'
    obtain ⟨hlatest, hlive⟩ := (hmem c).1 (hperm.mem_iff.2 ((hchosen.mem_iff c).2 hc))
    have hca : c = a := hlatest.unique ha (hcb.trans hba)
    rw [hca, hended] at hlive
    cases hlive
  refine ⟨hparsed, hexpiries, hsendings, fun a b ha hb ha' hb' htier => ?_, hlast⟩
  have hin : ∀ c, Latest repr iso features c → c.ended whn = false → c ∈ best := fun c hc hc' =>
    (hchosen.mem_iff c).2 ((isLatest_current hlast c).2 ⟨hc, hc'⟩)
  exact halike a (hin a ha ha') b (hin b hb hb') (congrArg Tier.order htier)

end

/-- **Where what is shown is right**: in the feeds that are plain, and in no others. -/
theorem shown_iff (repr : Json → Str) (iso : Str → Option Moment) (features : List Json)
    (whn : Moment) : Rightly repr iso features whn ↔ Plain repr iso features whn :=
  ⟨plain_of_rightly, rightly_of_plain⟩

/-! ## Feeds that are not plain -/

/-- `fromisoformat`, of the times of the feeds below. -/
def sampleIso (text : Str) : Option Moment :=
  ([("2026-08-28T00:45:00+00:00", Moment.mk 63923474700000000 true),
    ("2026-08-28T00:50:00+00:00", ⟨63923475000000000, true⟩),
    ("2026-08-28T01:30:00+00:00", ⟨63923477400000000, true⟩),
    ("2026-08-28T01:30:00", ⟨63923477400000000, false⟩)].find? fun p => p.1.toList = text).map
      Prod.snd

/-- One in the morning. -/
def sampleNow : Moment := ⟨63923475600000000, true⟩

/-- A message about one tornado. -/
def sampleFeature (action sent expires : String) : Json :=
  .dict [("properties".toList, .dict
    [("event".toList, .str "Tornado Warning".toList), ("category".toList, .str "Met".toList),
      ("status".toList, .str "Actual".toList), ("sent".toList, .str sent.toList),
      ("expires".toList, .str expires.toList),
      ("parameters".toList, .dict [("VTEC".toList, .arr
        [.str ("/O.".toList ++ action.toList ++ ".KCTP.TO.W.0030.x/".toList)])])])]

/-- A message that ends an event brings back the one before it. -/
theorem not_rightly_of_pair {repr : Json → Str} {iso : Str → Option Moment} {features : List Json}
    {whn : Moment} {a b : Alert} (h : messages repr iso features = [a, b]) (hkey : a.key = b.key)
    (htime : a.sentTime ≤ b.sentTime) (ha : a.ended whn = false) (hb : b.ended whn = true) :
    ¬ Rightly repr iso features whn := by
  intro hright
  have hlatest : Latest repr iso features b := by
    refine ⟨[a], [], h, fun c hc _ => ?_, fun c hc => absurd hc List.not_mem_nil⟩
    rwa [List.mem_singleton.1 hc]
  have hended := (plain_of_rightly hright).last b hlatest hb a (by rw [h]; simp) hkey
  rw [ha] at hended
  cases hended

/-- The tornado is over, but the message that said it was coming is still shown; a feature of another
shape raises; and so does a time of expiry without a zone. -/
theorem shown_wrongly :
    ¬ Rightly (fun _ => []) sampleIso
        [sampleFeature "NEW" "2026-08-28T00:45:00+00:00" "2026-08-28T01:30:00+00:00",
          sampleFeature "CAN" "2026-08-28T00:50:00+00:00" "2026-08-28T01:30:00+00:00"] sampleNow ∧
      ¬ Rightly (fun _ => []) sampleIso [.dict [("properties".toList, .str ['x'])]] sampleNow ∧
      ¬ Rightly (fun _ => []) sampleIso
        [sampleFeature "NEW" "2026-08-28T00:45:00+00:00" "2026-08-28T01:30:00"] sampleNow := by
  refine ⟨fun h => ?_, fun h => ?_, fun h => ?_⟩
  · exact not_rightly_of_pair rfl (by decide) (by decide) (by decide)
      (by decide) h
  · obtain ⟨a, ha⟩ := (plain_of_rightly h).parsed _ List.mem_cons_self
    cases ha
  · obtain ⟨alerts, hshown, -⟩ := h
    cases hshown

end Aurade.Greeter
