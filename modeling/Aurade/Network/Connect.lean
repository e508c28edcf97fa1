import Aurade.Foundations.Chars
import Aurade.Network.Monitor

/-!
# A Connect and what it leaves

`connect_service` with the settings it sends and what each call may raise. The state is set before
anything is checked. The body is tried, and what it raises leaves by one of three doors: an error of
D-Bus is raised again, another exception is set on the service under its first line, and one without
a text is an error of its own, since it has no first line.

So a Connect that fails is left as connecting wherever the failure is not set on the service
(`leavesConnecting_iff`); and what it sends over a saved profile is a new one, which keeps of the old
what the two have in common (`sameBut_iff`).
-/

namespace Aurade.Network.Connect

/-! ## The settings -/

/-- A value in a profile. -/
inductive Value
  | string (s : Bytes)
  | boolean (b : Bool)
  | byteArray (b : Bytes)
  | uint32 (n : ℕ)
  /-- A value that the adapter writes nowhere. -/
  | other (raw : Bytes)
  deriving DecidableEq

/-- The settings of a connection: sections, and what each sets. -/
abbrev SettingsDict := List (String × List (String × Value))

/-- A profile as NetworkManager keeps it. -/
abbrev Profile := String → String → Option Value

def SettingsDict.get (d : SettingsDict) : Profile := fun sect key => (d.lookup sect).bind fun s => s.lookup key

def SECURITY_NONE : String := "none"
def SECURITY_WEP : String := "wep"
def SECURITY_WPA : String := "wpa"
def SECURITY_WPA2 : String := "wpa2"
def SECURITY_WPA_WPA2 : String := "wpa+wpa2"
def SECURITY_WPA3 : String := "wpa3"
def SECURITY_WPA2_WPA3 : String := "wpa2+wpa3"

/-- `key_management`. -/
def keyManagement (security : String) : String :=
  if security = SECURITY_WPA3 then "sae"
  else if security ∈ [SECURITY_WPA, SECURITY_WPA2, SECURITY_WPA_WPA2, SECURITY_WPA2_WPA3] then "wpa-psk"
  else ""

/-- `_ssid_text`. -/
def ssidText (ssid : Bytes) : Bytes := if ssid = [] then text "Hidden network" else Utf8.lossy ssid

/-- The security section of a wireless profile, where there is one. -/
def securitySection (security : String) (passphrase : Option String) : SettingsDict :=
  match passphrase.filter (· ≠ "") with
  | none => []
  | some p =>
    if keyManagement security ≠ "" then
      [("802-11-wireless-security",
        [("key-mgmt", .string (text (keyManagement security))), ("psk", .string (text p))])]
    else if security = SECURITY_WEP then
      [("802-11-wireless-security",
        [("key-mgmt", .string (text "none")), ("wep-key0", .string (text p)), ("wep-key-type", .uint32 1)])]
    else []

/-- `wifi_settings`. -/
def wifiSettings (ssid : Bytes) (security : String) (passphrase : Option String) (iface : String)
    (autoconnect hidden : Bool) : SettingsDict :=
  [("connection",
      [("id", .string (ssidText ssid)), ("type", .string (text "802-11-wireless")),
        ("interface-name", .string (text iface)), ("autoconnect", .boolean autoconnect)]),
    ("802-11-wireless",
      [("ssid", .byteArray ssid), ("mode", .string (text "infrastructure")), ("hidden", .boolean hidden)]),
    ("ipv4", [("method", .string (text "auto"))]),
    ("ipv6", [("method", .string (text "auto"))])] ++ securitySection security passphrase

/-- `ethernet_settings`. -/
def ethernetSettings (iface : String) (autoconnect : Bool) : SettingsDict :=
  [("connection",
      [("id", .string (text "Ethernet")), ("type", .string (text "802-3-ethernet")),
        ("interface-name", .string (text iface)), ("autoconnect", .boolean autoconnect)]),
    ("802-3-ethernet", []),
    ("ipv4", [("method", .string (text "auto"))]),
    ("ipv6", [("method", .string (text "auto"))])]

/-- What is sent of the other properties of a service. -/
structure Extra where
  security : String
  autoConnect : Bool
  hiddenSsid : Bool

/-- `_settings_for_connect`. -/
def settingsForConnect (sv : Service) (x : Extra) : SettingsDict :=
  if sv.svcType = SHILL_TYPE_WIFI then
    wifiSettings sv.ssid x.security sv.passphrase sv.iface x.autoConnect x.hiddenSsid
  else ethernetSettings sv.iface x.autoConnect

/-! ## A Connect -/

/-- What a call raises: an error of D-Bus, or another exception with this text. -/
inductive Raised
  | dbus (name message : Str)
  | other (text : Str)

/-- How the calls of a Connect are answered. -/
structure Answers where
  /-- Making the settings and the object paths. -/
  settings : Option Raised
  update : Option Raised
  activate : Option Raised
  add : Except Raised String

/-- What a Connect works on: the services and the devices, the details of their errors, and the saved
profiles. -/
structure Bus where
  state : State
  details : String → Str
  profiles : String → Profile

/-- How a Connect is refused. -/
inductive ConnectError
  | passphraseRequired
  | dbus (name message : Str)
  | operationFailed (message : Str)
  | indexError

/-- `str(exc).splitlines()[0][:240]`; an empty text has no lines. -/
def firstLine (text : Str) : Option Str := (Str.splitlines text).head?.map fun line => line.take 240

/-- The service at a path, and the details of its error. -/
def Bus.update (b : Bus) (path : String) (f : Service → Service) (details : Str) : Bus :=
  { b with
    state := b.state.update path f
    details := fun p => if p = path ∧ (b.state.services.get path).isSome then details else b.details p }

section

variable (nm : Nm) (a : Answers) (kept : String → String → Bool) (x : Extra) (path : String)

/-- What NetworkManager stores for an `Update`: the settings it is sent, and what it keeps by itself. -/
def stored (old : Profile) (d : SettingsDict) : Profile := fun sect key =>
  if kept sect key then old sect key else d.get sect key

/-- A call: it raises, or has its effect. -/
def call (r : Option Raised) (effect : Bus → Bus) : Act Bus Raised Unit :=
  match r with
  | some e => Act.fail e
  | none => Act.modify effect

/-- Whether the saved profile is written anew. -/
def updates (sv : Service) : Bool := sv.passphrase.any (· ≠ "") || !nm.hasSettings sv.nmConnectionPath

/-- The body of the `try`. -/
def body (sv : Service) : Act Bus Raised Unit := do
  call a.settings id
  if sv.nmConnectionPath ≠ "" then do
    if updates nm sv then
      call a.update fun b =>
        { b with
          profiles := Function.update b.profiles sv.nmConnectionPath
            (stored kept (b.profiles sv.nmConnectionPath) (settingsForConnect sv x)) }
    else pure ()
    call a.activate id
  else
    match a.add with
    | .error e => Act.fail e
    | .ok connection => Act.modify fun b =>
      { b with state := b.state.update path fun sv => { sv with nmConnectionPath := connection } }
  Act.modify fun b => { b with state := refreshServiceStates nm sv.nmDevicePath b.state }

/-- The doors that an exception leaves by. -/
def handle (r : Raised) : Act Bus ConnectError Unit :=
  match r with
  | .dbus name message => Act.fail (.dbus name message)
  | .other text =>
    match firstLine text with
    | none => Act.fail .indexError
    | some message => do
      Act.modify fun b => b.update path Service.setError message
      Act.fail (.operationFailed message)

/-- `connect_service`. -/
def connectService : Act Bus ConnectError Unit := do
  let b ← Act.get
  match b.state.services.get path with
  | none => pure ()
  | some sv => do
    Act.modify fun b => b.update path (fun sv => sv.clearError.setState SHILL_STATE_ASSOCIATION) []
    if sv.svcType = SHILL_TYPE_WIFI ∧ sv.passphraseRequired ∧ ¬sv.passphrase.any (· ≠ "") then
      Act.fail .passphraseRequired
    else do
      let r ← Act.attempt (body nm a kept x path sv)
      match r with
      | .ok () => pure ()
      | .error e => handle path e

/-! ## How it ends -/

/-- A network that wants a passphrase and has none. -/
def Refused (sv : Service) : Prop :=
  sv.svcType = SHILL_TYPE_WIFI ∧ sv.passphraseRequired ∧ ¬sv.passphrase.any (· ≠ "")

/-- The first call that raises, with what it raises. -/
def met (sv : Service) : Option Raised :=
  match a.settings with
  | some e => some e
  | none =>
    if sv.nmConnectionPath ≠ "" then
      match if updates nm sv then a.update else none with
      | some e => some e
      | none => a.activate
    else
      match a.add with
      | .error e => some e
      | .ok _ => none

/-- A failure that is not set on the service: what wants a passphrase, what D-Bus raises, and an
exception without a text. -/
def Unrecorded (sv : Service) : Prop :=
  Refused sv ∨ (∃ name message, met nm a sv = some (.dbus name message)) ∨
    met nm a sv = some (.other [])

/-- The services while a Connect goes on. -/
def entered (s : State) : State :=
  s.update path fun sv => sv.clearError.setState SHILL_STATE_ASSOCIATION

/-- A connecting service has a device whose state says so. -/
def LeavesConnecting (s : State) : Prop :=
  ∀ sv, s.services.get path = some sv →
    sv.state = SHILL_STATE_ASSOCIATION ∨ sv.state = SHILL_STATE_CONFIGURATION →
      ∃ info, s.nmDevices.get sv.nmDevicePath = some info ∧
        deviceStateToShill info.state true = sv.state

/-- Whether the saved profile is sent, and taken. -/
def Sent (sv : Service) : Prop :=
  a.settings = none ∧ sv.nmConnectionPath ≠ "" ∧ updates nm sv ∧ a.update = none

/-- What the body raises is what the first call raises that does, and by then no service has
changed. -/
theorem body_wp (sv : Service) (b : Bus) :
    Act.wp (body nm a kept x path sv) (fun _ _ => met nm a sv = none)
      (fun e b' => met nm a sv = some e ∧ b'.state = b.state ∧ b'.details = b.details) b := by
  unfold body met call
  cases hs : a.settings with
  | some e => simp
  | none =>
    by_cases hc : sv.nmConnectionPath = ""
    · cases ha : a.add with
      | error e => simp [hc]
      | ok connection => simp [hc]
    · by_cases hu : updates nm sv = true
      · cases hup : a.update with
        | some e => simp [hc, hu]
        | none => cases hac : a.activate <;> simp [hc, hu]
      · cases hac : a.activate <;> simp [hc, hu]

/-- What the saved profiles are made into. -/
def Written (sv : Service) (old new : String → Profile) : Prop :=
  (Sent nm a sv → new = Function.update old sv.nmConnectionPath
    (stored kept (old sv.nmConnectionPath) (settingsForConnect sv x))) ∧
  (¬Sent nm a sv → new = old)

/-- The body writes the saved profile once, if it sends it and is not refused; and nothing behind it
takes that back. -/
theorem body_written (sv : Service) (b : Bus) :
    Act.wp (body nm a kept x path sv) (fun _ b' => Written nm a kept x sv b.profiles b'.profiles)
      (fun _ b' => Written nm a kept x sv b.profiles b'.profiles) b := by
  unfold body call Written Sent
  cases hs : a.settings with
  | some e => simp
  | none =>
    by_cases hc : sv.nmConnectionPath = ""
    · cases ha : a.add with
      | error e => simp [hc]
      | ok connection => simp [hc]
    · by_cases hu : updates nm sv = true
      · cases hup : a.update with
        | some e => simp [hc, hu]
        | none => cases hac : a.activate <;> simp [hc, hu]
      · cases hac : a.activate <;> simp [hc, hu]

/-- How a failed Connect leaves the service, and that a failure which is set on it says why. -/
def Left (sv : Service) (s : State) (b' : Bus) (e : ConnectError) : Prop :=
  (Unrecorded nm a sv → b'.state = entered path s) ∧
  (¬Unrecorded nm a sv → b'.state = (entered path s).update path Service.setError ∧
    ∃ t message, met nm a sv = some (.other t) ∧ firstLine t = some message ∧
      e = .operationFailed message ∧ b'.details path = message)

theorem not_unrecorded_of_none {sv : Service} (hr : ¬Refused sv) (h : met nm a sv = none) :
    ¬Unrecorded nm a sv := by
  simp [Unrecorded, hr, h]

theorem firstLine_eq_none {t : Str} : firstLine t = none ↔ t = [] := by
  rw [firstLine, Option.map_eq_none_iff, List.head?_eq_none_iff, Str.splitlines_eq_nil]

/-- The doors that an exception leaves by, behind a body that changed no service. -/
theorem handle_left {sv : Service} {s : State} {b : Bus} {r : Raised} (hr : ¬Refused sv)
    (hm : met nm a sv = some r) (hs : (s.services.get path).isSome) (hb : b.state = entered path s) :
    Act.wp (handle path r) (fun _ _ => False) (fun e b' => Left nm a path sv s b' e) b := by
  cases r with
  | dbus name message =>
    have hu : Unrecorded nm a sv := Or.inr (Or.inl ⟨name, message, hm⟩)
    exact ⟨fun _ => hb, fun h => absurd hu h⟩
  | other t =>
    unfold handle
    cases hf : firstLine t with
    | none =>
      have hu : Unrecorded nm a sv := Or.inr (Or.inr (firstLine_eq_none.1 hf ▸ hm))
      simp only [hf, Act.wp_fail]
      exact ⟨fun _ => hb, fun h => absurd hu h⟩
    | some message =>
      have hu : ¬Unrecorded nm a sv := by
        have ht : t ≠ [] := fun ht => by simp [firstLine_eq_none.2 ht] at hf
        simp [Unrecorded, hr, hm, ht]
      have hget : ((entered path s).services.get path).isSome := by
        simpa [entered, State.update, Dict.get_modify] using hs
      simp only [hf, Act.wp_bind, Act.wp_modify, Act.wp_fail]
      refine ⟨fun h => absurd h hu, fun _ => ⟨?_, t, message, hm, hf, rfl, ?_⟩⟩
      · simp [Bus.update, hb]
      · simp [Bus.update, hb, hget]

theorem connectService_wp {b : Bus} {sv : Service} (h : b.state.services.get path = some sv) :
    Act.wp (connectService nm a kept x path) (fun _ _ => ¬Unrecorded nm a sv)
      (fun e b' => Left nm a path sv b.state b' e) b := by
  unfold connectService
  simp only [Act.wp_bind, Act.wp_get, h, Act.wp_modify, Act.wp_ite, Act.wp_fail, Act.wp_attempt]
  constructor
  · intro hr
    exact ⟨fun _ => rfl, fun hu => absurd (Or.inl hr) hu⟩
  · intro hr
    refine Act.wp_mono (body_wp nm a kept x path sv _) ?_ ?_
    · intro _ _ hm
      exact not_unrecorded_of_none nm a hr hm
    · rintro r b' ⟨hm, hs, -⟩
      refine Act.wp_mono (handle_left nm a path hr hm (by simp [h]) hs) ?_ ?_
      · intro _ _ hf
        exact hf.elim
      · exact fun _ _ hl => hl

/-- The saved profiles behind a Connect. -/
theorem connectService_written {b : Bus} {sv : Service} (h : b.state.services.get path = some sv)
    (hr : ¬Refused sv) :
    Written nm a kept x sv b.profiles (connectService nm a kept x path b).2.profiles := by
  have hwp : Act.wp (connectService nm a kept x path)
      (fun _ b' => Written nm a kept x sv b.profiles b'.profiles)
      (fun _ b' => Written nm a kept x sv b.profiles b'.profiles) b := by
    unfold connectService
    simp only [Act.wp_bind, Act.wp_get, h, Act.wp_modify, Act.wp_ite, Act.wp_fail, Act.wp_attempt]
    refine ⟨fun hr' => absurd hr' hr, fun _ => ?_⟩
    refine Act.wp_mono (body_written nm a kept x path sv _) (fun _ _ hw => hw) ?_
    intro r b' hw
    cases r with
    | dbus name message => exact hw
    | other t =>
      unfold handle
      cases hf : firstLine t with
      | none =>
        simp only [hf]
        exact hw
      | some message =>
        simp only [hf]
        exact hw
  exact Act.wp_state hwp

/-! ## What a failure leaves -/

/-- What the state of a service is read off. -/
def DeviceAssociates (sv : Service) (s : State) : Prop :=
  ∃ info, s.nmDevices.get sv.nmDevicePath = some info ∧
    deviceStateToShill info.state true = SHILL_STATE_ASSOCIATION

theorem leavesConnecting_entered {s : State} {sv : Service} (h : s.services.get path = some sv) :
    LeavesConnecting path (entered path s) ↔ DeviceAssociates sv s := by
  unfold LeavesConnecting entered
  simp [State.update, Dict.get_modify, h, Service.clearError, Service.setState, DeviceAssociates]

theorem leavesConnecting_setError (s : State) :
    LeavesConnecting path (s.update path Service.setError) := by
  intro sv hsv hc
  rw [State.update, Dict.get_modify, if_pos rfl, Option.map_eq_some_iff] at hsv
  obtain ⟨sv', -, rfl⟩ := hsv
  rcases hc with hc | hc
  · simp [Service.setError, SHILL_STATE_FAILURE, SHILL_STATE_ASSOCIATION] at hc
  · simp [Service.setError, SHILL_STATE_FAILURE, SHILL_STATE_CONFIGURATION] at hc

/-- A failure leaves the service out of the connecting states exactly where it is set on it, or the
device is connecting all the same. -/
theorem leavesConnecting_iff {b : Bus} {sv : Service} (h : b.state.services.get path = some sv) :
    (∀ e b', connectService nm a kept x path b = (.error e, b') → LeavesConnecting path b'.state) ↔
      (Unrecorded nm a sv → DeviceAssociates sv b.state) := by
  have hwp := connectService_wp nm a kept x path h
  rw [← leavesConnecting_entered path h]
  constructor
  · intro hleaves hu
    rcases hrun : connectService nm a kept x path b with ⟨e | ⟨⟩, b'⟩
    · have hleft := Act.wp_error hwp hrun
      rw [← hleft.1 hu]
      exact hleaves e b' hrun
    · exact absurd hu (Act.wp_ok hwp hrun)
  · intro hdevice e b' hrun
    have hleft := Act.wp_error hwp hrun
    by_cases hu : Unrecorded nm a sv
    · rw [hleft.1 hu]
      exact hdevice hu
    · rw [(hleft.2 hu).1]
      exact leavesConnecting_setError path _

/-! ## What is sent over a saved profile -/

/-- The secrets of a profile. -/
def IsSecret (sect key : String) : Prop :=
  sect = "802-11-wireless-security" ∧ key ∈ ["psk", "wep-key0", "wep-key1", "wep-key2", "wep-key3"]

/-- Two profiles that differ in their secrets at most. -/
def SameBut (p q : Profile) : Prop := ∀ sect key, ¬IsSecret sect key → p sect key = q sect key

/-- A passphrase for a saved network. -/
def Joins (sv : Service) : Prop := sv.nmConnectionPath ≠ "" ∧ sv.passphrase.any (· ≠ "")

/-- The profile of a network that sets nothing by hand: bound to its interface, with addresses and
name servers that are given to it. -/
def automatic (sv : Service) (x : Extra) : List ((String × String) × Value) :=
  [(("connection", "interface-name"), .string (text sv.iface)),
    (("connection", "autoconnect"), .boolean x.autoConnect),
    (("ipv4", "method"), .string (text "auto")), (("ipv6", "method"), .string (text "auto"))] ++
  if sv.svcType = SHILL_TYPE_WIFI then
    [(("connection", "id"), .string (ssidText sv.ssid)),
      (("connection", "type"), .string (text "802-11-wireless")),
      (("802-11-wireless", "ssid"), .byteArray sv.ssid),
      (("802-11-wireless", "mode"), .string (text "infrastructure")),
      (("802-11-wireless", "hidden"), .boolean x.hiddenSsid)] ++
    if keyManagement x.security ≠ "" then
      [(("802-11-wireless-security", "key-mgmt"), .string (text (keyManagement x.security)))]
    else if x.security = SECURITY_WEP then
      [(("802-11-wireless-security", "key-mgmt"), .string (text "none")),
        (("802-11-wireless-security", "wep-key-type"), .uint32 1)]
    else []
  else
    [(("connection", "id"), .string (text "Ethernet")),
      (("connection", "type"), .string (text "802-3-ethernet"))]

theorem securitySection_some (security : String) {p : String} (hp : p ≠ "") :
    securitySection security (some p) =
      if keyManagement security ≠ "" then
        [("802-11-wireless-security",
          [("key-mgmt", .string (text (keyManagement security))), ("psk", .string (text p))])]
      else if security = SECURITY_WEP then
        [("802-11-wireless-security",
          [("key-mgmt", .string (text "none")), ("wep-key0", .string (text p)), ("wep-key-type", .uint32 1)])]
      else [] := by
  have hf : (some p).filter (· ≠ "") = some p := by simp [hp]
  simp only [securitySection, hf]

theorem lookup_cons_ite {κ β : Type} [BEq κ] [LawfulBEq κ] [DecidableEq κ] (k k' : κ) (v : β)
    (es : List (κ × β)) :
    ((k', v) :: es).lookup k = if k = k' then some v else es.lookup k := by
  rw [List.lookup_cons]
  by_cases h : k = k'
  · simp [h]
  · rw [if_neg h, beq_false_of_ne h]

theorem get_cons (s : String) (es : List (String × Value)) (d : SettingsDict) (sect key : String) :
    SettingsDict.get ((s, es) :: d) sect key =
      if sect = s then es.lookup key else SettingsDict.get d sect key := by
  rw [SettingsDict.get, lookup_cons_ite]
  split
  · rfl
  · rfl

theorem get_nil (sect key : String) : SettingsDict.get [] sect key = none := rfl

/-- What is sent with a passphrase is an automatic profile with that secret. -/
theorem get_settingsForConnect {sv : Service} {x : Extra} (hp : sv.passphrase.any (· ≠ ""))
    {sect key : String} (hs : ¬IsSecret sect key) :
    (settingsForConnect sv x).get sect key = (automatic sv x).lookup (sect, key) := by
  obtain ⟨p, hsome, hne⟩ : ∃ p, sv.passphrase = some p ∧ p ≠ "" := by
    cases h : sv.passphrase <;> simp_all
  simp only [IsSecret, List.mem_cons, not_and, not_or] at hs
  have hsec := securitySection_some x.security hne
  unfold settingsForConnect automatic
  split_ifs with hw hk hwep
  · rw [if_pos hk] at hsec
    simp only [wifiSettings, hsome, hsec, List.cons_append, List.nil_append, get_cons, get_nil,
      lookup_cons_ite, List.lookup_nil, Prod.mk.injEq]
    rcases eq_or_ne sect "connection" with rfl | h1
    · grind
    · rcases eq_or_ne sect "802-11-wireless" with rfl | h2 <;> grind
  · rw [if_neg hk, if_pos hwep] at hsec
    simp only [wifiSettings, hsome, hsec, List.cons_append, List.nil_append, get_cons, get_nil,
      lookup_cons_ite, List.lookup_nil, Prod.mk.injEq]
    rcases eq_or_ne sect "connection" with rfl | h1
    · grind
    · rcases eq_or_ne sect "802-11-wireless" with rfl | h2
      · grind
      · rcases eq_or_ne sect "802-11-wireless-security" with rfl | h3 <;> grind
  · rw [if_neg hk, if_neg hwep] at hsec
    simp only [wifiSettings, hsome, hsec, List.cons_append, List.nil_append, List.append_nil,
      get_cons, get_nil, lookup_cons_ite, List.lookup_nil, Prod.mk.injEq]
    rcases eq_or_ne sect "connection" with rfl | h1
    · grind
    · rcases eq_or_ne sect "802-11-wireless" with rfl | h2 <;> grind
  · simp only [ethernetSettings, List.cons_append, List.nil_append, get_cons, get_nil,
      lookup_cons_ite, List.lookup_nil, Prod.mk.injEq]
    rcases eq_or_ne sect "connection" with rfl | h1 <;> grind

/-- What is stored over a profile differs from it in its secrets at most where the profile was an
automatic one. -/
theorem sameBut_iff {sv : Service} (hp : sv.passphrase.any (· ≠ "")) (old : Profile) :
    SameBut (stored kept old (settingsForConnect sv x)) old ↔
      ∀ sect key, ¬IsSecret sect key → kept sect key = false →
        old sect key = (automatic sv x).lookup (sect, key) := by
  unfold SameBut stored
  constructor
  · intro h sect key hs hk
    have hsame := h sect key hs
    rw [hk, if_neg Bool.false_ne_true, get_settingsForConnect hp hs] at hsame
    exact hsame.symm
  · intro h sect key hs
    cases hk : kept sect key with
    | true => rfl
    | false =>
      rw [if_neg Bool.false_ne_true, get_settingsForConnect hp hs]
      exact (h sect key hs hk).symm

theorem sameBut_connect_iff {b : Bus} {sv : Service} (h : b.state.services.get path = some sv)
    (hj : Joins sv) :
    SameBut ((connectService nm a kept x path b).2.profiles sv.nmConnectionPath)
        (b.profiles sv.nmConnectionPath) ↔
      (a.settings = none → a.update = none →
        ∀ sect key, ¬IsSecret sect key → kept sect key = false →
          b.profiles sv.nmConnectionPath sect key = (automatic sv x).lookup (sect, key)) := by
  have hu : updates nm sv = true := by simp only [updates, hj.2, Bool.true_or]
  have hw := connectService_written nm a kept x path h fun hr => hr.2.2 hj.2
  by_cases hs : Sent nm a sv
  · rw [hw.1 hs, Function.update_self, sameBut_iff kept x hj.2]
    exact ⟨fun hold _ _ => hold, fun hold => hold hs.1 hs.2.2.2⟩
  · rw [hw.2 hs]
    constructor
    · intro _ hset hup
      exact absurd ⟨hset, hj.1, hu, hup⟩ hs
    · intro _ _ _ _
      rfl

/-- **A failed Connect leaves the connecting states exactly where its failure is set on the service,
or the device is connecting all the same; and a new passphrase changes the secret alone exactly where
the saved profile is not sent anew, or was an automatic one.** -/
theorem connect_iff {b : Bus} {sv : Service} (h : b.state.services.get path = some sv) :
    ((∀ e b', connectService nm a kept x path b = (.error e, b') → LeavesConnecting path b'.state) ∧
      (Joins sv → SameBut ((connectService nm a kept x path b).2.profiles sv.nmConnectionPath)
        (b.profiles sv.nmConnectionPath))) ↔
    ((Unrecorded nm a sv → DeviceAssociates sv b.state) ∧
      (Joins sv → a.settings = none → a.update = none →
        ∀ sect key, ¬IsSecret sect key → kept sect key = false →
          b.profiles sv.nmConnectionPath sect key = (automatic sv x).lookup (sect, key))) := by
  refine and_congr (leavesConnecting_iff nm a kept x path h) (forall_congr' fun hj => ?_)
  exact sameBut_connect_iff nm a kept x path h hj

end

/-! ## A network at home -/

/-- A NetworkManager that knows nothing. -/
def silent : Nm where
  devices := none
  info := fun _ => none
  accessPoints := fun _ => none
  ap := fun _ => none
  connections := none
  props := fun _ => none
  settingsOf := fun _ => none
  hasSettings := fun _ => true
  update := .done
  activate := .done
  added := ""
  deactivate := .done

def answered : Answers := ⟨none, none, none, .ok "/Settings/1"⟩

/-- A scanned network of a device. -/
def homeNetwork (connection : String) (passphrase : Option String) : Service :=
  { Service.new SHILL_TYPE_WIFI "wlan0" "/Devices/1" ["/AccessPoint/1"] connection with
    ssid := text "home"
    passphrase := passphrase
    passphraseRequired := true }

def homeExtra : Extra := ⟨SECURITY_WPA2, true, false⟩

/-- A device that is on no network, with that one in reach. -/
def homeBus (sv : Service) (profile : Profile) : Bus where
  state := { State.init with
    services := Dict.empty.set "/service/wifi_1" sv
    nmDevices := Dict.empty.set "/Devices/1" ⟨SHILL_TYPE_WIFI, NM_DEVICE_STATE_DISCONNECTED, "wlan0"⟩ }
  details := fun _ => []
  profiles := fun _ => profile

theorem homeBus_get (sv : Service) (profile : Profile) :
    (homeBus sv profile).state.services.get "/service/wifi_1" = some sv := by
  simp [homeBus]

/-- A saved network that is joined with another passphrase, while the activation fails. -/
theorem connect_iff_home :
    (∀ e b', connectService silent { answered with activate := some (.other "timed out".toList) }
        (fun _ _ => false) homeExtra "/service/wifi_1"
        (homeBus (homeNetwork "/Settings/1" (some "new words"))
          fun sect key => (automatic (homeNetwork "/Settings/1" none) homeExtra).lookup (sect, key)) =
          (.error e, b') → LeavesConnecting "/service/wifi_1" b'.state) ∧
      (Joins (homeNetwork "/Settings/1" (some "new words")) →
        SameBut ((connectService silent { answered with activate := some (.other "timed out".toList) }
          (fun _ _ => false) homeExtra "/service/wifi_1"
          (homeBus (homeNetwork "/Settings/1" (some "new words")) fun sect key =>
            (automatic (homeNetwork "/Settings/1" none) homeExtra).lookup (sect, key))).2.profiles
            "/Settings/1")
          fun sect key =>
            (automatic (homeNetwork "/Settings/1" none) homeExtra).lookup (sect, key)) := by
  refine (connect_iff silent _ _ homeExtra "/service/wifi_1" (homeBus_get _ _)).2 ⟨?_, ?_⟩
  · intro hu
    simp [Unrecorded, Refused, homeNetwork, met, answered, updates] at hu
  · intro _ _ _ sect key _ _
    rfl

/-- Without a passphrase the service is left associating, on a device that is on no network; and a
new passphrase takes the name server of a saved network with it. -/
theorem connect_differs :
    (¬∀ e b', connectService silent answered (fun _ _ => false) homeExtra "/service/wifi_1"
        (homeBus (homeNetwork "" none) fun _ _ => none) = (.error e, b') →
          LeavesConnecting "/service/wifi_1" b'.state) ∧
      ¬(Joins (homeNetwork "/Settings/1" (some "new words")) →
        SameBut ((connectService silent answered (fun _ _ => false) homeExtra "/service/wifi_1"
          (homeBus (homeNetwork "/Settings/1" (some "new words"))
            fun _ _ => some (.string (text "1.1.1.1")))).2.profiles "/Settings/1")
          fun _ _ => some (.string (text "1.1.1.1"))) := by
  constructor
  · intro h
    have hdevice := (leavesConnecting_iff silent answered _ homeExtra "/service/wifi_1"
      (homeBus_get _ _)).1 h (Or.inl (by simp [Refused, homeNetwork]; rfl))
    obtain ⟨info, hinfo, hstate⟩ := hdevice
    simp [homeBus, homeNetwork, Service.new] at hinfo
    subst hinfo
    revert hstate
    decide
  · intro h
    have hjoins : Joins (homeNetwork "/Settings/1" (some "new words")) := by
      simp [Joins, homeNetwork, Service.new]
    have hdns := h hjoins "ipv4" "dns" (by simp [IsSecret])
    have hnone : (connectService silent answered (fun _ _ => false) homeExtra "/service/wifi_1"
        (homeBus (homeNetwork "/Settings/1" (some "new words"))
          fun _ _ => some (.string (text "1.1.1.1")))).2.profiles "/Settings/1" "ipv4" "dns" = none := rfl
    rw [hnone] at hdns
    exact absurd hdns (by simp)

end Aurade.Network.Connect
