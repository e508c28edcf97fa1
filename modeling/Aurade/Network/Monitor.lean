import Aurade.Foundations.Act
import Aurade.Foundations.Bytes
import Aurade.Foundations.Dict

/-!
# The bridge from NetworkManager to Shill

`NetworkManagerMonitor`: the services the desktop sees, and the three maps that are kept of them, one
of devices to their services, one of access points to theirs, and one of the devices themselves.
Every handler reads NetworkManager anew (`Nm`), so a run is a list of events, each with what
NetworkManager answers while it is handled. What a handler raises ends it where it stands.

A service comes from a scan, from a wired device, or from a call that configures one. The first two
are in the map of devices; the last are in none, so no synchronisation reaches them.
-/

namespace Aurade.Network

/-! ## What NetworkManager says -/

/-- What is known of a device, `_device_info`. -/
structure Info where
  type : String
  state : ℤ
  iface : String
  deriving DecidableEq

/-- The properties of a device that its services' states are read off. -/
structure DeviceProps where
  state : ℤ
  activeConnection : String
  activeAccessPoint : String
  /-- The second part of `StateReason`, where it can be read. -/
  reason : Option ℤ
  deriving DecidableEq

/-- An access point, `_ap_info`. -/
structure AccessPoint where
  ssid : Bytes
  strength : ℤ
  /-- Whether it asks for a passphrase. -/
  required : Bool
  deriving DecidableEq

/-- A saved connection. -/
structure Settings where
  type : String
  interfaceName : Option String
  ssid : Bytes
  deriving DecidableEq

/-- How a call that changes a connection is answered. -/
inductive Reply
  | done
  | dbusError
  | failed
  deriving DecidableEq

/-- What NetworkManager answers. Where a call may fail, `none` is its failure. -/
structure Nm where
  devices : Option (List String)
  info : String → Option Info
  accessPoints : String → Option (List String)
  ap : String → Option AccessPoint
  connections : Option (List (String × Option Settings))
  props : String → Option DeviceProps
  /-- The saved profile behind an active connection. -/
  settingsOf : String → Option String
  /-- Whether the settings of a saved connection can be read, and are any. -/
  hasSettings : String → Bool
  update : Reply
  activate : Reply
  /-- The path of the connection that is added. -/
  added : String
  deactivate : Reply

/-! ## The states of Shill -/

def SHILL_STATE_ONLINE : String := "online"
def SHILL_STATE_READY : String := "ready"
def SHILL_STATE_IDLE : String := "idle"
def SHILL_STATE_ASSOCIATION : String := "association"
def SHILL_STATE_CONFIGURATION : String := "configuration"
def SHILL_STATE_FAILURE : String := "failure"

def SHILL_TYPE_ETHERNET : String := "ethernet"
def SHILL_TYPE_WIFI : String := "wifi"

def NM_DEVICE_STATE_DISCONNECTED : ℤ := 30
def NM_DEVICE_STATE_ACTIVATED : ℤ := 100
def NM_DEVICE_STATE_DEACTIVATING : ℤ := 110
def NM_DEVICE_STATE_FAILED : ℤ := 120

def SHILL_ERROR_BAD_PASSPHRASE : String := "bad-passphrase"
def SHILL_ERROR_CONNECT_FAILED : String := "connect-failed"
def SHILL_ERROR_OUT_OF_RANGE : String := "out-of-range"
def SHILL_ERROR_NOT_ASSOCIATED : String := "not-associated"

/-- `NM_REASON_TO_SHILL_ERROR`, with the error of every other reason. -/
def failureOf (reason : ℤ) : String :=
  if reason = 7 ∨ reason = 9 ∨ reason = 10 then SHILL_ERROR_BAD_PASSPHRASE
  else if reason = 11 ∨ reason = 8 then SHILL_ERROR_NOT_ASSOCIATED
  else if reason = 53 then SHILL_ERROR_OUT_OF_RANGE
  else SHILL_ERROR_CONNECT_FAILED

/-- `_device_state_to_shill`. -/
def deviceStateToShill (state : ℤ) (active : Bool) : String :=
  if state = NM_DEVICE_STATE_FAILED then
    if active then SHILL_STATE_FAILURE else SHILL_STATE_IDLE
  else if state ∈ [40, 50, 60] then SHILL_STATE_ASSOCIATION
  else if state ∈ [70, 80, 90] then SHILL_STATE_CONFIGURATION
  else if active ∧ state = NM_DEVICE_STATE_ACTIVATED then SHILL_STATE_ONLINE
  else if NM_DEVICE_STATE_DEACTIVATING ≤ state then SHILL_STATE_IDLE
  else if NM_DEVICE_STATE_DISCONNECTED ≤ state then SHILL_STATE_READY
  else SHILL_STATE_IDLE

/-- `_service_state_to_shill`. -/
def serviceStateToShill (state : ℤ) (active : Bool) : String :=
  if active then deviceStateToShill state true else SHILL_STATE_IDLE

/-! ## The services -/

structure Service where
  svcType : String
  iface : String
  /-- Made by a call that configures one. -/
  configured : Bool
  nmDevicePath : String
  nmApPaths : List String
  nmConnectionPath : String
  passphrase : Option String
  state : String
  ssid : Bytes
  passphraseRequired : Bool
  error : String
  deriving DecidableEq

namespace Service

/-- `set_state`. -/
def setState (sv : Service) (state : String) : Service := { sv with state := state }

/-- `clear_error`. -/
def clearError (sv : Service) : Service := { sv with error := "" }

/-- `set_error`. -/
def setError (sv : Service) : Service :=
  { sv with error := SHILL_ERROR_CONNECT_FAILED, state := SHILL_STATE_FAILURE }

/-- `set_failure`. -/
def setFailure (sv : Service) (error : String) : Service :=
  if error = SHILL_ERROR_BAD_PASSPHRASE then
    { sv with
      error := error, state := SHILL_STATE_FAILURE, passphrase := none, passphraseRequired := true }
  else { sv with error := error, state := SHILL_STATE_FAILURE }

/-- `set_nm_identity`. -/
def setNmIdentity (sv : Service) (device : String) (aps : List String) (connection : String) :
    Service :=
  { sv with nmDevicePath := device, nmApPaths := aps, nmConnectionPath := connection }

end Service

/-- `Service(...)`, as a synchronisation makes it. -/
def Service.new (svcType iface device : String) (aps : List String) (connection : String) : Service :=
  ⟨svcType, iface, false, device, aps, connection, none, SHILL_STATE_IDLE, [], false, ""⟩

/-- A call to NetworkManager that changes something. -/
inductive Call
  | activate (connection device specific : String)
  | addAndActivate (device specific : String)
  | update (connection : String)
  | deactivate (connection : String)
  | delete (connection : String)
  deriving DecidableEq

structure State where
  services : Dict String Service
  nmDevices : Dict String Info
  apToService : Dict String String
  deviceToServices : Dict String (List String)
  calls : List Call

def State.init : State := ⟨.empty, .empty, .empty, .empty, []⟩

/-- The services of a device. -/
def State.servicesOf (s : State) (device : String) : List String :=
  (s.deviceToServices.get device).getD []

/-- A service changed, where there is one. -/
def State.update (s : State) (path : String) (f : Service → Service) : State :=
  { s with services := s.services.modify path f }

/-! ## Reading NetworkManager -/

section Monitor

variable (stableId : String → Option Bytes → String) (nm : Nm)

def servicePrefix : String := "/service/"

/-- `shill_service_path`. -/
def shillServicePath (kind identity : String) : String := servicePrefix ++ kind ++ "_" ++ identity

/-- The path of a scanned network's service. -/
def wifiPath (device : String) (ssid : Bytes) : String :=
  shillServicePath "wifi" (stableId device (some ssid))

/-- The path of a wired device's service. -/
def ethernetPath (device : String) : String := shillServicePath "ethernet" (stableId device none)

/-- The loop of `_saved_connection`. A connection that cannot be read ends it. -/
def findSaved (ssid : Bytes) (iface type : String) : List (String × Option Settings) → String
  | [] => ""
  | (_, none) :: _ => ""
  | (path, some c) :: rest =>
    if c.type ≠ type then findSaved ssid iface type rest
    else if c.interfaceName.any (· ≠ iface) then findSaved ssid iface type rest
    else if type = "802-11-wireless" ∧ c.ssid ≠ ssid then findSaved ssid iface type rest
    else path

/-- `_saved_connection`. -/
def savedConnection (ssid : Bytes) (iface type : String) : String :=
  findSaved ssid iface type (nm.connections.getD [])

/-- An access point filed under its network, unless it cannot be read or hides its name. -/
def file (groups : Dict Bytes (List (String × AccessPoint))) (path : String) :
    Dict Bytes (List (String × AccessPoint)) :=
  match nm.ap path with
  | none => groups
  | some i =>
    if i.ssid = [] then groups
    else groups.set i.ssid ((groups.get i.ssid).getD [] ++ [(path, i)])

/-- The networks of the access points, each with its own. -/
def networks (paths : List String) : Dict Bytes (List (String × AccessPoint)) :=
  paths.foldl (file nm) .empty

/-- The first of the strongest, which a stable sort puts first. -/
def strongest : List (String × AccessPoint) → Option AccessPoint
  | [] => none
  | e :: es => some (es.foldl (fun b e => if b.strength < e.2.strength then e.2 else b) e.2)

/-! ## States -/

/-- What `_refresh_service_states` reads of a device, or takes for granted where it cannot. -/
def readProps (device : String) (info : Info) : DeviceProps :=
  match nm.props device with
  | some p => if info.type = SHILL_TYPE_WIFI then p else { p with activeAccessPoint := "/" }
  | none => ⟨info.state, "/", "/", none⟩

/-- `_active_settings`. -/
def activeSettings (active : String) : String :=
  if active = "" ∨ active = "/" then "" else (nm.settingsOf active).getD ""

/-- Whether a device is on a service. A wired device's is whenever it is connected at all. -/
def isActive (type : String) (p : DeviceProps) (sv : Service) : Bool :=
  (type = SHILL_TYPE_ETHERNET ∧ p.activeConnection ≠ "" ∧ p.activeConnection ≠ "/") ∨
  (sv.nmConnectionPath ≠ "" ∧
    (sv.nmConnectionPath = p.activeConnection ∨
      sv.nmConnectionPath = activeSettings nm p.activeConnection)) ∨
  p.activeAccessPoint ∈ sv.nmApPaths

/-- A service with the state its device's maps to. -/
def refreshed (type : String) (p : DeviceProps) (sv : Service) : Service :=
  if p.state = NM_DEVICE_STATE_FAILED ∧ isActive nm type p sv then
    sv.setFailure (failureOf (p.reason.getD 0))
  else (if isActive nm type p sv then sv.clearError else sv).setState
    (serviceStateToShill p.state (isActive nm type p sv))

/-- `_refresh_service_states`. -/
def refreshServiceStates (device : String) (s : State) : State :=
  match s.nmDevices.get device with
  | none => s
  | some info =>
    let p := readProps nm device info
    (s.servicesOf device).foldl (fun s path => s.update path (refreshed nm info.type p))
      { s with nmDevices := s.nmDevices.set device { info with state := p.state } }

/-! ## Synchronisation -/

/-- `_drop_service`. -/
def dropService (s : State) (path : String) : State :=
  match s.services.get path with
  | none => s
  | some sv =>
    { s with services := s.services.pop path, apToService := s.apToService.popAll sv.nmApPaths }

/-- A network published as a service. -/
def publishNetwork (device : String) (info : Info) (s : State)
    (network : Bytes × List (String × AccessPoint)) : State :=
  let path := wifiPath stableId device network.1
  let connection := savedConnection nm network.1 info.iface "802-11-wireless"
  let aps := network.2.map Prod.fst
  let sv := match s.services.get path with
    | none => Service.new SHILL_TYPE_WIFI info.iface device aps connection
    | some sv => sv.setNmIdentity device aps connection
  { s with
    services := s.services.set path { sv with
      ssid := network.1
      passphraseRequired := (strongest network.2).any AccessPoint.required && connection = "" }
    apToService := s.apToService.setAll aps path }

/-- `_sync_access_points`. -/
def syncAccessPoints (device : String) (s : State) : State :=
  match s.nmDevices.get device with
  | none => s
  | some info =>
    let found := (networks nm ((nm.accessPoints device).getD [])).entries
    let old := s.servicesOf device
    let current := found.map fun network => wifiPath stableId device network.1
    let s := found.foldl (publishNetwork stableId nm device info) s
    let s := (old.filter (· ∉ current)).foldl dropService s
    refreshServiceStates nm device
      { s with deviceToServices := s.deviceToServices.set device current }

/-- `_sync_ethernet_service`. -/
def syncEthernetService (device : String) (s : State) : State :=
  match s.nmDevices.get device with
  | none => s
  | some info =>
    let path := ethernetPath stableId device
    let connection := savedConnection nm [] info.iface "802-3-ethernet"
    let sv := match s.services.get path with
      | none => Service.new SHILL_TYPE_ETHERNET info.iface device [] connection
      | some sv => sv.setNmIdentity device [] connection
    refreshServiceStates nm device { s with
      services := s.services.set path sv
      deviceToServices := s.deviceToServices.set device [path] }

/-- `_add_device`. -/
def addDevice (device : String) (s : State) : State :=
  match nm.info device with
  | none => s
  | some info =>
    let s := { s with nmDevices := s.nmDevices.set device info }
    if info.type = SHILL_TYPE_WIFI then syncAccessPoints stableId nm device s
    else syncEthernetService stableId nm device s

/-- `_remove_device`. -/
def removeDevice (device : String) (s : State) : State :=
  let dropped := (s.servicesOf device).foldl dropService s
  { dropped with
    deviceToServices := dropped.deviceToServices.pop device
    nmDevices := dropped.nmDevices.pop device }

/-! ## Requests -/

/-- How a request is refused. -/
inductive DBusError
  | passphraseRequired | operationFailed | raised
  deriving DecidableEq

abbrev Handler := Act State DBusError

/-- A call to NetworkManager and what becomes of it: another error is set on the service. -/
def callNm (path : String) (c : Call) (r : Reply) : Handler Unit := do
  Act.modify fun s => { s with calls := s.calls ++ [c] }
  match r with
  | .done => pure ()
  | .dbusError => Act.fail .raised
  | .failed => do
    Act.modify fun s => s.update path Service.setError
    Act.fail .operationFailed

/-- The part of `connect_service` behind the check of the passphrase. -/
def activateService (path : String) (sv : Service) : Handler Unit := do
  let device := if sv.nmDevicePath = "" then "/" else sv.nmDevicePath
  let specific := sv.nmApPaths.headD "/"
  if sv.nmConnectionPath ≠ "" then
    if sv.passphrase.any (· ≠ "") ∨ ¬ nm.hasSettings sv.nmConnectionPath then do
      callNm path (.update sv.nmConnectionPath) nm.update
      callNm path (.activate sv.nmConnectionPath device specific) nm.activate
    else callNm path (.activate sv.nmConnectionPath device specific) nm.activate
  else do
    callNm path (.addAndActivate device specific) nm.activate
    Act.modify fun s => s.update path fun sv => { sv with nmConnectionPath := nm.added }

/-- `connect_service`. -/
def connectService (path : String) : Handler Unit := do
  let s ← Act.get
  match s.services.get path with
  | none => pure ()
  | some sv => do
    Act.modify fun s => s.update path fun sv => sv.clearError.setState SHILL_STATE_ASSOCIATION
    if sv.svcType = SHILL_TYPE_WIFI ∧ sv.passphraseRequired ∧ ¬ sv.passphrase.any (· ≠ "") then
      Act.fail .passphraseRequired
    else do
      activateService nm path sv
      Act.modify (refreshServiceStates nm sv.nmDevicePath)

/-- `disconnect_service`. Every error is set on the service. -/
def disconnectService (path : String) : Handler Unit := do
  let s ← Act.get
  match s.services.get path with
  | none => pure ()
  | some sv =>
    match nm.props sv.nmDevicePath with
    | none => do
      Act.modify fun s => s.update path Service.setError
      Act.fail .operationFailed
    | some p => do
      if p.activeConnection ≠ "/" then
        callNm path (.deactivate p.activeConnection)
          (if nm.deactivate = .done then .done else .failed)
      else pure ()
      Act.modify fun s => s.update path fun sv => sv.setState SHILL_STATE_READY
      Act.modify (refreshServiceStates nm sv.nmDevicePath)

/-- `remove_service`. -/
def removeService (path : String) (s : State) : State :=
  match s.services.get path with
  | none => s
  | some sv =>
    let s := if sv.nmConnectionPath ≠ "" then
      { s with calls := s.calls ++ [.delete sv.nmConnectionPath] } else s
    if sv.svcType = SHILL_TYPE_WIFI ∧ sv.nmApPaths ≠ [] then
      s.update path fun sv => { sv with nmConnectionPath := "", passphrase := none, error := "" }
    else dropService s path

/-- The properties a service is configured with, where they are given. -/
structure Args where
  type : Option String
  guid : Option String
  interface : Option String
  name : Option Bytes
  ssid : Option Bytes
  passphrase : Option String
  state : Option String
  passphraseRequired : Option Bool
  error : Option String
  deriving DecidableEq

/-- `first_device`. -/
def firstDevice (s : State) (kind : String) : String × String :=
  ((s.nmDevices.entries.find? fun e => e.2.type = kind).map fun e => (e.1, e.2.iface)).getD ("", "")

/-- `configured_device`. -/
def configuredDevice (s : State) (svcType : String) (args : Args) : String × String :=
  let found := firstDevice s svcType
  (found.1, if found.2 = "" then args.interface.getD "" else found.2)

/-- `_create_configured_service`; `guid` is the one that is generated where none is given. -/
def createConfiguredService (args : Args) (guid : String) (s : State) : State :=
  let svcType := args.type.getD SHILL_TYPE_ETHERNET
  let device := configuredDevice s svcType args
  { s with services := s.services.set (servicePrefix ++ args.guid.getD guid) {
      svcType := svcType
      iface := device.2
      configured := true
      nmDevicePath := device.1
      nmApPaths := []
      nmConnectionPath := ""
      passphrase := args.passphrase
      state := args.state.getD SHILL_STATE_IDLE
      -- a network typed in by hand carries its name alone
      ssid := if svcType = SHILL_TYPE_WIFI then args.ssid.getD (args.name.getD []) else []
      passphraseRequired := args.passphraseRequired.getD false
      error := args.error.getD "" } }

/-- `GetService`: a service that has all the properties asked for is not made again. -/
def getService (asked : Service → Bool) (args : Args) (guid : String) (s : State) : State :=
  if s.services.entries.any fun e => asked e.2 then s else createConfiguredService args guid s

/-! ## Events -/

inductive Event
  | deviceAdded (device : String)
  | deviceRemoved (device : String)
  /-- `AccessPointAdded`, `AccessPointRemoved`. -/
  | accessPointsChanged (device : String)
  | apPropsChanged (ap : String)
  | devicePropsChanged (device : String) (state : Option ℤ)
  | connect (path : String)
  | disconnect (path : String)
  | remove (path : String)
  | setPassphrase (path passphrase : String)
  | configure (args : Args) (guid : String)
  | getService (asked : Service → Bool) (args : Args) (guid : String)

/-- `_on_ap_props_changed`. -/
def onApPropsChanged (ap : String) (s : State) : State :=
  match (s.apToService.get ap).bind s.services.get with
  | none => s
  | some sv => syncAccessPoints stableId nm sv.nmDevicePath s

/-- `_on_device_props_changed`. -/
def onDevicePropsChanged (device : String) (state : Option ℤ) (s : State) : State :=
  match s.nmDevices.get device with
  | none => s
  | some info =>
    refreshServiceStates nm device { s with
      nmDevices := s.nmDevices.set device { info with state := state.getD info.state } }

def step (e : Event) (s : State) : State :=
  match e with
  | .deviceAdded device => addDevice stableId nm device s
  | .deviceRemoved device => removeDevice device s
  | .accessPointsChanged device => syncAccessPoints stableId nm device s
  | .apPropsChanged ap => onApPropsChanged stableId nm ap s
  | .devicePropsChanged device state => onDevicePropsChanged nm device state s
  | .connect path => (connectService nm path s).2
  | .disconnect path => (disconnectService nm path s).2
  | .remove path => removeService path s
  | .setPassphrase path passphrase =>
    s.update path fun sv => { sv with passphrase := some passphrase }
  | .configure args guid => createConfiguredService args guid s
  | .getService asked args guid => getService asked args guid s

end Monitor

/-- Events one after another, each with what NetworkManager answers then. -/
def run (stableId : String → Option Bytes → String) : List (Nm × Event) → State → State
  | [], s => s
  | x :: xs, s => run stableId xs (step stableId x.1 x.2 s)

/-- `_sync_devices`: the devices that are gone are removed, and all others added again. -/
def syncDevices (stableId : String → Option Bytes → String) (nm : Nm) (s : State) : State :=
  let paths := nm.devices.getD []
  let kept := (s.nmDevices.keys.filter (· ∉ paths)).foldl (fun s device => removeDevice device s) s
  paths.foldl (fun s device => addDevice stableId nm device s) kept

/-- A synchronisation of all devices is a run. -/
theorem syncDevices_eq_run (stableId : String → Option Bytes → String) (nm : Nm) (s : State) :
    syncDevices stableId nm s =
      run stableId ((s.nmDevices.keys.filter (· ∉ nm.devices.getD [])).map
          (fun device => (nm, Event.deviceRemoved device)) ++
        (nm.devices.getD []).map fun device => (nm, Event.deviceAdded device)) s := by
  have hrun : ∀ (xs : List (Nm × Event)) (s : State),
      run stableId xs s = xs.foldl (fun s x => step stableId x.1 x.2 s) s := by
    intro xs
    induction xs with
    | nil => exact fun s => rfl
    | cons x xs ih => exact fun s => ih _
  rw [hrun, List.foldl_append, List.foldl_map, List.foldl_map]
  rfl

end Aurade.Network
