import Aurade.Network.Scan

/-!
# The published services follow NetworkManager

What a synchronisation makes of the services of a device (`Synced`), and what every event keeps of
the three maps: a service that no call configured is among those of a device that is known
(`Kept.owned`), and its access points lead back to it (`Mapped`).

The second is lost where an access point changes its name while its network disappears: it is filed
under the new service before the old one is dropped, and the drop takes it out again. `Steady` runs
are those without such a change.
-/

namespace Aurade.Network

variable {stableId : String → Option Bytes → String} {nm : Nm} {s s' : State} {d p : String}

/-! ## What every event keeps -/

/-- NetworkManager's devices are of the kind they are, a wired one has no access points, and an
access point is one device's. -/
structure Nm.Of (kindOf : String → String) (owner : String → String) (nm : Nm) : Prop where
  info : ∀ d i, nm.info d = some i → i.type = kindOf d
  wired : ∀ d, kindOf d ≠ SHILL_TYPE_WIFI → nm.accessPoints d = none
  owner : ∀ d aps a, nm.accessPoints d = some aps → a ∈ aps → owner a = d

/-- The maps of the services and of the devices agree. -/
structure Kept (stableId : String → Option Bytes → String) (kindOf : String → String) (s : State) :
    Prop where
  type : ∀ d info, s.nmDevices.get d = some info → info.type = kindOf d
  /-- A service that no call configured, or that has access points, is one of a device that is
  known. -/
  owned : ∀ p sv, s.services.get p = some sv → (sv.configured = false ∨ sv.nmApPaths ≠ []) →
    (∃ info, s.nmDevices.get sv.nmDevicePath = some info) ∧ p ∈ s.servicesOf sv.nmDevicePath
  wired : ∀ d, kindOf d ≠ SHILL_TYPE_WIFI → ∀ p ∈ s.servicesOf d, p = ethernetPath stableId d

/-- The access points of a service lead back to it. -/
structure Mapped (owner : String → String) (s : State) : Prop where
  owner : ∀ p sv a, s.services.get p = some sv → a ∈ sv.nmApPaths → owner a = sv.nmDevicePath
  back : ∀ p sv a, s.services.get p = some sv → a ∈ sv.nmApPaths → s.apToService.get a = some p

section Invariants

variable {kindOf owner : String → String}

theorem Kept.alike (h : Kept stableId kindOf s) (hs : Alike s s') : Kept stableId kindOf s' := by
  refine ⟨fun d info hinfo => ?_, fun p sv hsv hown => ?_, fun d hd p hp => ?_⟩
  · obtain ⟨info₀, hinfo₀, htype⟩ := hs.device hinfo
    exact htype.trans (h.type d info₀ hinfo₀)
  · obtain ⟨sv₀, hsv₀, hid⟩ := hs.service hsv
    obtain ⟨hconf, hdev, haps, -⟩ := identity_eq_iff.1 hid
    rw [hconf, haps] at hown
    obtain ⟨⟨info, hinfo⟩, hmem⟩ := h.owned p sv₀ hsv₀ hown
    rw [hdev, hs.servicesOf]
    exact ⟨hs.device_back hinfo, hmem⟩
  · rw [hs.servicesOf] at hp
    exact h.wired d hd p hp

theorem Mapped.alike (h : Mapped owner s) (hs : Alike s s') : Mapped owner s' := by
  have hback : ∀ p sv, s'.services.get p = some sv →
      ∃ sv₀, s.services.get p = some sv₀ ∧ sv.nmDevicePath = sv₀.nmDevicePath ∧
        sv.nmApPaths = sv₀.nmApPaths := by
    intro p sv hsv
    obtain ⟨sv₀, hsv₀, hid⟩ := hs.service hsv
    obtain ⟨-, hdev, haps, -⟩ := identity_eq_iff.1 hid
    exact ⟨sv₀, hsv₀, hdev, haps⟩
  refine ⟨fun p sv a hsv ha => ?_, fun p sv a hsv ha => ?_⟩
  · obtain ⟨sv₀, hsv₀, hdev, haps⟩ := hback p sv hsv
    rw [hdev]
    exact h.owner p sv₀ a hsv₀ (haps ▸ ha)
  · obtain ⟨sv₀, hsv₀, -, haps⟩ := hback p sv hsv
    rw [hs.aps]
    exact h.back p sv₀ a hsv₀ (haps ▸ ha)

/-! ### A synchronisation of access points -/

section Sync

variable (stableId) (nm) (d)

/-- The services of the networks in range. -/
def current : List String := (found nm d).map (pathOf stableId d)

/-- A device's services, once its networks are published and the others dropped. -/
def filed (info : Info) (s : State) : State :=
  let s' := dropAll ((s.servicesOf d).filter (· ∉ current stableId nm d))
    (publishAll stableId nm d info (found nm d) s)
  { s' with deviceToServices := s'.deviceToServices.set d (current stableId nm d) }

variable {stableId} {nm} {d} {info : Info}

theorem syncAccessPoints_eq (hinfo : s.nmDevices.get d = some info) :
    syncAccessPoints stableId nm d s =
      refreshServiceStates nm d (filed stableId nm d info s) := by
  unfold syncAccessPoints
  rw [hinfo]
  rfl

theorem filed_devices : (filed stableId nm d info s).nmDevices = s.nmDevices :=
  ((dropAll_frame _ _).1).trans (publishAll_frame stableId nm d).1

theorem filed_servicesOf (e : String) : (filed stableId nm d info s).servicesOf e =
    if e = d then current stableId nm d else s.servicesOf e := by
  have hframe : (dropAll ((s.servicesOf d).filter (· ∉ current stableId nm d))
      (publishAll stableId nm d info (found nm d) s)).deviceToServices = s.deviceToServices :=
    ((dropAll_frame _ _).2).trans (publishAll_frame stableId nm d).2
  unfold filed State.servicesOf
  simp only [Dict.get_set]
  split
  · rfl
  · exact congrArg (fun m : Dict String (List String) => (m.get e).getD []) hframe

variable (info) (s) in
/-- The services of the networks in range are there. -/
theorem filed_mem (hp : p ∈ current stableId nm d) :
    ∃ n ∈ found nm d, pathOf stableId d n = p ∧
      ∃ sv, (filed stableId nm d info s).services.get p = some sv ∧ Published nm d info n sv := by
  obtain ⟨n, hn, hpath, sv, hsv, hpub⟩ := publishAll_mem stableId nm s d info hp
  refine ⟨n, hn, hpath, sv, ?_, hpub⟩
  show (dropAll _ _).services.get p = _
  rw [dropAll_get, if_neg (by simp [hp]), hsv]

/-- The others are there if they are not of the device. -/
theorem filed_other (hp : p ∉ current stableId nm d) :
    (filed stableId nm d info s).services.get p =
      if p ∈ s.servicesOf d then none else s.services.get p := by
  show (dropAll _ _).services.get p = _
  rw [dropAll_get, publishAll_other stableId nm d hp]
  by_cases hold : p ∈ s.servicesOf d <;> simp [hold, hp]

theorem filed_other_some (hp : p ∉ current stableId nm d) {sv : Service}
    (hsv : (filed stableId nm d info s).services.get p = some sv) :
    p ∉ s.servicesOf d ∧ s.services.get p = some sv := by
  rw [filed_other hp] at hsv
  split at hsv
  · cases hsv
  · next hnot => exact ⟨hnot, hsv⟩

theorem filed_kept (hnm : nm.Of kindOf owner) (hinfo : s.nmDevices.get d = some info)
    (h : Kept stableId kindOf s) : Kept stableId kindOf (filed stableId nm d info s) := by
  refine ⟨fun e i hi => ?_, fun p sv hsv hown => ?_, fun e he p hp => ?_⟩
  · rw [filed_devices] at hi
    exact h.type e i hi
  · rw [filed_devices, filed_servicesOf]
    by_cases hp : p ∈ current stableId nm d
    · obtain ⟨n, hn, hpath, sv', hsv', hpub⟩ := filed_mem s info hp
      rw [hsv, Option.some.injEq] at hsv'
      subst hsv'
      rw [hpub.device, if_pos rfl]
      exact ⟨⟨info, hinfo⟩, hp⟩
    · obtain ⟨hnot, hget⟩ := filed_other_some hp hsv
      obtain ⟨hdev, hmem⟩ := h.owned p sv hget hown
      have hne : sv.nmDevicePath ≠ d := fun heq => hnot (heq ▸ hmem)
      rw [if_neg hne]
      exact ⟨hdev, hmem⟩
  · rw [filed_servicesOf] at hp
    split at hp
    · next heq =>
      -- a wired device has no access points, so it loses all services here
      subst heq
      have hnone : found nm e = [] := by
        rw [found, hnm.wired e he]
        rfl
      rw [current, hnone] at hp
      cases hp
    · exact h.wired e he p hp

/-- No access point of a network that goes out of range is in range with another name. -/
def NoMove (stableId : String → Option Bytes → String) (nm : Nm) (d : String) (s : State) : Prop :=
  ∀ q ∈ s.servicesOf d, q ∉ current stableId nm d → ∀ sv, s.services.get q = some sv →
    ∀ a ∈ sv.nmApPaths, ∀ ssid, ssid ≠ [] → ¬ Serves nm d ssid a

theorem owner_of_serves (hnm : nm.Of kindOf owner) {ssid : Bytes} {a : String}
    (h : Serves nm d ssid a) : owner a = d := by
  obtain ⟨ha, -⟩ := h
  cases haps : nm.accessPoints d with
  | none =>
    rw [haps] at ha
    cases ha
  | some aps =>
    rw [haps] at ha
    exact hnm.owner d aps a haps ha

theorem filed_mapped (hnm : nm.Of kindOf owner) (hmove : NoMove stableId nm d s)
    (h : Kept stableId kindOf s) (hm : Mapped owner s) :
    Mapped owner (filed stableId nm d info s) := by
  have haps : ∀ a, (∀ q ∈ (s.servicesOf d).filter (· ∉ current stableId nm d),
      ∀ sv, s.services.get q = some sv → a ∉ sv.nmApPaths) →
      (filed stableId nm d info s).apToService.get a =
        (publishAll stableId nm d info (found nm d) s).apToService.get a := by
    intro a ha
    refine dropAll_ap fun q hq sv hsv => ?_
    have hq' : q ∉ current stableId nm d := of_decide_eq_true (List.mem_filter.1 hq).2
    rw [publishAll_other stableId nm d hq'] at hsv
    exact ha q hq sv hsv
  refine ⟨fun p sv a hsv ha => ?_, fun p sv a hsv ha => ?_⟩
  · by_cases hp : p ∈ current stableId nm d
    · obtain ⟨n, hn, -, sv', hsv', hpub⟩ := filed_mem s info hp
      rw [hsv, Option.some.injEq] at hsv'
      subst hsv'
      rw [hpub.device]
      exact owner_of_serves hnm ((mem_aps_of_found hn a).1 (hpub.aps ▸ ha))
    · exact hm.owner p sv a (filed_other_some hp hsv).2 ha
  · by_cases hp : p ∈ current stableId nm d
    · obtain ⟨n, hn, hpath, sv', hsv', hpub⟩ := filed_mem s info hp
      rw [hsv, Option.some.injEq] at hsv'
      subst hsv'
      rw [hpub.aps] at ha
      have hserves := (mem_aps_of_found hn a).1 ha
      rw [haps a, publishAll_ap stableId nm d hn ha, hpath]
      · intro m hm' ham
        rw [found_unique hm' hn ham ha]
      · intro q hq sv' hsv' ha'
        obtain ⟨hq, hcur⟩ := List.mem_filter.1 hq
        exact hmove q hq (of_decide_eq_true hcur) sv' hsv' a ha' n.1 (mem_found.1 hn).1 hserves
    · obtain ⟨hnot, hget⟩ := filed_other_some hp hsv
      have hne : owner a ≠ d := by
        intro heq
        have hdev := hm.owner p sv a hget ha
        obtain ⟨-, hmem⟩ := h.owned p sv hget (Or.inr (List.ne_nil_of_mem ha))
        rw [← hdev, heq] at hmem
        exact hnot hmem
      rw [haps a, publishAll_ap_other stableId nm d, hm.back p sv a hget ha]
      · intro n hn ham
        exact hne (owner_of_serves hnm ((mem_aps_of_found hn a).1 ham))
      · intro q hq sv' hsv' ha'
        have hq' := (List.mem_filter.1 hq).1
        have hsame : q = p := by
          have h₁ := hm.back q sv' a hsv' ha'
          rw [hm.back p sv a hget ha, Option.some.injEq] at h₁
          exact h₁.symm
        exact hnot (hsame ▸ hq')

end Sync

/-! ### The other handlers -/

/-- A service put in the place of another, or of none. -/
theorem Kept.put (h : Kept stableId kindOf s) {sv : Service}
    (hsv : (sv.configured = false ∨ sv.nmApPaths ≠ []) →
      (∃ info, s.nmDevices.get sv.nmDevicePath = some info) ∧ p ∈ s.servicesOf sv.nmDevicePath) :
    Kept stableId kindOf { s with services := s.services.set p sv } := by
  refine ⟨h.type, fun p' sv' hsv' hown => ?_, h.wired⟩
  rw [Dict.get_set] at hsv'
  split at hsv'
  · next heq =>
    obtain rfl := Option.some.inj hsv'
    exact heq ▸ hsv hown
  · exact h.owned p' sv' hsv' hown

theorem Mapped.put (h : Mapped owner s) {sv : Service} (hsv : sv.nmApPaths = []) :
    Mapped owner { s with services := s.services.set p sv } := by
  refine ⟨fun p' sv' a hsv' ha => ?_, fun p' sv' a hsv' ha => ?_⟩
  · rw [Dict.get_set] at hsv'
    split at hsv'
    · obtain rfl := Option.some.inj hsv'
      rw [hsv] at ha
      cases ha
    · exact h.owner p' sv' a hsv' ha
  · rw [Dict.get_set] at hsv'
    split at hsv'
    · obtain rfl := Option.some.inj hsv'
      rw [hsv] at ha
      cases ha
    · exact h.back p' sv' a hsv' ha

/-- Services dropped; the access points of the others are none of theirs. -/
theorem Mapped.drop (h : Mapped owner s) (qs : List String) : Mapped owner (dropAll qs s) := by
  have hget : ∀ p sv, (dropAll qs s).services.get p = some sv →
      p ∉ qs ∧ s.services.get p = some sv := by
    intro p sv hsv
    rw [dropAll_get] at hsv
    split at hsv
    · cases hsv
    · next hnot => exact ⟨hnot, hsv⟩
  refine ⟨fun p sv a hsv ha => h.owner p sv a (hget p sv hsv).2 ha, fun p sv a hsv ha => ?_⟩
  obtain ⟨hnot, hsv⟩ := hget p sv hsv
  rw [dropAll_ap, h.back p sv a hsv ha]
  intro q hq sv' hsv' ha'
  have hsame : q = p := by
    have h₁ := h.back q sv' a hsv' ha'
    rw [h.back p sv a hsv ha, Option.some.injEq] at h₁
    exact h₁.symm
  exact hnot (hsame ▸ hq)

theorem Kept.drop (h : Kept stableId kindOf s) (qs : List String) :
    Kept stableId kindOf (dropAll qs s) := by
  have hframe := dropAll_frame qs s
  refine ⟨fun d info hinfo => ?_, fun p sv hsv hown => ?_, fun d hd p hp => ?_⟩
  · rw [hframe.1] at hinfo
    exact h.type d info hinfo
  · rw [dropAll_get] at hsv
    split at hsv
    · cases hsv
    · rw [State.servicesOf, hframe.1, hframe.2]
      exact h.owned p sv hsv hown
  · rw [State.servicesOf, hframe.2] at hp
    exact h.wired d hd p hp

/-- The wired device's service, before its state is set. -/
def wire (stableId : String → Option Bytes → String) (nm : Nm) (d : String) (info : Info)
    (s : State) : State :=
  let connection := savedConnection nm [] info.iface "802-3-ethernet"
  let sv := match s.services.get (ethernetPath stableId d) with
    | none => Service.new SHILL_TYPE_ETHERNET info.iface d [] connection
    | some sv => sv.setNmIdentity d [] connection
  { s with
    services := s.services.set (ethernetPath stableId d) sv
    deviceToServices := s.deviceToServices.set d [ethernetPath stableId d] }

theorem syncEthernetService_eq {info : Info} (hinfo : s.nmDevices.get d = some info) :
    syncEthernetService stableId nm d s =
      refreshServiceStates nm d (wire stableId nm d info s) := by
  unfold syncEthernetService
  rw [hinfo]
  rfl

variable (stableId nm d s) in
theorem wire_get (info : Info) : ∃ sv, (wire stableId nm d info s).services =
    s.services.set (ethernetPath stableId d) sv ∧ sv.nmDevicePath = d ∧ sv.nmApPaths = [] := by
  unfold wire
  refine ⟨_, rfl, ?_⟩
  cases s.services.get (ethernetPath stableId d) <;> exact ⟨rfl, rfl⟩

theorem wire_servicesOf (info : Info) (e : String) : (wire stableId nm d info s).servicesOf e =
    if e = d then [ethernetPath stableId d] else s.servicesOf e := by
  unfold wire State.servicesOf
  simp only [Dict.get_set]
  split <;> rfl

theorem wire_kept {info : Info} (hd : kindOf d ≠ SHILL_TYPE_WIFI)
    (hinfo : s.nmDevices.get d = some info) (h : Kept stableId kindOf s) :
    Kept stableId kindOf (wire stableId nm d info s) := by
  obtain ⟨sv₀, hservices, hdev, -⟩ := wire_get stableId nm s d info
  refine ⟨h.type, fun p sv hsv hown => ?_, fun e he p hp => ?_⟩
  · rw [hservices, Dict.get_set] at hsv
    rw [wire_servicesOf]
    split at hsv
    · next heq =>
      obtain rfl := Option.some.inj hsv
      rw [hdev, if_pos rfl]
      exact ⟨⟨info, hinfo⟩, List.mem_singleton.2 heq⟩
    · next hne =>
      obtain ⟨hknown, hmem⟩ := h.owned p sv hsv hown
      by_cases heq : sv.nmDevicePath = d
      · exact absurd (h.wired d hd p (heq ▸ hmem)) hne
      · rw [if_neg heq]
        exact ⟨hknown, hmem⟩
  · rw [wire_servicesOf] at hp
    split at hp
    · next heq =>
      subst heq
      exact List.mem_singleton.1 hp
    · exact h.wired e he p hp

theorem wire_mapped (info : Info) (hm : Mapped owner s) :
    Mapped owner (wire stableId nm d info s) := by
  obtain ⟨sv₀, hservices, -, haps⟩ := wire_get stableId nm s d info
  have hput := hm.put (p := ethernetPath stableId d) haps
  refine ⟨fun p sv a hsv ha => ?_, fun p sv a hsv ha => ?_⟩
  · rw [hservices] at hsv
    exact hput.owner p sv a hsv ha
  · rw [hservices] at hsv
    exact hput.back p sv a hsv ha

/-- What is known of a device, brought up to date. -/
theorem Kept.device (h : Kept stableId kindOf s) {info : Info} (hinfo : info.type = kindOf d) :
    Kept stableId kindOf { s with nmDevices := s.nmDevices.set d info } := by
  refine ⟨fun e i hi => ?_, fun p sv hsv hown => ?_, h.wired⟩
  · rw [Dict.get_set] at hi
    split at hi
    · next heq =>
      obtain rfl := Option.some.inj hi
      rw [heq]
      exact hinfo
    · exact h.type e i hi
  · obtain ⟨⟨i, hi⟩, hmem⟩ := h.owned p sv hsv hown
    refine ⟨?_, hmem⟩
    show ∃ i, (s.nmDevices.set d info).get sv.nmDevicePath = some i
    rw [Dict.get_set]
    split
    · exact ⟨info, rfl⟩
    · exact ⟨i, hi⟩

theorem syncAccessPoints_kept (hnm : nm.Of kindOf owner) (d : String) (h : Kept stableId kindOf s) :
    Kept stableId kindOf (syncAccessPoints stableId nm d s) := by
  cases hinfo : s.nmDevices.get d with
  | none =>
    unfold syncAccessPoints
    rwa [hinfo]
  | some info =>
    rw [syncAccessPoints_eq hinfo]
    exact (filed_kept hnm hinfo h).alike (refresh_alike nm d _)

theorem syncAccessPoints_mapped (hnm : nm.Of kindOf owner)
    (hmove : s.nmDevices.get d ≠ none → NoMove stableId nm d s)
    (h : Kept stableId kindOf s) (hm : Mapped owner s) :
    Mapped owner (syncAccessPoints stableId nm d s) := by
  cases hinfo : s.nmDevices.get d with
  | none =>
    unfold syncAccessPoints
    rwa [hinfo]
  | some info =>
    rw [syncAccessPoints_eq hinfo]
    exact (filed_mapped hnm (hmove (by simp [hinfo])) h hm).alike (refresh_alike nm d _)

theorem addDevice_eq {info : Info} (hinfo : nm.info d = some info) :
    addDevice stableId nm d s =
      if info.type = SHILL_TYPE_WIFI then
        syncAccessPoints stableId nm d { s with nmDevices := s.nmDevices.set d info }
      else syncEthernetService stableId nm d { s with nmDevices := s.nmDevices.set d info } := by
  unfold addDevice
  rw [hinfo]

theorem addDevice_kept (hnm : nm.Of kindOf owner) (d : String) (h : Kept stableId kindOf s) :
    Kept stableId kindOf (addDevice stableId nm d s) := by
  unfold addDevice
  split
  · exact h
  · next info hinfo =>
    have htype := hnm.info d info hinfo
    have hdevice := h.device htype
    split
    · exact syncAccessPoints_kept hnm d hdevice
    · next hwired =>
      have hget : ({ s with nmDevices := s.nmDevices.set d info } : State).nmDevices.get d =
          some info := by
        simp
      rw [syncEthernetService_eq hget]
      exact (wire_kept (htype ▸ hwired) hget hdevice).alike (refresh_alike nm d _)

theorem addDevice_mapped (hnm : nm.Of kindOf owner)
    (hmove : nm.info d ≠ none → NoMove stableId nm d s)
    (h : Kept stableId kindOf s) (hm : Mapped owner s) :
    Mapped owner (addDevice stableId nm d s) := by
  unfold addDevice
  split
  · exact hm
  · next info hinfo =>
    have hm' : Mapped owner { s with nmDevices := s.nmDevices.set d info } := ⟨hm.owner, hm.back⟩
    split
    · exact syncAccessPoints_mapped hnm (fun _ => hmove (by simp [hinfo])) (h.device (hnm.info d info hinfo)) hm'
    · have hget : ({ s with nmDevices := s.nmDevices.set d info } : State).nmDevices.get d =
          some info := by
        simp
      rw [syncEthernetService_eq hget]
      exact (wire_mapped info hm').alike (refresh_alike nm d _)

theorem removeDevice_kept (d : String) (h : Kept stableId kindOf s) :
    Kept stableId kindOf (removeDevice d s) := by
  have hd := h.drop (s.servicesOf d)
  have hof : ∀ e, (removeDevice d s).servicesOf e = if e = d then [] else s.servicesOf e := by
    intro e
    show (((dropAll (s.servicesOf d) s).deviceToServices.pop d).get e).getD [] = _
    rw [Dict.get_pop, (dropAll_frame _ _).2]
    split <;> rfl
  have hknown : ∀ e, (removeDevice d s).nmDevices.get e = if e = d then none else
      s.nmDevices.get e := by
    intro e
    show ((dropAll (s.servicesOf d) s).nmDevices.pop d).get e = _
    rw [Dict.get_pop, (dropAll_frame _ _).1]
  refine ⟨fun e info hinfo => ?_, fun p sv hsv hown => ?_, fun e he p hp => ?_⟩
  · rw [hknown] at hinfo
    split at hinfo
    · cases hinfo
    · exact h.type e info hinfo
  · have hsv' : (dropAll (s.servicesOf d) s).services.get p = some sv := hsv
    rw [dropAll_get] at hsv'
    split at hsv'
    · cases hsv'
    · next hnot =>
      obtain ⟨hdev, hmem⟩ := h.owned p sv hsv' hown
      have hne : sv.nmDevicePath ≠ d := fun heq => hnot (heq ▸ hmem)
      rw [hknown, hof, if_neg hne, if_neg hne]
      exact ⟨hdev, hmem⟩
  · rw [hof] at hp
    split at hp
    · cases hp
    · exact h.wired e he p hp

theorem createConfigured_kept (args : Args) (guid : String) (h : Kept stableId kindOf s) :
    Kept stableId kindOf (createConfiguredService args guid s) :=
  h.put fun hown => hown.elim (fun hc => by cases hc) fun hne => absurd rfl hne

theorem createConfigured_mapped (args : Args) (guid : String) (hm : Mapped owner s) :
    Mapped owner (createConfiguredService args guid s) :=
  hm.put rfl

/-- What an event does to a state where it keeps one of the two. -/
theorem removeService_cases (p : String) (s : State) :
    Alike s (removeService p s) ∨ ∃ s', Alike s s' ∧ removeService p s = dropAll [p] s' := by
  unfold removeService
  split
  · exact Or.inl (Alike.refl s)
  · next sv hsv =>
    have hcalls : ∀ s' : State, s'.services = s.services → s'.nmDevices = s.nmDevices →
        s'.apToService = s.apToService → s'.deviceToServices = s.deviceToServices → Alike s s' := by
      intro s' h₁ h₂ h₃ h₄
      exact ⟨fun _ => by rw [h₁], fun _ => by rw [h₂], h₃, h₄⟩
    have hdelete : Alike s (if sv.nmConnectionPath ≠ "" then
        { s with calls := s.calls ++ [.delete sv.nmConnectionPath] } else s) := by
      split
      · exact hcalls _ rfl rfl rfl rfl
      · exact Alike.refl s
    simp only
    split
    · exact Or.inl (hdelete.trans (alike_update (by intro sv; rfl) p _))
    · exact Or.inr ⟨_, hdelete, rfl⟩

/-! ### Events -/

/-- The event synchronises the services of a device. -/
def Syncs (nm : Nm) (e : Event) (d : String) (s : State) : Prop :=
  match e with
  | .deviceAdded d' => d' = d ∧ nm.info d ≠ none
  | .accessPointsChanged d' => d' = d ∧ s.nmDevices.get d ≠ none
  | .apPropsChanged ap => (∃ sv, (s.apToService.get ap).bind s.services.get = some sv ∧
      sv.nmDevicePath = d) ∧ s.nmDevices.get d ≠ none
  | _ => False

/-- No synchronisation of a run finds an access point of a network that goes out of range under
another name. -/
def Steady (stableId : String → Option Bytes → String) : List (Nm × Event) → State → Prop
  | [], _ => True
  | x :: xs, s => (∀ d, Syncs x.1 x.2 d s → NoMove stableId x.1 d s) ∧
      Steady stableId xs (step stableId x.1 x.2 s)

variable (stableId) in
/-- What the events do that read no access points. -/
theorem step_cases (nm : Nm) (e : Event) (s : State) :
    (∃ d, e = .deviceAdded d) ∨ (∃ d, e = .deviceRemoved d) ∨ (∃ d, e = .accessPointsChanged d) ∨
    (∃ ap, e = .apPropsChanged ap) ∨ Alike s (step stableId nm e s) ∨
    (∃ qs s', Alike s s' ∧ step stableId nm e s = dropAll qs s') ∨
    ∃ args guid, step stableId nm e s = createConfiguredService args guid s := by
  cases e with
  | deviceAdded d => exact Or.inl ⟨d, rfl⟩
  | deviceRemoved d => exact Or.inr (Or.inl ⟨d, rfl⟩)
  | accessPointsChanged d => exact Or.inr (Or.inr (Or.inl ⟨d, rfl⟩))
  | apPropsChanged ap => exact Or.inr (Or.inr (Or.inr (Or.inl ⟨ap, rfl⟩)))
  | devicePropsChanged d state =>
    refine Or.inr (Or.inr (Or.inr (Or.inr (Or.inl ?_))))
    show Alike s (onDevicePropsChanged nm d state s)
    unfold onDevicePropsChanged
    split
    · exact Alike.refl s
    · next info hget =>
      have hdevice := alike_device { info with state := state.getD info.state } hget rfl
      exact hdevice.trans (refresh_alike nm d _)
  | connect p => exact Or.inr (Or.inr (Or.inr (Or.inr (Or.inl (connect_alike nm p s)))))
  | disconnect p => exact Or.inr (Or.inr (Or.inr (Or.inr (Or.inl (disconnect_alike nm p s)))))
  | setPassphrase p passphrase =>
    exact Or.inr (Or.inr (Or.inr (Or.inr (Or.inl (alike_update (by intro sv; rfl) p s)))))
  | remove p =>
    rcases removeService_cases p s with h | ⟨s', h, heq⟩
    · exact Or.inr (Or.inr (Or.inr (Or.inr (Or.inl h))))
    · exact Or.inr (Or.inr (Or.inr (Or.inr (Or.inr (Or.inl ⟨[p], s', h, heq⟩)))))
  | configure args guid =>
    exact Or.inr (Or.inr (Or.inr (Or.inr (Or.inr (Or.inr ⟨args, guid, rfl⟩)))))
  | getService asked args guid =>
    by_cases hfound : s.services.entries.any fun e => asked e.2
    · refine Or.inr (Or.inr (Or.inr (Or.inr (Or.inl ?_))))
      show Alike s (getService asked args guid s)
      rw [getService, if_pos hfound]
      exact Alike.refl s
    · exact Or.inr (Or.inr (Or.inr (Or.inr (Or.inr (Or.inr ⟨args, guid, if_neg hfound⟩)))))

theorem step_kept (hnm : nm.Of kindOf owner) (e : Event) (h : Kept stableId kindOf s) :
    Kept stableId kindOf (step stableId nm e s) := by
  rcases step_cases stableId nm e s with ⟨d, rfl⟩ | ⟨d, rfl⟩ | ⟨d, rfl⟩ | ⟨ap, rfl⟩ |
    halike | ⟨qs, s', halike, heq⟩ | ⟨args, guid, heq⟩
  · exact addDevice_kept hnm d h
  · exact removeDevice_kept d h
  · exact syncAccessPoints_kept hnm d h
  · show Kept stableId kindOf (onApPropsChanged stableId nm ap s)
    unfold onApPropsChanged
    split
    · exact h
    · exact syncAccessPoints_kept hnm _ h
  · exact h.alike halike
  · rw [heq]
    exact (h.alike halike).drop qs
  · rw [heq]
    exact createConfigured_kept args guid h

theorem step_mapped (hnm : nm.Of kindOf owner) (e : Event)
    (hsteady : ∀ d, Syncs nm e d s → NoMove stableId nm d s) (h : Kept stableId kindOf s)
    (hm : Mapped owner s) : Mapped owner (step stableId nm e s) := by
  rcases step_cases stableId nm e s with ⟨d, rfl⟩ | ⟨d, rfl⟩ | ⟨d, rfl⟩ | ⟨ap, rfl⟩ |
    halike | ⟨qs, s', halike, heq⟩ | ⟨args, guid, heq⟩
  · exact addDevice_mapped hnm (fun hinfo => hsteady d ⟨rfl, hinfo⟩) h hm
  · have hdrop := hm.drop (s.servicesOf d)
    exact ⟨hdrop.owner, hdrop.back⟩
  · exact syncAccessPoints_mapped hnm (fun hknown => hsteady d ⟨rfl, hknown⟩) h hm
  · show Mapped owner (onApPropsChanged stableId nm ap s)
    unfold onApPropsChanged
    split
    · exact hm
    · next sv hsv =>
      exact syncAccessPoints_mapped hnm
        (fun hknown => hsteady _ ⟨⟨sv, hsv, rfl⟩, hknown⟩) h hm
  · exact hm.alike halike
  · rw [heq]
    exact (hm.alike halike).drop qs
  · rw [heq]
    exact createConfigured_mapped args guid hm

theorem init_kept : Kept stableId kindOf .init :=
  ⟨fun d info h => (by cases h), fun p sv h => (by cases h), fun d _ p h => (by cases h)⟩

theorem init_mapped : Mapped owner .init :=
  ⟨fun p sv a h => (by cases h), fun p sv a h => (by cases h)⟩

theorem run_kept {es : List (Nm × Event)} (hes : ∀ x ∈ es, x.1.Of kindOf owner)
    (h : Kept stableId kindOf s) : Kept stableId kindOf (run stableId es s) := by
  induction es generalizing s with
  | nil => exact h
  | cons x xs ih =>
    obtain ⟨hx, hxs⟩ := List.forall_mem_cons.1 hes
    exact ih hxs (step_kept hx x.2 h)

theorem run_mapped {es : List (Nm × Event)} (hes : ∀ x ∈ es, x.1.Of kindOf owner)
    (hsteady : Steady stableId es s) (h : Kept stableId kindOf s) (hm : Mapped owner s) :
    Mapped owner (run stableId es s) := by
  induction es generalizing s with
  | nil => exact hm
  | cons x xs ih =>
    obtain ⟨hx, hxs⟩ := List.forall_mem_cons.1 hes
    exact ih hxs hsteady.2 (step_kept hx x.2 h) (step_mapped hx x.2 hsteady.1 h hm)

/-! ## What a synchronisation leaves -/

/-- The networks in range of a device are told apart by the paths of their services. -/
def Distinct (stableId : String → Option Bytes → String) (nm : Nm) (d : String) : Prop :=
  ∀ ssid ssid', InRange nm d ssid → InRange nm d ssid' →
    wifiPath stableId d ssid = wifiPath stableId d ssid' → ssid = ssid'

/-- The services of a device follow what NetworkManager says of it. -/
structure Synced (stableId : String → Option Bytes → String) (nm : Nm) (d : String) (s : State) :
    Prop where
  /-- One service a network in range. -/
  scanned : ∀ info, s.nmDevices.get d = some info → info.type = SHILL_TYPE_WIFI →
    ∀ p, p ∈ s.servicesOf d ↔ ∃ ssid, InRange nm d ssid ∧ p = wifiPath stableId d ssid
  /-- It is that network's, with all of its access points. -/
  published : ∀ info, s.nmDevices.get d = some info → info.type = SHILL_TYPE_WIFI →
    Distinct stableId nm d → ∀ ssid, InRange nm d ssid →
      ∃ sv, s.services.get (wifiPath stableId d ssid) = some sv ∧ sv.ssid = ssid ∧
        sv.nmDevicePath = d ∧ ∀ a, a ∈ sv.nmApPaths ↔ Serves nm d ssid a
  states : StatesFollow nm d s

theorem mem_current : p ∈ current stableId nm d ↔
    ∃ ssid, InRange nm d ssid ∧ p = wifiPath stableId d ssid := by
  unfold current
  rw [List.mem_map]
  constructor
  · intro h
    obtain ⟨n, hn, rfl⟩ := h
    exact ⟨n.1, inRange_iff.2 ⟨n, hn, rfl⟩, rfl⟩
  · intro h
    obtain ⟨ssid, hssid, rfl⟩ := h
    obtain ⟨n, hn, rfl⟩ := inRange_iff.1 hssid
    exact ⟨n, hn, rfl⟩

theorem syncAccessPoints_synced {info : Info} (hinfo : s.nmDevices.get d = some info) :
    Synced stableId nm d (syncAccessPoints stableId nm d s) := by
  rw [syncAccessPoints_eq hinfo]
  have halike := refresh_alike nm d (filed stableId nm d info s)
  refine ⟨fun _ _ _ p => ?_, fun _ _ _ hdistinct ssid hssid => ?_, refresh_follow nm d _⟩
  · rw [halike.servicesOf, filed_servicesOf, if_pos rfl]
    exact mem_current
  · obtain ⟨n, hn, hpath, sv, hsv, hpub⟩ :=
      filed_mem s info (mem_current.2 ⟨ssid, hssid, rfl⟩)
    have hname : n.1 = ssid :=
      hdistinct n.1 ssid (inRange_iff.2 ⟨n, hn, rfl⟩) hssid hpath
    have hmap := halike.services (wifiPath stableId d ssid)
    rw [hsv, Option.map_some, Option.map_eq_some_iff] at hmap
    obtain ⟨sv', hsv', hid⟩ := hmap
    obtain ⟨-, hdev, haps, hssid'⟩ := identity_eq_iff.1 hid
    refine ⟨sv', hsv', hssid'.trans (hpub.ssid.trans hname), hdev.trans hpub.device, fun a => ?_⟩
    rw [haps, hpub.aps, mem_aps_of_found hn a, hname]

theorem step_synced {e : Event} (hsync : Syncs nm e d s) : Synced stableId nm d (step stableId nm e s) := by
  cases e with
  | deviceAdded d' =>
    obtain ⟨rfl, hknown⟩ := hsync
    obtain ⟨info, hinfo⟩ := Option.ne_none_iff_exists'.1 hknown
    show Synced stableId nm d' (addDevice stableId nm d' s)
    rw [addDevice_eq hinfo]
    have hget : ({ s with nmDevices := s.nmDevices.set d' info } : State).nmDevices.get d' =
        some info := by
      simp
    by_cases hwifi : info.type = SHILL_TYPE_WIFI
    · rw [if_pos hwifi]
      exact syncAccessPoints_synced hget
    · rw [if_neg hwifi, syncEthernetService_eq hget]
      have htype : ∀ i, (refreshServiceStates nm d' (wire stableId nm d' info
          { s with nmDevices := s.nmDevices.set d' info })).nmDevices.get d' = some i →
          i.type ≠ SHILL_TYPE_WIFI := by
        intro i hi
        obtain ⟨i₀, hi₀, heq⟩ := (refresh_alike nm d' _).device hi
        have hsame : i₀ = info := Option.some.inj (hi₀.symm.trans hget)
        rw [heq, hsame]
        exact hwifi
      exact ⟨fun i hi hw => absurd hw (htype i hi), fun i hi hw => absurd hw (htype i hi),
        refresh_follow nm d' _⟩
  | accessPointsChanged d' =>
    obtain ⟨rfl, hknown⟩ := hsync
    obtain ⟨info, hinfo⟩ := Option.ne_none_iff_exists'.1 hknown
    exact syncAccessPoints_synced hinfo
  | apPropsChanged ap =>
    obtain ⟨⟨sv, hsv, rfl⟩, hknown⟩ := hsync
    obtain ⟨info, hinfo⟩ := Option.ne_none_iff_exists'.1 hknown
    show Synced stableId nm _ (onApPropsChanged stableId nm ap s)
    unfold onApPropsChanged
    rw [hsv]
    exact syncAccessPoints_synced hinfo
  | _ => exact hsync.elim

end Invariants

/-- **The published services follow NetworkManager.** After every run, a service that no call
configured is one of a device that is known; every synchronisation leaves the services of its device
as `Synced` says; and after a steady run the access points of every service lead back to it. -/
theorem services_follow (stableId : String → Option Bytes → String) (kindOf owner : String → String)
    (es : List (Nm × Event)) (hes : ∀ x ∈ es, x.1.Of kindOf owner) :
    (∀ p sv, (run stableId es .init).services.get p = some sv → sv.configured = false →
      (∃ info, (run stableId es .init).nmDevices.get sv.nmDevicePath = some info) ∧
        p ∈ (run stableId es .init).servicesOf sv.nmDevicePath) ∧
    (∀ nm e d, Syncs nm e d (run stableId es .init) →
      Synced stableId nm d (step stableId nm e (run stableId es .init))) ∧
    (Steady stableId es .init → ∀ p sv a, (run stableId es .init).services.get p = some sv →
      a ∈ sv.nmApPaths → (run stableId es .init).apToService.get a = some p) := by
  have hkept : Kept stableId kindOf (run stableId es .init) := run_kept hes init_kept
  refine ⟨fun p sv hsv hconf => hkept.owned p sv hsv (Or.inl hconf), fun nm e d hsync => ?_,
    fun hsteady => ?_⟩
  · exact step_synced hsync
  · exact (run_mapped hes hsteady init_kept init_mapped).back

/-! ## A machine with a wire and a radio -/

def wlan : String := "/org/freedesktop/NetworkManager/Devices/3"

def eth : String := "/org/freedesktop/NetworkManager/Devices/2"

def beacon : String := "/org/freedesktop/NetworkManager/AccessPoint/1"

/-- The identities of its networks and of its wire. -/
def digest (device : String) (ssid : Option Bytes) : String :=
  if device = eth then "ee7e9884b2aa1daccfe14b15"
  else if ssid = some (text "home") then "f33cfb89c1e220505d77c305"
  else if ssid = some (text "work") then "aa4f95a5977271b97fe72750"
  else "793e45836f45eb1847d12156"

def kinds (device : String) : String := if device = wlan then SHILL_TYPE_WIFI else SHILL_TYPE_ETHERNET

/-- The wire is connected by a profile nobody saved, the one access point has the name, and the radio
is on the connection with another. -/
def net (ssid active : String) : Nm where
  devices := some [eth, wlan]
  info device :=
    if device = wlan then some ⟨SHILL_TYPE_WIFI, 100, "wlan0"⟩
    else if device = eth then some ⟨SHILL_TYPE_ETHERNET, 100, "eth0"⟩
    else none
  accessPoints device := if device = wlan then some [beacon] else none
  ap path := if path = beacon then some ⟨text ssid, 80, false⟩ else none
  connections := some []
  props device :=
    if device = wlan then some ⟨100, active, "/org/freedesktop/NetworkManager/AccessPoint/2", none⟩
    else some ⟨100, "/org/freedesktop/NetworkManager/ActiveConnection/1", "/", none⟩
  settingsOf _ := some "/org/freedesktop/NetworkManager/Settings/9"
  hasSettings _ := true
  update := .done
  activate := .done
  added := "/org/freedesktop/NetworkManager/Settings/10"
  deactivate := .done

theorem net_of (ssid active : String) : (net ssid active).Of kinds fun _ => wlan := by
  refine ⟨fun d i hi => ?_, fun d hd => ?_, fun d aps a haps _ => ?_⟩
  · unfold net at hi
    simp only at hi
    split at hi
    · next hd =>
      obtain rfl := Option.some.inj hi
      exact (if_pos hd).symm
    · next hd =>
      split at hi
      · obtain rfl := Option.some.inj hi
        exact (if_neg hd).symm
      · cases hi
  · by_contra hne
    have hwlan : d = wlan := by
      by_contra hnot
      exact hne (if_neg hnot)
    exact hd (if_pos hwlan)
  · by_contra hne
    have hnone : (net ssid active).accessPoints d = none := if_neg fun hd => hne hd.symm
    rw [hnone] at haps
    cases haps

theorem services_follow_home :
    Synced digest (net "work" "/") wlan (step digest (net "work" "/") (.accessPointsChanged wlan)
      (run digest [(net "home" "/", .deviceAdded wlan)] .init)) ∧
    ∀ p sv a, (run digest [(net "home" "/", .deviceAdded wlan)] .init).services.get p = some sv →
      a ∈ sv.nmApPaths →
      (run digest [(net "home" "/", .deviceAdded wlan)] .init).apToService.get a = some p := by
  have h := services_follow digest kinds (fun _ => wlan) [(net "home" "/", .deviceAdded wlan)]
    (by
      intro x hx
      obtain rfl := List.mem_singleton.1 hx
      exact net_of "home" "/")
  refine ⟨h.2.1 _ _ _ ⟨rfl, by decide⟩, h.2.2 ⟨fun d hd => ?_, trivial⟩⟩
  intro q hq
  cases hq

/-- A wire is active with a connection that is not its service's own. An access point that changes
its name is no longer mapped. A configured service outlives its device. And to disconnect a network
that the radio is not on takes down the one it is on. -/
theorem services_astray :
    ((run digest [(net "home" "/", .deviceAdded eth)] .init).services.get (ethernetPath digest eth)).map
        (fun sv => (sv.nmConnectionPath, sv.nmApPaths, sv.state)) = some ("", [], "online") ∧
    (((run digest [(net "home" "/", .deviceAdded wlan), (net "work" "/", .apPropsChanged beacon)]
        .init).services.get (wifiPath digest wlan (text "work"))).map Service.nmApPaths = some [beacon] ∧
      (run digest [(net "home" "/", .deviceAdded wlan), (net "work" "/", .apPropsChanged beacon)]
        .init).apToService.get beacon = none) ∧
    (((run digest [(net "home" "/", .deviceAdded wlan),
        (net "home" "/", .configure ⟨some "wifi", some "typed", none, some (text "attic"), none, none,
          none, none, none⟩ ""), (net "home" "/", .deviceRemoved wlan)] .init).services.get
        "/service/typed").map Service.nmDevicePath = some wlan ∧
      (run digest [(net "home" "/", .deviceAdded wlan),
        (net "home" "/", .configure ⟨some "wifi", some "typed", none, some (text "attic"), none, none,
          none, none, none⟩ ""), (net "home" "/", .deviceRemoved wlan)] .init).nmDevices.get wlan =
        none) ∧
    (run digest [(net "home" "/active", .deviceAdded wlan),
      (net "home" "/active", .disconnect (wifiPath digest wlan (text "home")))] .init).calls =
      [.deactivate "/active"] ∧
    ((run digest [(net "home" "/active", .deviceAdded wlan)] .init).services.get
      (wifiPath digest wlan (text "home"))).map Service.state = some SHILL_STATE_IDLE := by
  decide

end Aurade.Network
