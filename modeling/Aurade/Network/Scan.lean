import Aurade.Network.Monitor

/-!
# One scan

What the handlers leave of the three maps: two states that agree on what the maps have to agree on
(`Alike`), the networks that the readable access points make up (`InRange`), what publishing and
dropping do to the services, and the states that a refresh gives them (`StatesFollow`).
-/

namespace Aurade.Network

variable {stableId : String → Option Bytes → String} {nm : Nm} {s s' : State} {d p : String}

/-! ## States that tell the same of the maps -/

/-- What the maps have to agree with of a service. -/
def Service.identity (sv : Service) : Bool × String × List String × Bytes :=
  (sv.configured, sv.nmDevicePath, sv.nmApPaths, sv.ssid)

theorem identity_eq_iff {sv sv' : Service} : sv.identity = sv'.identity ↔
    sv.configured = sv'.configured ∧ sv.nmDevicePath = sv'.nmDevicePath ∧
      sv.nmApPaths = sv'.nmApPaths ∧ sv.ssid = sv'.ssid := by
  simp [Service.identity]

/-- The services are those of before, changed in nothing that the maps have to agree with. -/
structure Alike (s s' : State) : Prop where
  services : ∀ p, (s'.services.get p).map Service.identity = (s.services.get p).map Service.identity
  devices : ∀ d, (s'.nmDevices.get d).map Info.type = (s.nmDevices.get d).map Info.type
  aps : s'.apToService = s.apToService
  ofDevices : s'.deviceToServices = s.deviceToServices

theorem Alike.refl (s : State) : Alike s s := ⟨fun _ => rfl, fun _ => rfl, rfl, rfl⟩

theorem Alike.trans {a b c : State} (h : Alike a b) (h' : Alike b c) : Alike a c :=
  ⟨fun p => (h'.services p).trans (h.services p), fun d => (h'.devices d).trans (h.devices d),
    h'.aps.trans h.aps, h'.ofDevices.trans h.ofDevices⟩

theorem alike_trans (a b c : State) (h : Alike a b) (h' : Alike b c) : Alike a c := h.trans h'

theorem Alike.servicesOf (h : Alike s s') (d : String) : s'.servicesOf d = s.servicesOf d := by
  rw [State.servicesOf, State.servicesOf, h.ofDevices]

/-- A service of the later state was one of the earlier. -/
theorem Alike.service (h : Alike s s') {sv' : Service} (hget : s'.services.get p = some sv') :
    ∃ sv, s.services.get p = some sv ∧ sv'.identity = sv.identity := by
  have hmap := h.services p
  rw [hget, Option.map_some, eq_comm, Option.map_eq_some_iff] at hmap
  obtain ⟨sv, hsv, heq⟩ := hmap
  exact ⟨sv, hsv, heq.symm⟩

theorem Alike.device (h : Alike s s') {info' : Info} (hget : s'.nmDevices.get d = some info') :
    ∃ info, s.nmDevices.get d = some info ∧ info'.type = info.type := by
  have hmap := h.devices d
  rw [hget, Option.map_some, eq_comm, Option.map_eq_some_iff] at hmap
  obtain ⟨info, hinfo, heq⟩ := hmap
  exact ⟨info, hinfo, heq.symm⟩

theorem Alike.device_back (h : Alike s s') {info : Info} (hget : s.nmDevices.get d = some info) :
    ∃ info', s'.nmDevices.get d = some info' := by
  have hmap := h.devices d
  rw [hget, Option.map_some, Option.map_eq_some_iff] at hmap
  obtain ⟨info', hinfo', -⟩ := hmap
  exact ⟨info', hinfo'⟩

theorem alike_update {f : Service → Service} (hf : ∀ sv, (f sv).identity = sv.identity) (p : String)
    (s : State) : Alike s (s.update p f) := by
  refine ⟨fun p' => ?_, fun _ => rfl, rfl, rfl⟩
  show ((s.services.modify p f).get p').map _ = _
  rw [Dict.get_modify]
  split
  · next h =>
    subst h
    cases s.services.get p' with
    | none => rfl
    | some sv => exact congrArg some (hf sv)
  · rfl

theorem alike_foldl {ι : Type} {f : State → ι → State} (hf : ∀ s x, Alike s (f s x)) (xs : List ι)
    (s : State) : Alike s (xs.foldl f s) := by
  induction xs generalizing s with
  | nil => exact Alike.refl s
  | cons x xs ih => exact (hf s x).trans (ih _)

theorem identity_refreshed (type : String) (q : DeviceProps) (sv : Service) :
    (refreshed nm type q sv).identity = sv.identity := by
  unfold refreshed Service.setFailure
  split
  · split <;> rfl
  · split <;> rfl

theorem alike_device {info : Info} (info' : Info) (hget : s.nmDevices.get d = some info)
    (htype : info'.type = info.type) :
    Alike s { s with nmDevices := s.nmDevices.set d info' } := by
  refine ⟨fun _ => rfl, fun d' => ?_, rfl, rfl⟩
  show ((s.nmDevices.set d info').get d').map _ = _
  rw [Dict.get_set]
  split
  · next h =>
    subst h
    rw [hget, Option.map_some, Option.map_some, htype]
  · rfl

/-- The states of the services are none of the maps' business. -/
theorem refresh_alike (nm : Nm) (d : String) (s : State) :
    Alike s (refreshServiceStates nm d s) := by
  unfold refreshServiceStates
  split
  · exact Alike.refl s
  · next info hget =>
    have hdevice := alike_device { info with state := (readProps nm d info).state } hget rfl
    exact hdevice.trans (alike_foldl (fun s p => alike_update (identity_refreshed _ _) p s) _ _)

/-! ## Requests -/

theorem callNm_alike (p : String) (c : Call) (r : Reply) : Act.Stays Alike (callNm p c r) := by
  unfold callNm
  refine Act.Stays.bind alike_trans (fun s => ⟨fun _ => rfl, fun _ => rfl, rfl, rfl⟩)
    fun _ => ?_
  cases r with
  | done => exact Act.Stays.pure Alike.refl ()
  | dbusError => exact Act.Stays.fail Alike.refl _
  | failed =>
    exact Act.Stays.bind alike_trans (fun s => alike_update (by intro sv; rfl) p s)
      fun _ => Act.Stays.fail Alike.refl _

theorem modify_alike {f : State → State} (hf : ∀ s, Alike s (f s)) :
    Act.Stays Alike (Act.modify f : Handler Unit) := hf

theorem stays_then {m m' : Handler Unit} (hm : Act.Stays Alike m) (hm' : Act.Stays Alike m') :
    Act.Stays Alike (m >>= fun _ => m') := Act.Stays.bind alike_trans hm fun _ => hm'

theorem activateService_alike (nm : Nm) (p : String) (sv : Service) :
    Act.Stays Alike (activateService nm p sv) := by
  unfold activateService
  refine Act.Stays.ite (fun _ => Act.Stays.ite (fun _ => ?_) fun _ => callNm_alike _ _ _) fun _ => ?_
  · exact stays_then (callNm_alike _ _ _) (callNm_alike _ _ _)
  · exact stays_then (callNm_alike _ _ _) (modify_alike fun s => alike_update (by intro sv; rfl) p s)

theorem connect_alike (nm : Nm) (p : String) : Act.Stays Alike (connectService nm p) := by
  unfold connectService
  refine Act.Stays.bind alike_trans (fun s => Alike.refl s) fun s => ?_
  cases s.services.get p with
  | none => exact Act.Stays.pure Alike.refl ()
  | some sv =>
    refine Act.Stays.bind alike_trans
      (modify_alike fun s => alike_update (by intro sv; rfl) p s) fun _ => ?_
    refine Act.Stays.ite (fun _ => Act.Stays.fail Alike.refl _) fun _ => ?_
    exact Act.Stays.bind alike_trans (activateService_alike nm p sv)
      fun _ => modify_alike (refresh_alike nm _)

theorem disconnect_alike (nm : Nm) (p : String) : Act.Stays Alike (disconnectService nm p) := by
  unfold disconnectService
  refine Act.Stays.bind alike_trans (fun s => Alike.refl s) fun s => ?_
  cases s.services.get p with
  | none => exact Act.Stays.pure Alike.refl ()
  | some sv =>
    dsimp only
    cases nm.props sv.nmDevicePath with
    | none =>
      exact stays_then (modify_alike fun s => alike_update (by intro sv; rfl) p s)
        (Act.Stays.fail Alike.refl _)
    | some q =>
      refine Act.Stays.ite (fun _ => ?_) fun _ => ?_
      · exact stays_then (callNm_alike _ _ _) (stays_then
          (modify_alike fun s => alike_update (by intro sv; rfl) p s) (modify_alike (refresh_alike nm _)))
      · exact stays_then (modify_alike fun s => alike_update (by intro sv; rfl) p s)
          (modify_alike (refresh_alike nm _))

/-! ## The networks in range -/

/-- An access point of a device that can be read has the name. -/
def Serves (nm : Nm) (d : String) (ssid : Bytes) (a : String) : Prop :=
  a ∈ (nm.accessPoints d).getD [] ∧ ∃ i, nm.ap a = some i ∧ i.ssid = ssid

/-- A network in range of a device: the name of one of its access points, not an empty one. -/
def InRange (nm : Nm) (d : String) (ssid : Bytes) : Prop := ssid ≠ [] ∧ ∃ a, Serves nm d ssid a

/-- The access points of a list that have the name. -/
def bearing (nm : Nm) (paths : List String) (ssid : Bytes) : List (String × AccessPoint) :=
  paths.filterMap fun a => (nm.ap a).bind fun i => if i.ssid = ssid then some (a, i) else none

theorem mem_bearing {paths : List String} {ssid : Bytes} {e : String × AccessPoint} :
    e ∈ bearing nm paths ssid ↔ e.1 ∈ paths ∧ nm.ap e.1 = some e.2 ∧ e.2.ssid = ssid := by
  unfold bearing
  rw [List.mem_filterMap]
  constructor
  · intro h
    obtain ⟨a, ha, h⟩ := h
    obtain ⟨i, hi, h⟩ := Option.bind_eq_some_iff.1 h
    split at h
    · next hssid =>
      obtain rfl := Option.some.inj h
      exact ⟨ha, hi, hssid⟩
    · cases h
  · intro h
    obtain ⟨ha, hi, hssid⟩ := h
    exact ⟨e.1, ha, Option.bind_eq_some_iff.2 ⟨e.2, hi, if_pos hssid⟩⟩

theorem networks_concat (paths : List String) (a : String) :
    networks nm (paths ++ [a]) = file nm (networks nm paths) a := by
  rw [networks, List.foldl_append]
  rfl

theorem bearing_concat (paths : List String) (a : String) (ssid : Bytes) :
    bearing nm (paths ++ [a]) ssid = bearing nm paths ssid ++ bearing nm [a] ssid :=
  List.filterMap_append

theorem bearing_singleton_none {a : String} {ssid : Bytes}
    (h : ∀ i, nm.ap a = some i → i.ssid ≠ ssid) : bearing nm [a] ssid = [] := by
  refine List.eq_nil_iff_forall_not_mem.2 fun e he => ?_
  obtain ⟨ha, hi, hssid⟩ := mem_bearing.1 he
  obtain rfl := List.mem_singleton.1 ha
  exact h e.2 hi hssid

/-- **A network is filed** with all of its access points, in their order. -/
theorem get_networks (paths : List String) (ssid : Bytes) :
    (networks nm paths).get ssid =
      if ssid = [] ∨ bearing nm paths ssid = [] then none else some (bearing nm paths ssid) := by
  induction paths using List.reverseRecOn with
  | nil =>
    have hnil : bearing nm [] ssid = [] := rfl
    rw [if_pos (Or.inr hnil)]
    rfl
  | append_singleton paths a ih =>
    rw [networks_concat, bearing_concat]
    -- an access point that is passed over adds to no network with a name
    have hskip : (∀ i, nm.ap a = some i → i.ssid ≠ ssid) →
        (if ssid = [] ∨ bearing nm paths ssid ++ bearing nm [a] ssid = [] then none
          else some (bearing nm paths ssid ++ bearing nm [a] ssid)) =
        (networks nm paths).get ssid := by
      intro h
      rw [bearing_singleton_none h, List.append_nil, ih]
    unfold file
    split
    · next hap =>
      exact (hskip fun i hi => by rw [hap] at hi; cases hi).symm
    · next i hap =>
      split
      · next hempty =>
        by_cases hssid : ssid = []
        · rw [if_pos (Or.inl hssid), ih, if_pos (Or.inl hssid)]
        · refine (hskip fun i' hi' => ?_).symm
          rw [hap, Option.some.injEq] at hi'
          rw [← hi', hempty]
          exact Ne.symm hssid
      · next hname =>
        rw [Dict.get_set]
        split
        · next heq =>
          subst heq
          have hone : bearing nm [a] i.ssid = [(a, i)] := by
            simp [bearing, hap]
          rw [hone, if_neg (by simp [hname]), ih]
          by_cases hb : bearing nm paths i.ssid = []
          · rw [if_pos (Or.inr hb), hb]
            rfl
          · rw [if_neg (by simp [hname, hb])]
            rfl
        · next hne =>
          refine (hskip fun i' hi' => ?_).symm
          rw [hap, Option.some.injEq] at hi'
          rw [← hi']
          exact Ne.symm hne

/-- The networks a synchronisation of a device finds. -/
def found (nm : Nm) (d : String) : List (Bytes × List (String × AccessPoint)) :=
  (networks nm ((nm.accessPoints d).getD [])).entries

theorem mem_found {n : Bytes × List (String × AccessPoint)} :
    n ∈ found nm d ↔ n.1 ≠ [] ∧ n.2 ≠ [] ∧ n.2 = bearing nm ((nm.accessPoints d).getD []) n.1 := by
  obtain ⟨ssid, es⟩ := n
  rw [found, Dict.mem_entries, get_networks]
  split
  · next h =>
    constructor
    · intro hnone
      cases hnone
    · intro hes
      rcases h with h | h
      · exact absurd h hes.1
      · exact absurd (hes.2.2.trans h) hes.2.1
  · next h =>
    obtain ⟨hssid, hb⟩ := not_or.1 h
    rw [Option.some.injEq]
    constructor
    · intro heq
      subst heq
      exact ⟨hssid, hb, rfl⟩
    · intro hes
      exact hes.2.2.symm

theorem mem_aps_of_found {n : Bytes × List (String × AccessPoint)} (hn : n ∈ found nm d)
    (a : String) : a ∈ n.2.map Prod.fst ↔ Serves nm d n.1 a := by
  rw [(mem_found.1 hn).2.2, List.mem_map]
  constructor
  · intro h
    obtain ⟨e, he, rfl⟩ := h
    obtain ⟨ha, hi, hssid⟩ := mem_bearing.1 he
    exact ⟨ha, e.2, hi, hssid⟩
  · intro h
    obtain ⟨ha, i, hi, hssid⟩ := h
    exact ⟨(a, i), mem_bearing.2 ⟨ha, hi, hssid⟩, rfl⟩

theorem inRange_iff {ssid : Bytes} : InRange nm d ssid ↔ ∃ n ∈ found nm d, n.1 = ssid := by
  constructor
  · intro h
    obtain ⟨hssid, a, ha, i, hi, hname⟩ := h
    have hmem : (a, i) ∈ bearing nm ((nm.accessPoints d).getD []) ssid :=
      mem_bearing.2 ⟨ha, hi, hname⟩
    exact ⟨(ssid, bearing nm ((nm.accessPoints d).getD []) ssid),
      mem_found.2 ⟨hssid, List.ne_nil_of_mem hmem, rfl⟩, rfl⟩
  · intro h
    obtain ⟨n, hn, rfl⟩ := h
    obtain ⟨hssid, hne, -⟩ := mem_found.1 hn
    obtain ⟨e, he⟩ := List.exists_mem_of_ne_nil _ hne
    exact ⟨hssid, e.1, (mem_aps_of_found hn e.1).1 (List.mem_map_of_mem he)⟩

/-- An access point has one name, so it is in one network. -/
theorem found_unique {n m : Bytes × List (String × AccessPoint)} (hn : n ∈ found nm d)
    (hm : m ∈ found nm d) {a : String} (han : a ∈ n.2.map Prod.fst) (ham : a ∈ m.2.map Prod.fst) :
    n = m := by
  obtain ⟨-, i, hi, hin⟩ := (mem_aps_of_found hn a).1 han
  obtain ⟨-, j, hj, hjm⟩ := (mem_aps_of_found hm a).1 ham
  rw [hi, Option.some.injEq] at hj
  subst hj
  have hssid : n.1 = m.1 := hin.symm.trans hjm
  refine Prod.ext hssid ?_
  rw [(mem_found.1 hn).2.2, (mem_found.1 hm).2.2, hssid]

/-! ## Publishing and dropping -/

section Publish

variable (stableId) (nm) (d)

/-- The service of a network of a device. -/
def pathOf (n : Bytes × List (String × AccessPoint)) : String := wifiPath stableId d n.1

/-- The service is the one that a network is published as. -/
structure Published (nm : Nm) (d : String) (info : Info) (n : Bytes × List (String × AccessPoint))
    (sv : Service) : Prop where
  ssid : sv.ssid = n.1
  device : sv.nmDevicePath = d
  aps : sv.nmApPaths = n.2.map Prod.fst
  connection : sv.nmConnectionPath = savedConnection nm n.1 info.iface "802-11-wireless"

variable {info : Info} {ns : List (Bytes × List (String × AccessPoint))}

theorem publishNetwork_get (info : Info) (s : State) (n : Bytes × List (String × AccessPoint)) :
    (∃ sv, (publishNetwork stableId nm d info s n).services.get (pathOf stableId d n) = some sv ∧
      Published nm d info n sv) ∧
    ∀ p, p ≠ pathOf stableId d n →
      (publishNetwork stableId nm d info s n).services.get p = s.services.get p := by
  unfold publishNetwork pathOf
  simp only [Dict.get_set, if_true]
  refine ⟨⟨_, rfl, ?_⟩, fun p hp => if_neg hp⟩
  cases s.services.get (wifiPath stableId d n.1) <;> exact ⟨rfl, rfl, rfl, rfl⟩

/-- The networks published one after another. -/
def publishAll (info : Info) (ns : List (Bytes × List (String × AccessPoint))) (s : State) : State :=
  ns.foldl (publishNetwork stableId nm d info) s

theorem publishAll_concat (n : Bytes × List (String × AccessPoint)) :
    publishAll stableId nm d info (ns ++ [n]) s =
      publishNetwork stableId nm d info (publishAll stableId nm d info ns s) n := by
  rw [publishAll, List.foldl_append]
  rfl

variable (info) (s) in
/-- What is published is the service of one of the networks, the last with its path. -/
theorem publishAll_mem (hp : p ∈ ns.map (pathOf stableId d)) :
    ∃ n ∈ ns, pathOf stableId d n = p ∧
      ∃ sv, (publishAll stableId nm d info ns s).services.get p = some sv ∧
        Published nm d info n sv := by
  induction ns using List.reverseRecOn with
  | nil => cases hp
  | append_singleton ns n ih =>
    rw [publishAll_concat]
    obtain ⟨⟨sv, hsv, hpub⟩, hother⟩ :=
      publishNetwork_get stableId nm d info (publishAll stableId nm d info ns s) n
    by_cases heq : p = pathOf stableId d n
    · subst heq
      exact ⟨n, List.mem_append_right _ List.mem_cons_self, rfl, sv, hsv, hpub⟩
    · rw [List.map_append, List.mem_append] at hp
      have hp' := hp.resolve_right fun h => heq (List.mem_singleton.1 h)
      obtain ⟨m, hm, hpath, sv', hsv', hpub'⟩ := ih hp'
      exact ⟨m, List.mem_append_left _ hm, hpath, sv', (hother p heq).trans hsv', hpub'⟩

theorem publishAll_other (hp : p ∉ ns.map (pathOf stableId d)) :
    (publishAll stableId nm d info ns s).services.get p = s.services.get p := by
  induction ns using List.reverseRecOn with
  | nil => rfl
  | append_singleton ns n ih =>
    rw [List.map_append, List.mem_append, not_or] at hp
    rw [publishAll_concat, (publishNetwork_get stableId nm d info _ n).2 p
      fun heq => hp.2 (heq ▸ List.mem_cons_self), ih hp.1]

theorem publishAll_frame : (publishAll stableId nm d info ns s).nmDevices = s.nmDevices ∧
    (publishAll stableId nm d info ns s).deviceToServices = s.deviceToServices := by
  induction ns using List.reverseRecOn with
  | nil => exact ⟨rfl, rfl⟩
  | append_singleton ns n ih =>
    rw [publishAll_concat]
    exact ih

/-- An access point leads to the last network that has it. -/
theorem publishAll_ap {a : String} {n : Bytes × List (String × AccessPoint)} (hn : n ∈ ns)
    (ha : a ∈ n.2.map Prod.fst)
    (hunique : ∀ m ∈ ns, a ∈ m.2.map Prod.fst → pathOf stableId d m = pathOf stableId d n) :
    (publishAll stableId nm d info ns s).apToService.get a = some (pathOf stableId d n) := by
  induction ns using List.reverseRecOn with
  | nil => cases hn
  | append_singleton ns m ih =>
    rw [publishAll_concat]
    show ((publishAll stableId nm d info ns s).apToService.setAll _ _).get a = _
    rw [Dict.get_setAll]
    split
    · next ham => exact congrArg some (hunique m (List.mem_append_right _ List.mem_cons_self) ham)
    · next ham =>
      rcases List.mem_append.1 hn with hn | hn
      · exact ih hn fun k hk => hunique k (List.mem_append_left _ hk)
      · obtain rfl := List.mem_singleton.1 hn
        exact absurd ha ham

theorem publishAll_ap_other {a : String} (ha : ∀ n ∈ ns, a ∉ n.2.map Prod.fst) :
    (publishAll stableId nm d info ns s).apToService.get a = s.apToService.get a := by
  induction ns using List.reverseRecOn with
  | nil => rfl
  | append_singleton ns m ih =>
    rw [publishAll_concat]
    show ((publishAll stableId nm d info ns s).apToService.setAll _ _).get a = _
    rw [Dict.get_setAll, if_neg (ha m (List.mem_append_right _ List.mem_cons_self)),
      ih fun n hn => ha n (List.mem_append_left _ hn)]

end Publish

theorem dropService_get (s : State) (q p : String) :
    (dropService s q).services.get p = if p = q then none else s.services.get p := by
  unfold dropService
  split
  · next hq =>
    split
    · next heq => rw [heq, hq]
    · rfl
  · exact Dict.get_pop

theorem dropService_frame (s : State) (q : String) : (dropService s q).nmDevices = s.nmDevices ∧
    (dropService s q).deviceToServices = s.deviceToServices := by
  unfold dropService
  split <;> exact ⟨rfl, rfl⟩

/-- The services dropped one after another. -/
def dropAll (qs : List String) (s : State) : State := qs.foldl dropService s

theorem dropAll_get (qs : List String) (s : State) (p : String) :
    (dropAll qs s).services.get p = if p ∈ qs then none else s.services.get p := by
  unfold dropAll
  induction qs generalizing s with
  | nil => rfl
  | cons q qs ih =>
    rw [List.foldl_cons, ih, dropService_get]
    by_cases hq : p = q <;> by_cases hqs : p ∈ qs <;> simp [hq, hqs]

theorem dropAll_frame (qs : List String) (s : State) : (dropAll qs s).nmDevices = s.nmDevices ∧
    (dropAll qs s).deviceToServices = s.deviceToServices := by
  unfold dropAll
  induction qs generalizing s with
  | nil => exact ⟨rfl, rfl⟩
  | cons q qs ih =>
    rw [List.foldl_cons, (ih _).1, (ih _).2]
    exact dropService_frame s q

/-- An access point that none of the dropped services has keeps its service. -/
theorem dropAll_ap {qs : List String} {a : String}
    (ha : ∀ q ∈ qs, ∀ sv, s.services.get q = some sv → a ∉ sv.nmApPaths) :
    (dropAll qs s).apToService.get a = s.apToService.get a := by
  unfold dropAll
  induction qs generalizing s with
  | nil => rfl
  | cons q qs ih =>
    have hone : (dropService s q).apToService.get a = s.apToService.get a := by
      unfold dropService
      split
      · rfl
      · next sv hsv =>
        show (s.apToService.popAll sv.nmApPaths).get a = _
        rw [Dict.get_popAll, if_neg (ha q List.mem_cons_self sv hsv)]
    rw [List.foldl_cons, ih, hone]
    intro q' hq' sv hsv
    rw [dropService_get] at hsv
    split at hsv
    · cases hsv
    · exact ha q' (List.mem_cons_of_mem q hq') sv hsv

/-! ## The states of the services -/

theorem state_refreshed (type : String) (q : DeviceProps) (sv : Service) :
    (refreshed nm type q sv).state = serviceStateToShill q.state (isActive nm type q sv) := by
  unfold refreshed
  split
  · next h =>
    have hfailed : (sv.setFailure (failureOf (q.reason.getD 0))).state = SHILL_STATE_FAILURE := by
      unfold Service.setFailure
      split <;> rfl
    rw [hfailed, h.2, h.1]
    rfl
  · rfl

/-- What `active` looks at is not what it changes. -/
theorem isActive_refreshed (type : String) (q q' : DeviceProps) (sv : Service) :
    isActive nm type q (refreshed nm type q' sv) = isActive nm type q sv := by
  have hsame : (refreshed nm type q' sv).nmConnectionPath = sv.nmConnectionPath ∧
      (refreshed nm type q' sv).nmApPaths = sv.nmApPaths := by
    unfold refreshed Service.setFailure
    split
    · split <;> exact ⟨rfl, rfl⟩
    · split <;> exact ⟨rfl, rfl⟩
  unfold isActive
  rw [hsame.1, hsame.2]

/-- The service has the state that its device's maps to. -/
def Right (nm : Nm) (type : String) (q : DeviceProps) (sv : Service) : Prop :=
  sv.state = serviceStateToShill q.state (isActive nm type q sv)

theorem right_refreshed (type : String) (q : DeviceProps) (sv : Service) :
    Right nm type q (refreshed nm type q sv) := by
  rw [Right, isActive_refreshed, state_refreshed]

theorem refreshAll_right (type : String) (q : DeviceProps) {ps : List String} (hp : p ∈ ps)
    {sv : Service}
    (hget : (ps.foldl (fun s p => s.update p (refreshed nm type q)) s).services.get p = some sv) :
    Right nm type q sv := by
  have hupdate : ∀ (s : State) (p' : String),
      ((s.update p' (refreshed nm type q)).services.get p) =
        if p = p' then (s.services.get p').map (refreshed nm type q) else s.services.get p :=
    fun s p' => Dict.get_modify
  induction ps using List.reverseRecOn generalizing sv with
  | nil => cases hp
  | append_singleton ps p' ih =>
    rw [List.foldl_append, List.foldl_cons, List.foldl_nil, hupdate] at hget
    split at hget
    · obtain ⟨sv', -, rfl⟩ := Option.map_eq_some_iff.1 hget
      exact right_refreshed type q sv'
    · next hne =>
      exact ih ((List.mem_append.1 hp).resolve_right fun h => hne (List.mem_singleton.1 h)) hget

/-- What is read of a device where it cannot be read is what was last known of it. -/
theorem readProps_state (nm : Nm) (d : String) (info : Info) :
    readProps nm d { info with state := (readProps nm d info).state } = readProps nm d info := by
  unfold readProps
  cases nm.props d with
  | none => rfl
  | some q => rfl

/-- The services of a device have the states that its own maps to. -/
def StatesFollow (nm : Nm) (d : String) (s : State) : Prop :=
  ∀ info, s.nmDevices.get d = some info → ∀ p ∈ s.servicesOf d, ∀ sv, s.services.get p = some sv →
    Right nm info.type (readProps nm d info) sv

theorem refresh_follow (nm : Nm) (d : String) (s : State) :
    StatesFollow nm d (refreshServiceStates nm d s) := by
  intro info hinfo p hp sv hsv
  have halike := refresh_alike nm d s
  obtain ⟨info₀, hinfo₀, -⟩ := halike.device hinfo
  rw [halike.servicesOf] at hp
  have hdevices : ∀ (ps : List String) (s : State) (type : String) (q : DeviceProps),
      (ps.foldl (fun s p => s.update p (refreshed nm type q)) s).nmDevices = s.nmDevices := by
    intro ps s type q
    induction ps generalizing s with
    | nil => rfl
    | cons p ps ih => exact ih _
  unfold refreshServiceStates at hinfo hsv
  rw [hinfo₀] at hinfo hsv
  simp only [hdevices, Dict.get_set, if_true, Option.some.injEq] at hinfo
  subst hinfo
  rw [readProps_state]
  exact refreshAll_right _ _ hp hsv

end Aurade.Network
