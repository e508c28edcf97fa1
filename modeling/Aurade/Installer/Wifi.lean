import Aurade.Foundations.Keyfile

/-!
# Joining a wireless network

`connect` checks a name and a password, and then uses a connection that is there or writes a profile for
NetworkManager, loads it and brings it up. A profile is a keyfile, and what is put in it is not escaped.
A connection that is there is looked up by its own name, which need not be that of its network.

`connect_joins_iff` says when all is well: the name and the password are such that a reader finds them as they
are, the commands that take back what was made do not fail, and the connection that is found under the
name of the network is one for it.
-/

namespace Aurade.Installer.Wifi

open Keyfile

/-! ## The connections there are -/

/-- A connection. Names and types are listed in lines. -/
structure Connection where
  name : Bytes
  type : Bytes
  /-- The network it is for, where it is for one. -/
  ssid : Option Bytes
  name_line : newline ∉ name
  type_line : newline ∉ type

/-- How `nmcli` prints a field: colons and backslashes have a backslash before them. -/
def terse (field : Bytes) : Bytes := field.flatMap fun b => if b = 58 ∨ b = 92 then [92, b] else [b]

/-- The line of a connection. -/
def Connection.listed (c : Connection) : Bytes := terse c.name ++ 58 :: terse c.type

/-- The loop of `aurade_wifi_fields`, with the field so far. -/
def fieldsFrom : Bytes → Bytes → List Bytes
  | [], field => [field]
  | [b], field => if b = 58 then [field, []] else [field ++ [b]]
  | b :: c :: rest, field =>
    if b = 92 then fieldsFrom rest (field ++ [c])
    else if b = 58 then field :: fieldsFrom (c :: rest) []
    else fieldsFrom (c :: rest) (field ++ [b])

/-- `aurade_wifi_fields`. -/
def wifiFields (line : Bytes) : List Bytes := fieldsFrom line []

/-- The types of wireless connections. -/
def wireless (type : Bytes) : Bool := type = text "802-11-wireless" || type = text "wifi"

/-- What is listed of connections. -/
def listing (cs : List Connection) : Bytes := cs.flatMap fun c => c.listed ++ [newline]

/-- `aurade_wifi_saved`, of what is listed. -/
def wifiSaved (listing : Bytes) (want : Bytes) : Bool :=
  (listing.splitOn newline).any fun line =>
    line ≠ [] && wireless ((wifiFields line)[1]?.getD []) && (wifiFields line)[0]?.getD [] = want

theorem fieldsFrom_plain {b : UInt8} (h : b ≠ 92 ∧ b ≠ 58) (rest field : Bytes) :
    fieldsFrom (b :: rest) field = fieldsFrom rest (field ++ [b]) := by
  cases rest with
  | nil => exact if_neg h.2
  | cons c rest => rw [fieldsFrom, if_neg h.1, if_neg h.2]

theorem fieldsFrom_colon (rest field : Bytes) :
    fieldsFrom (58 :: rest) field = field :: fieldsFrom rest [] := by
  cases rest with
  | nil => rfl
  | cons c rest => rfl

/-- A field is read as it was before it was printed. -/
theorem fieldsFrom_terse (f rest field : Bytes) :
    fieldsFrom (terse f ++ rest) field = fieldsFrom rest (field ++ f) := by
  induction f generalizing field with
  | nil => rw [terse, List.flatMap_nil, List.nil_append, List.append_nil]
  | cons b f ih =>
    rw [terse, List.flatMap_cons, ← terse, List.append_assoc]
    by_cases hb : b = 58 ∨ b = 92
    · rw [if_pos hb, List.cons_append, List.cons_append, List.nil_append, fieldsFrom, if_pos rfl, ih,
        List.append_assoc, List.singleton_append]
    · rw [if_neg hb, List.singleton_append,
        fieldsFrom_plain ⟨fun h => hb (Or.inr h), fun h => hb (Or.inl h)⟩, ih, List.append_assoc,
        List.singleton_append]

theorem wifiFields_listed (c : Connection) : wifiFields c.listed = [c.name, c.type] := by
  rw [wifiFields, Connection.listed, fieldsFrom_terse, fieldsFrom_colon]
  have h := fieldsFrom_terse c.type [] []
  rw [List.append_nil] at h
  rw [h]
  rfl

theorem newline_notMem_terse {field : Bytes} (h : newline ∉ field) : newline ∉ terse field := by
  intro hmem
  obtain ⟨b, hb, hin⟩ := List.mem_flatMap.1 hmem
  split at hin
  · rcases List.mem_cons.1 hin with h92 | hin
    · cases h92
    · exact h (List.mem_singleton.1 hin ▸ hb)
  · exact h (List.mem_singleton.1 hin ▸ hb)

theorem splitOn_listing (cs : List Connection) :
    (listing cs).splitOn newline = cs.map Connection.listed ++ [[]] := by
  have hl : ∀ l ∈ cs.map Connection.listed, newline ∉ l := fun l hl => by
    obtain ⟨c, -, rfl⟩ := List.mem_map.1 hl
    intro hmem
    rcases List.mem_append.1 hmem with hname | htype
    · exact newline_notMem_terse c.name_line hname
    · rcases List.mem_cons.1 htype with h58 | htype
      · cases h58
      · exact newline_notMem_terse c.type_line htype
  rw [← splitOn_flatMap_lines hl, List.flatMap_map]
  rfl

/-- A connection is saved under a name where a wireless one has it. -/
theorem wifiSaved_iff {cs : List Connection} {want : Bytes} :
    wifiSaved (listing cs) want = true ↔ ∃ c ∈ cs, wireless c.type = true ∧ c.name = want := by
  have hne : ∀ c : Connection, c.listed ≠ [] := fun c h => by
    simp [Connection.listed] at h
  rw [wifiSaved, splitOn_listing, List.any_append, List.any_map, Bool.or_eq_true, List.any_eq_true]
  simp [wifiFields_listed, hne]

/-! ## Joining -/

/-- The parts a profile is written in, each by its own `printf`. -/
inductive Part
  | connection
  | wifi
  | hidden
  | security
  | gap
  | key
  | psk
  | gapAfter
  | ip
  deriving DecidableEq

/-- The machine: `nmcli`, what was scanned, the connections, and which of them `nmcli` takes for a
name; and which of the steps succeed. -/
structure Machine where
  available : Bool
  /-- The networks scanned, and the security of each. -/
  scan : List (Bytes × Bytes)
  connections : List Connection
  byName : Bytes → Option Connection
  byName_mem : ∀ name c, byName name = some c → c ∈ connections ∧ c.name = name
  uuid : Bytes
  uuid_line : newline ∉ uuid
  lists : Bool
  installs : Bool
  /-- Whether the file can be opened, and which parts of it can be written. -/
  creates : Bool
  lands : Part → Bool
  loads : Bool
  comesUp : Bool
  deletes : Bool
  removes : Bool

/-- What `nmcli` lists. -/
def Machine.listed (m : Machine) : Bytes := if m.lists then listing m.connections else []

/-- What a call has done: the profile that is there, the one it took to be written, whether its
connection is there, and the saved connection it asked for. -/
structure Made where
  profile : Option Bytes
  written : Option Bytes
  connection : Bool
  used : Option Connection

def nothing : Made := ⟨none, none, false, none⟩

/-- A control character. -/
def cntrl (b : UInt8) : Bool := b < 32 || b = 127

/-- A hexadecimal digit. -/
def hexit (b : UInt8) : Bool := isDigit b || (65 ≤ b && b ≤ 70) || (97 ≤ b && b ≤ 102)

def yes : Bytes := text "true"

def no : Bytes := text "false"

def openNet : Bytes := text "open"

def owe : Bytes := text "owe"

def wpaPsk : Bytes := text "wpa-psk"

def sae : Bytes := text "sae"

/-- The security a network is joined with. -/
def authOf (m : Machine) (ssid psk auth : Bytes) : Bytes :=
  let auth := if auth = [] then ((m.scan.find? (·.1 = ssid)).map Prod.snd).getD [] else auth
  if auth ≠ [] then auth else if psk ≠ [] then wpaPsk else openNet

/-- Whether a kind of security is known here and goes with a password. -/
def accepts (auth psk : Bytes) : Bool :=
  if auth = openNet ∨ auth = owe then psk = []
  else if auth = sae then psk ≠ []
  else if auth = wpaPsk then
    psk ≠ [] && 8 ≤ psk.length && (psk.length ≤ 63 || (psk.length = 64 && psk.all hexit))
  else false

/-- What is done with a network. -/
inductive Plan
  | refuse
  | useSaved
  | write (auth : Bytes)
  deriving DecidableEq

/-- The checks of `aurade_wifi_connect`. -/
def plan (m : Machine) (ssid psk auth hidden : Bytes) : Plan :=
  if !m.available then .refuse
  else if ssid = [] || ssid.any cntrl then .refuse
  else if 32 < ssid.length then .refuse
  else if psk.any cntrl then .refuse
  else if hidden ≠ yes ∧ hidden ≠ no then .refuse
  else if psk = [] ∧ auth = [] ∧ hidden = no ∧
      wifiSaved m.listed ssid = true then .useSaved
  else if accepts (authOf m ssid psk auth) psk then .write (authOf m ssid psk auth)
  else .refuse

/-- The first lines of a profile. -/
def opening (ssid uuid : Bytes) : List Bytes :=
  [groupLine (text "connection"), keyLine (text "id") ssid, keyLine (text "uuid") uuid,
    keyLine (text "type") (text "wifi"), keyLine (text "autoconnect") (text "true"), []]

/-- The lines of its network. -/
def network (ssid : Bytes) : List Bytes :=
  [groupLine (text "wifi"), keyLine (text "mode") (text "infrastructure"), keyLine (text "ssid") ssid]

/-- What is said of the network besides. -/
def flags (auth hidden : Bytes) : List (Part × List Bytes) :=
  (if hidden = yes then [(.hidden, [keyLine (text "hidden") (text "true")])] else []) ++
  (if auth ≠ openNet
    then [(.security, [keyLine (text "security") (text "802-11-wireless-security")])] else []) ++
  [(.gap, [[]])]

/-- The lines of its security. -/
def keyGroup (auth : Bytes) : List Bytes :=
  [groupLine (text "wifi-security"), keyLine (text "key-mgmt") auth]

/-- Its password, where it has one. -/
def secret (psk auth : Bytes) : List (Part × List Bytes) :=
  if auth = wpaPsk ∨ auth = sae then [(.psk, [keyLine (text "psk") psk])] else []

/-- Its last lines. -/
def closing : List Bytes :=
  [groupLine (text "ipv4"), keyLine (text "method") (text "auto"), [], groupLine (text "ipv6"),
    keyLine (text "method") (text "auto")]

/-- The parts of a profile, each with its lines. -/
def parts (ssid psk auth hidden uuid : Bytes) : List (Part × List Bytes) :=
  (.connection, opening ssid uuid) :: (.wifi, network ssid) ::
    (flags auth hidden ++
      (if auth ≠ openNet
        then (.key, keyGroup auth) :: (secret psk auth ++ [(.gapAfter, [[]])]) else []) ++
      [(.ip, closing)])

/-- The lines of the parts that can be written. -/
def landed (lands : Part → Bool) (parts : List (Part × List Bytes)) : List Bytes :=
  (parts.filter fun p => lands p.1).flatMap Prod.snd

/-- The profile that is written. -/
def profile (m : Machine) (ssid psk auth hidden : Bytes) : Bytes :=
  ofLines (landed m.lands (parts ssid psk auth hidden m.uuid))

/-- `aurade_wifi_connect`: whether it returns without an error, and what it has done. -/
def connect (m : Machine) (ssid psk auth hidden : Bytes) : Bool × Made :=
  match plan m ssid psk auth hidden with
  | .refuse => (false, nothing)
  | .useSaved => (m.comesUp && (m.byName ssid).isSome, { nothing with used := m.byName ssid })
  | .write auth =>
    let file := profile m ssid psk auth hidden
    if !m.installs || !m.creates then (false, nothing)
    else if !m.lands .ip then
      -- only the last part tells that there was an error
      (false, { nothing with profile := if m.removes then none else some file })
    else if !m.loads then
      (false, { nothing with profile := if m.removes then none else some file, written := some file })
    else if !m.comesUp then
      -- a connection that is deleted takes its profile with it
      (false, ⟨if m.deletes || m.removes then none else some file, some file, !m.deletes, none⟩)
    else (true, ⟨some file, some file, true, none⟩)

/-! ## What is read of a profile -/

/-- The network, the password and the key management that are read of a profile. -/
structure Reading where
  ssid : Option Bytes
  psk : Option Bytes
  keyMgmt : Option Bytes
  deriving DecidableEq

/-- What NetworkManager reads. -/
def read (file : Bytes) : Reading where
  ssid := (lookup file "wifi" "ssid").bind readBytes
  psk := (lookup file "wifi-security" "psk").bind readValue
  keyMgmt := (lookup file "wifi-security" "key-mgmt").bind readValue

/-- What it should read. -/
def asked (ssid psk auth : Bytes) : Reading where
  ssid := some ssid
  psk := if psk = [] then none else some psk
  keyMgmt := if auth = openNet then none else some auth

theorem landed_append (lands : Part → Bool) (ps qs : List (Part × List Bytes)) :
    landed lands (ps ++ qs) = landed lands ps ++ landed lands qs := by
  rw [landed, List.filter_append, List.flatMap_append]
  rfl

theorem landed_cons_of_true {lands : Part → Bool} {p : Part} (h : lands p = true) (lines : List Bytes)
    (ps : List (Part × List Bytes)) : landed lands ((p, lines) :: ps) = lines ++ landed lands ps := by
  simp [landed, h]

/-- What is so of every line of the parts that can be written is so of the lines that land. -/
theorem forall_landed {P : Bytes → Prop} {lands : Part → Bool} {ps : List (Part × List Bytes)}
    (h : ∀ p ∈ ps, lands p.1 = true → ∀ line ∈ p.2, P line) : ∀ line ∈ landed lands ps, P line := by
  intro line hline
  obtain ⟨p, hp, hmem⟩ := List.mem_flatMap.1 hline
  obtain ⟨hin, hlands⟩ := List.mem_filter.1 hp
  exact h p hin hlands line hmem

/-- The keys that are looked for, and the part each is in. -/
def Holds (key : String) (q : Part) : Prop :=
  key = "ssid" ∧ q = .wifi ∨ key = "key-mgmt" ∧ q = .key ∨ key = "psk" ∧ q = .psk

/-- No other part gives a key a value. -/
theorem unkeyed_parts {key : String} {q : Part} (h : Holds key q) {ssid psk auth hidden uuid : Bytes} :
    ∀ p ∈ parts ssid psk auth hidden uuid, p.1 ≠ q → Unkeyed (text key) p.2 := by
  intro p hp hne
  simp only [parts, flags, secret, List.mem_append, List.mem_cons, List.not_mem_nil, or_false,
    List.mem_ite_nil_right] at hp
  rcases h with ⟨rfl, rfl⟩ | ⟨rfl, rfl⟩ | ⟨rfl, rfl⟩ <;>
  rcases hp with rfl | rfl | (((⟨-, rfl⟩ | ⟨-, rfl⟩) | rfl) | ⟨-, rfl | ⟨-, rfl⟩ | rfl⟩) | rfl <;>
  first
  | exact absurd rfl hne
  | simp +decide (disch := decide) [Unkeyed, keyOf_keyLine, opening, network, keyGroup]

/-- What is put in a profile has no line break. -/
structure Lined (ssid psk auth uuid : Bytes) : Prop where
  ssid : newline ∉ ssid
  psk : newline ∉ psk
  auth : newline ∉ auth
  uuid : newline ∉ uuid

theorem newline_notMem_parts {ssid psk auth uuid : Bytes} (h : Lined ssid psk auth uuid) (hidden : Bytes) :
    ∀ p ∈ parts ssid psk auth hidden uuid, ∀ line ∈ p.2, newline ∉ line := by
  obtain ⟨hssid, hpsk, hauth, huuid⟩ := h
  intro p hp
  simp only [parts, flags, secret, List.mem_append, List.mem_cons, List.not_mem_nil, or_false,
    List.mem_ite_nil_right] at hp
  rcases hp with rfl | rfl | (((⟨-, rfl⟩ | ⟨-, rfl⟩) | rfl) | ⟨-, rfl | ⟨-, rfl⟩ | rfl⟩) | rfl <;>
    simp +decide [hssid, hpsk, hauth, huuid, opening, network, keyGroup]

section Reads

variable {m : Machine} {ssid psk auth hidden : Bytes}

/-- A key has no value where its part does not land. -/
theorem lookup_profile_eq_none (hl : Lined ssid psk auth m.uuid) {group key : String} {q : Part}
    (hq : Holds key q)
    (h : ∀ p ∈ parts ssid psk auth hidden m.uuid, m.lands p.1 = true → p.1 ≠ q) :
    lookup (profile m ssid psk auth hidden) group key = none := by
  refine lookup_eq_none (forall_landed fun p hp _ => newline_notMem_parts hl hidden p hp) ?_
  exact forall_landed fun p hp hlands => unkeyed_parts hq p hp (h p hp hlands)

theorem keyable_holds {key : String} {q : Part} (h : Holds key q) : Keyable (text key) := by
  rcases h with ⟨rfl, rfl⟩ | ⟨rfl, rfl⟩ | ⟨rfl, rfl⟩ <;> exact ⟨by decide, by decide, by decide, by decide⟩

/-- A key has its value where its line lands. -/
theorem lookup_profile_eq_some (hl : Lined ssid psk auth m.uuid) {group key : String} {q : Part}
    (hq : Holds key q) {before rest : List Bytes} (between : List Bytes) {value : Bytes}
    (heq : landed m.lands (parts ssid psk auth hidden m.uuid) =
      before ++ groupLine (text group) :: (between ++ keyLine (text key) value :: rest))
    (hgroup : 93 ∉ text group) (hbefore : Unkeyed (text key) before)
    (hbetween : Unkeyed (text key) between) (hno : ∀ line ∈ between, line.head? ≠ some 91) :
    lookup (profile m ssid psk auth hidden) group key = some value := by
  have hlines := forall_landed fun p hp (_ : m.lands p.1 = true) => newline_notMem_parts hl hidden p hp
  rw [heq] at hlines
  rw [profile, heq]
  exact lookup_eq_some hlines hgroup (keyable_holds hq) hbefore hbetween hno

/-- Lines that land before a part do not have its key. -/
theorem unkeyed_landed {key : String} {q : Part} (hq : Holds key q)
    {before rest : List (Part × List Bytes)} (heq : parts ssid psk auth hidden m.uuid = before ++ rest)
    (hne : ∀ p ∈ before, p.1 ≠ q) : Unkeyed (text key) (landed m.lands before) :=
  forall_landed fun p hp _ =>
    unkeyed_parts hq p (heq ▸ List.mem_append_left rest hp) (hne p hp)

/-- The name of the network is there where its part lands. -/
theorem lookup_ssid (hl : Lined ssid psk auth m.uuid) :
    lookup (profile m ssid psk auth hidden) "wifi" "ssid" =
      if m.lands .wifi = true then some ssid else none := by
  have hq : Holds "ssid" .wifi := Or.inl ⟨rfl, rfl⟩
  split
  · next hlands =>
    have heq : parts ssid psk auth hidden m.uuid =
        [(.connection, opening ssid m.uuid)] ++ (.wifi, network ssid) :: _ := rfl
    have hlanded := congrArg (landed m.lands) heq
    rw [landed_append, landed_cons_of_true hlands] at hlanded
    refine lookup_profile_eq_some hl hq [_] hlanded (by decide) ?_ ?_ ?_
    · exact unkeyed_landed hq heq (by simp)
    · simp +decide [Unkeyed]
    · simp +decide
  · next hlands =>
    exact lookup_profile_eq_none hl hq fun p hp hp' heq => hlands (heq ▸ hp')

theorem parts_of_secured (ha : auth ≠ openNet) (ssid psk hidden uuid : Bytes) :
    parts ssid psk auth hidden uuid =
      ((.connection, opening ssid uuid) :: (.wifi, network ssid) :: flags auth hidden) ++
        (.key, keyGroup auth) :: (secret psk auth ++ [(.gapAfter, [[]]), (.ip, closing)]) := by
  rw [parts, if_pos ha]
  simp

theorem not_secured_of_front {p : Part × List Bytes} {uuid : Bytes}
    (h : p ∈ (Part.connection, opening ssid uuid) :: (Part.wifi, network ssid) :: flags auth hidden) :
    p.1 ≠ .key ∧ p.1 ≠ .psk := by
  simp only [flags, List.mem_append, List.mem_cons, List.not_mem_nil, or_false,
    List.mem_ite_nil_right] at h
  rcases h with rfl | rfl | (⟨-, rfl⟩ | ⟨-, rfl⟩) | rfl <;> exact ⟨by simp, by simp⟩

theorem secured_of_mem_parts {p : Part × List Bytes} {uuid : Bytes}
    (hp : p ∈ parts ssid psk auth hidden uuid) :
    (p.1 = .key → auth ≠ openNet) ∧ (p.1 = .psk → auth = wpaPsk ∨ auth = sae) := by
  simp only [parts, flags, secret, List.mem_append, List.mem_cons, List.not_mem_nil, or_false,
    List.mem_ite_nil_right] at hp
  rcases hp with rfl | rfl | (((⟨-, rfl⟩ | ⟨-, rfl⟩) | rfl) | ⟨ha, rfl | ⟨hs, rfl⟩ | rfl⟩) | rfl
  case inr.inr.inl.inr.inl => exact ⟨fun _ => ha, fun h => by cases h⟩
  case inr.inr.inl.inr.inr.inl => exact ⟨fun _ => ha, fun _ => hs⟩
  all_goals exact ⟨(fun h => by cases h), fun h => by cases h⟩

/-- The key management is there where the network has security and its part lands. -/
theorem lookup_keyMgmt (hl : Lined ssid psk auth m.uuid) :
    lookup (profile m ssid psk auth hidden) "wifi-security" "key-mgmt" =
      if auth ≠ openNet ∧ m.lands .key = true then some auth else none := by
  have hq : Holds "key-mgmt" .key := Or.inr (Or.inl ⟨rfl, rfl⟩)
  split
  · next h =>
    obtain ⟨ha, hlands⟩ := h
    have heq := parts_of_secured ha ssid psk hidden m.uuid
    have hlanded := congrArg (landed m.lands) heq
    rw [landed_append, landed_cons_of_true hlands] at hlanded
    refine lookup_profile_eq_some hl hq [] hlanded (by decide) ?_ ?_ ?_
    · exact unkeyed_landed hq heq fun p hp => (not_secured_of_front hp).1
    · exact fun line hline => absurd hline List.not_mem_nil
    · exact fun line hline => absurd hline List.not_mem_nil
  · next h =>
    refine lookup_profile_eq_none hl hq fun p hp hp' heq => h ?_
    exact ⟨(secured_of_mem_parts hp).1 heq, heq ▸ hp'⟩

/-- The password is there where it lands after the line of its group. -/
theorem lookup_psk (hl : Lined ssid psk auth m.uuid) (ha : auth = wpaPsk ∨ auth = sae)
    (hkey : m.lands .key = true) :
    lookup (profile m ssid psk auth hidden) "wifi-security" "psk" =
      if m.lands .psk = true then some psk else none := by
  have hq : Holds "psk" .psk := Or.inr (Or.inr ⟨rfl, rfl⟩)
  split
  · next hlands =>
    have hopen : auth ≠ openNet := by
      rcases ha with rfl | rfl <;> decide
    have heq := parts_of_secured hopen ssid psk hidden m.uuid
    have hlanded := congrArg (landed m.lands) heq
    rw [landed_append, landed_cons_of_true hkey, secret, if_pos ha, List.singleton_append,
      landed_cons_of_true hlands] at hlanded
    refine lookup_profile_eq_some hl hq [_] hlanded (by decide) ?_ ?_ ?_
    · exact unkeyed_landed hq heq fun p hp => (not_secured_of_front hp).2
    · simp +decide (disch := decide) [Unkeyed, keyOf_keyLine]
    · simp +decide [head_keyLine]
  · next hlands =>
    exact lookup_profile_eq_none hl hq fun p hp hp' heq => hlands (heq ▸ hp')

/-- A network without a password has none in its profile. -/
theorem lookup_psk_eq_none (hl : Lined ssid psk auth m.uuid) (ha : ¬(auth = wpaPsk ∨ auth = sae)) :
    lookup (profile m ssid psk auth hidden) "wifi-security" "psk" = none := by
  refine lookup_profile_eq_none hl (Or.inr (Or.inr ⟨rfl, rfl⟩)) fun p hp _ heq => ?_
  exact ha ((secured_of_mem_parts hp).2 heq)

/-- What a kind of security that is accepted asks of the password. -/
theorem accepts_iff_psk (h : accepts auth psk = true) :
    (auth = openNet ∧ psk = []) ∨ (auth = owe ∧ psk = []) ∨
      ((auth = wpaPsk ∨ auth = sae) ∧ psk ≠ []) := by
  unfold accepts at h
  split at h
  · next hopen =>
    have hpsk := of_decide_eq_true h
    exact hopen.imp (fun h => ⟨h, hpsk⟩) fun h => Or.inl ⟨h, hpsk⟩
  · split at h
    · next hsae => exact Or.inr (Or.inr ⟨Or.inr hsae, of_decide_eq_true h⟩)
    · split at h
      · next hwpa =>
        rw [Bool.and_eq_true, Bool.and_eq_true] at h
        exact Or.inr (Or.inr ⟨Or.inl hwpa, of_decide_eq_true h.1.1⟩)
      · cases h

theorem readValue_auth (ha : accepts auth psk = true) : readValue auth = some auth := by
  rcases accepts_iff_psk ha with ⟨rfl, -⟩ | ⟨rfl, -⟩ | ⟨rfl | rfl, -⟩ <;> decide

theorem ssid_read_iff : ((if m.lands .wifi = true then some ssid else none).bind readBytes = some ssid) ↔
    m.lands .wifi = true ∧ Plain ssid ∧ numberList ssid = none := by
  split
  · next h => rw [Option.bind_some, readBytes_eq_self_iff, and_iff_right h]
  · next h => exact ⟨(fun hnone => by cases hnone), fun h' => absurd h'.1 h⟩

theorem keyMgmt_read_iff (ha : accepts auth psk = true) :
    ((if auth ≠ openNet ∧ m.lands .key = true then some auth else none).bind readValue =
        if auth = openNet then none else some auth) ↔
      (auth ≠ openNet → m.lands .key = true) := by
  by_cases hopen : auth = openNet
  · rw [if_neg fun h => h.1 hopen, if_pos hopen]
    exact ⟨fun _ h => absurd hopen h, fun _ => rfl⟩
  · rw [if_neg hopen]
    split
    · next h => exact ⟨fun _ _ => h.2, fun _ => readValue_auth ha⟩
    · next h => exact ⟨(fun hnone => by cases hnone), fun h' => absurd ⟨hopen, h' hopen⟩ h⟩

theorem psk_read_iff (hl : Lined ssid psk auth m.uuid) (ha : accepts auth psk = true)
    (hkey : auth ≠ openNet → m.lands .key = true) :
    ((lookup (profile m ssid psk auth hidden) "wifi-security" "psk").bind readValue =
        if psk = [] then none else some psk) ↔
      (psk ≠ [] → m.lands .psk = true ∧ Plain psk) := by
  have hnone : psk = [] → ¬(auth = wpaPsk ∨ auth = sae) := by
    rintro rfl
    rcases accepts_iff_psk ha with ⟨rfl, -⟩ | ⟨rfl, -⟩ | ⟨-, hne⟩
    · decide
    · decide
    · exact absurd rfl hne
  by_cases hpsk : psk = []
  · rw [lookup_psk_eq_none hl (hnone hpsk), if_pos hpsk]
    exact ⟨fun _ h => absurd hpsk h, fun _ => rfl⟩
  · have hs : auth = wpaPsk ∨ auth = sae := by
      rcases accepts_iff_psk ha with ⟨-, h⟩ | ⟨-, h⟩ | ⟨h, -⟩
      · exact absurd h hpsk
      · exact absurd h hpsk
      · exact h
    have hopen : auth ≠ openNet := by
      rcases hs with rfl | rfl <;> decide
    rw [lookup_psk hl hs (hkey hopen), if_neg hpsk]
    split
    · next h =>
      rw [Option.bind_some, readValue_eq_self_iff]
      exact ⟨fun hplain _ => ⟨h, hplain⟩, fun h' => (h' hpsk).2⟩
    · next h => exact ⟨(fun hnone => by cases hnone), fun h' => absurd (h' hpsk).1 h⟩

/-- **A profile is read as what was asked for where all its parts land and all in it is plain.** -/
theorem read_profile_iff (hl : Lined ssid psk auth m.uuid) (ha : accepts auth psk = true) :
    read (profile m ssid psk auth hidden) = asked ssid psk auth ↔
      (m.lands .wifi = true ∧ Plain ssid ∧ numberList ssid = none) ∧
      (auth ≠ openNet → m.lands .key = true) ∧ (psk ≠ [] → m.lands .psk = true ∧ Plain psk) := by
  rw [read, asked, Reading.mk.injEq, lookup_ssid hl, lookup_keyMgmt hl, ssid_read_iff,
    keyMgmt_read_iff ha]
  refine and_congr_right fun _ => ?_
  constructor
  · rintro ⟨hpsk, hkey⟩
    exact ⟨hkey, (psk_read_iff hl ha hkey).1 hpsk⟩
  · rintro ⟨hkey, hpsk⟩
    exact ⟨(psk_read_iff hl ha hkey).2 hpsk, hkey⟩

end Reads

/-! ## When all is well -/

/-- What is wanted of joining a network: a profile that is read as what was asked for, nothing left where
there was an error, and a saved connection only for the network. -/
structure Joined (m : Machine) (ssid psk auth hidden : Bytes) : Prop where
  reads : ∀ file, (connect m ssid psk auth hidden).2.written = some file →
    read file = asked ssid psk (authOf m ssid psk auth)
  undone : (connect m ssid psk auth hidden).1 = false →
    (connect m ssid psk auth hidden).2.profile = none ∧
    (connect m ssid psk auth hidden).2.connection = false
  used : ∀ c, (connect m ssid psk auth hidden).2.used = some c → c.ssid = some ssid

/-- A file is created for a profile with a kind of security. -/
def Creates (m : Machine) (ssid psk auth hidden a : Bytes) : Prop :=
  plan m ssid psk auth hidden = .write a ∧ m.installs = true ∧ m.creates = true

/-- What has to be so for it: what is written is plain and lands, no step fails that takes back what was
made, and the connection found by its name is for the network of that name. -/
structure Sound (m : Machine) (ssid psk auth hidden : Bytes) : Prop where
  plain : ∀ a, Creates m ssid psk auth hidden a → m.lands .ip = true →
    (m.lands .wifi = true ∧ Plain ssid ∧ numberList ssid = none) ∧
    (a ≠ openNet → m.lands .key = true) ∧ (psk ≠ [] → m.lands .psk = true ∧ Plain psk)
  removed : ∀ a, Creates m ssid psk auth hidden a → m.lands .ip = false ∨ m.loads = false →
    m.removes = true
  deleted : ∀ a, Creates m ssid psk auth hidden a → m.lands .ip = true → m.loads = true →
    m.comesUp = false → m.deletes = true
  saved : plan m ssid psk auth hidden = .useSaved → ∀ c, m.byName ssid = some c → c.ssid = some ssid

section Joins

variable {m : Machine} {ssid psk auth hidden : Bytes}

theorem newline_notMem_of_cntrl {bs : Bytes} (h : ¬bs.any cntrl = true) : newline ∉ bs := by
  intro hmem
  exact h (List.any_eq_true.2 ⟨newline, hmem, by decide⟩)

/-- What is known where a profile is to be written. -/
theorem known_of_plan {a : Bytes} (h : plan m ssid psk auth hidden = .write a) :
    a = authOf m ssid psk auth ∧ accepts a psk = true ∧ Lined ssid psk a m.uuid := by
  unfold plan at h
  split_ifs at h with _ hssid _ hpsk _ _ haccepts
  cases h
  rw [Bool.or_eq_true, not_or] at hssid
  refine ⟨rfl, haccepts, newline_notMem_of_cntrl hssid.2, newline_notMem_of_cntrl hpsk, ?_, m.uuid_line⟩
  rcases accepts_iff_psk haccepts with ⟨h, -⟩ | ⟨h, -⟩ | ⟨h | h, -⟩ <;> rw [h] <;> decide

theorem creates_of_plan {a b : Bytes} (h : plan m ssid psk auth hidden = .write a)
    (hb : Creates m ssid psk auth hidden b) : b = a ∧ m.installs = true ∧ m.creates = true := by
  obtain ⟨hb, hsteps⟩ := hb
  rw [h] at hb
  cases hb
  exact ⟨rfl, hsteps⟩

/-- Where nothing is done, all is well. -/
theorem joined_iff_of_nothing (h : connect m ssid psk auth hidden = (false, nothing))
    (hno : ∀ a, ¬Creates m ssid psk auth hidden a) (hsaved : plan m ssid psk auth hidden ≠ .useSaved) :
    Joined m ssid psk auth hidden ↔ Sound m ssid psk auth hidden := by
  constructor
  · intro _
    exact ⟨fun a ha => absurd ha (hno a), fun a ha => absurd ha (hno a), fun a ha => absurd ha (hno a),
      fun hs => absurd hs hsaved⟩
  · intro _
    refine ⟨?_, ?_, ?_⟩ <;> rw [h]
    · exact fun file hfile => by cases hfile
    · exact fun _ => ⟨rfl, rfl⟩
    · exact fun c hc => by cases hc

theorem not_creates {p : Plan} (h : plan m ssid psk auth hidden = p) (hp : ∀ a, p ≠ .write a) (a : Bytes) :
    ¬Creates m ssid psk auth hidden a :=
  fun ha => hp a (h.symm.trans ha.1)

theorem joined_iff_of_refuse (h : plan m ssid psk auth hidden = .refuse) :
    Joined m ssid psk auth hidden ↔ Sound m ssid psk auth hidden := by
  have hconnect : connect m ssid psk auth hidden = (false, nothing) := by rw [connect, h]
  refine joined_iff_of_nothing hconnect (not_creates h (by simp)) ?_
  rw [h]
  simp

theorem joined_iff_of_useSaved (h : plan m ssid psk auth hidden = .useSaved) :
    Joined m ssid psk auth hidden ↔ Sound m ssid psk auth hidden := by
  have hconnect : connect m ssid psk auth hidden =
      (m.comesUp && (m.byName ssid).isSome, { nothing with used := m.byName ssid }) := by rw [connect, h]
  have hno := not_creates h (by simp)
  constructor
  · intro hj
    have hused := hj.used
    rw [hconnect] at hused
    exact ⟨fun a ha => absurd ha (hno a), fun a ha => absurd ha (hno a), fun a ha => absurd ha (hno a),
      fun _ => hused⟩
  · intro hs
    refine ⟨?_, ?_, ?_⟩ <;> rw [hconnect]
    · exact fun file hfile => by cases hfile
    · exact fun _ => ⟨rfl, rfl⟩
    · exact hs.saved h

/-- What is done once a file is created. -/
theorem connect_of_creates {a : Bytes} (h : Creates m ssid psk auth hidden a) :
    connect m ssid psk auth hidden =
      if m.lands .ip = false then
        (false, ⟨if m.removes then none else some (profile m ssid psk a hidden), none, false, none⟩)
      else if m.loads = false then
        (false, ⟨if m.removes then none else some (profile m ssid psk a hidden),
          some (profile m ssid psk a hidden), false, none⟩)
      else if m.comesUp = false then
        (false, ⟨if m.deletes || m.removes then none else some (profile m ssid psk a hidden),
          some (profile m ssid psk a hidden), !m.deletes, none⟩)
      else (true, ⟨some (profile m ssid psk a hidden), some (profile m ssid psk a hidden), true, none⟩) := by
  obtain ⟨hplan, hinstalls, hcreates⟩ := h
  rw [connect, hplan]
  simp only [hinstalls, hcreates, nothing, Bool.not_true, Bool.or_self, Bool.not_eq_true']
  rfl

theorem written_of_creates {a : Bytes} (h : Creates m ssid psk auth hidden a) :
    (connect m ssid psk auth hidden).2.written =
      if m.lands .ip = true then some (profile m ssid psk a hidden) else none := by
  rw [connect_of_creates h]
  cases m.lands .ip <;> cases m.loads <;> cases m.comesUp <;> rfl

theorem used_of_creates {a : Bytes} (h : Creates m ssid psk auth hidden a) :
    (connect m ssid psk auth hidden).2.used = none := by
  rw [connect_of_creates h]
  cases m.lands .ip <;> cases m.loads <;> cases m.comesUp <;> rfl

/-- Nothing is left where there was an error, as long as the step that takes it back does not fail. -/
theorem undone_iff_of_creates {a : Bytes} (h : Creates m ssid psk auth hidden a) :
    ((connect m ssid psk auth hidden).1 = false →
      (connect m ssid psk auth hidden).2.profile = none ∧
      (connect m ssid psk auth hidden).2.connection = false) ↔
    (m.lands .ip = false ∨ m.loads = false → m.removes = true) ∧
    (m.lands .ip = true → m.loads = true → m.comesUp = false → m.deletes = true) := by
  rw [connect_of_creates h]
  cases m.lands .ip <;> cases m.loads <;> cases m.comesUp <;> cases m.removes <;> cases m.deletes <;> simp

theorem joined_iff_of_creates {a : Bytes} (h : Creates m ssid psk auth hidden a) :
    Joined m ssid psk auth hidden ↔ Sound m ssid psk auth hidden := by
  obtain ⟨rfl, haccepts, hlined⟩ := known_of_plan h.1
  have honly : ∀ b, Creates m ssid psk auth hidden b → b = authOf m ssid psk auth :=
    fun b hb => (creates_of_plan h.1 hb).1
  have hreads : (∀ file, (connect m ssid psk auth hidden).2.written = some file →
      read file = asked ssid psk (authOf m ssid psk auth)) ↔
      (m.lands .ip = true → read (profile m ssid psk (authOf m ssid psk auth) hidden) =
        asked ssid psk (authOf m ssid psk auth)) := by
    rw [written_of_creates h]
    split
    · next hip => exact ⟨fun hr _ => hr _ rfl, fun hr file hfile => by cases hfile; exact hr hip⟩
    · next hip => exact ⟨fun _ h' => absurd h' hip, fun _ file hfile => by cases hfile⟩
  rw [read_profile_iff hlined haccepts] at hreads
  constructor
  · intro hj
    obtain ⟨hremoved, hdeleted⟩ := (undone_iff_of_creates h).1 hj.undone
    refine ⟨fun b hb hip => ?_, fun b hb => hremoved, fun b hb => hdeleted, fun hs => ?_⟩
    · rw [honly b hb]
      exact hreads.1 hj.reads hip
    · rw [h.1] at hs
      cases hs
  · intro hs
    refine ⟨hreads.2 (hs.plain _ h), (undone_iff_of_creates h).2 ⟨hs.removed _ h, hs.deleted _ h⟩, ?_⟩
    rw [used_of_creates h]
    exact fun c hc => by cases hc

theorem joined_iff_of_write {a : Bytes} (h : plan m ssid psk auth hidden = .write a) :
    Joined m ssid psk auth hidden ↔ Sound m ssid psk auth hidden := by
  by_cases hsteps : m.installs = true ∧ m.creates = true
  · exact joined_iff_of_creates ⟨h, hsteps⟩
  · have hconnect : connect m ssid psk auth hidden = (false, nothing) := by
      rw [connect, h]
      refine if_pos ?_
      rwa [Bool.or_eq_true, Bool.not_eq_true', Bool.not_eq_true', ← Bool.not_eq_true, ← Bool.not_eq_true,
        ← not_and_or]
    refine joined_iff_of_nothing hconnect ?_ ?_
    · exact fun b hb => hsteps (creates_of_plan h hb).2
    · rw [h]
      simp

/-- **A network is joined under its own name and password exactly where what is written is plain, what
takes it back does not fail, and a connection is for the network it is named after.** -/
theorem connect_joins_iff (m : Machine) (ssid psk auth hidden : Bytes) :
    Joined m ssid psk auth hidden ↔ Sound m ssid psk auth hidden := by
  cases h : plan m ssid psk auth hidden with
  | refuse => exact joined_iff_of_refuse h
  | useSaved => exact joined_iff_of_useSaved h
  | write a => exact joined_iff_of_write h

end Joins

theorem find_name_spec (cs : List Connection) (name : Bytes) (c : Connection)
    (h : cs.find? (fun c => c.name = name) = some c) : c ∈ cs ∧ c.name = name := by
  have hname := List.find?_some h
  exact ⟨List.mem_of_find?_eq_some h, by simpa using hname⟩

theorem newline_notMem_home : newline ∉ text "Home" ∧ newline ∉ text "wifi" := by decide

/-- A connection for one network under the name of another. -/
def renamed : Connection where
  name := text "Home"
  type := text "wifi"
  ssid := some (text "Guest")
  name_line := newline_notMem_home.1
  type_line := newline_notMem_home.2

/-- A machine on which every step succeeds, with this connection. -/
def ready : Machine where
  available := true
  scan := []
  connections := [renamed]
  byName name := [renamed].find? fun c => c.name = name
  byName_mem := find_name_spec [renamed]
  uuid := []
  uuid_line := List.not_mem_nil
  lists := true
  installs := true
  creates := true
  lands _ := true
  loads := true
  comesUp := true
  deletes := true
  removes := true

/-- A name with a blank in front, one that is a list of numbers, a password with a backslash, and the
name of a connection for another network. -/
theorem connect_misjoins :
    ¬Joined ready (text " Home") (text "password") [] no ∧
    ¬Joined ready (text "65;66;") (text "password") [] no ∧
    ¬Joined ready (text "Cafe") (text "pass\\word") [] no ∧
    ¬Joined ready (text "Home") [] [] no := by
  refine ⟨fun h => ?_, fun h => ?_, fun h => ?_, fun h => ?_⟩
  · exact absurd (h.reads _ rfl) (by decide)
  · exact absurd (h.reads _ rfl) (by decide)
  · exact absurd (h.reads _ rfl) (by decide)
  · exact absurd (h.used _ rfl) (by decide)

end Aurade.Installer.Wifi
