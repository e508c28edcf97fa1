import Aurade.Foundations.Act
import Aurade.Foundations.Text
import Mathlib.Data.List.DropRight
import Mathlib.Logic.Relation

/-!
# The storage devices of the host bridge

`StorageBackend` over the object graph of udisks: what is checked before a block is mounted,
unmounted or formatted (`safeBlock`), and before a drive is ejected or powered off (`safeDrive`).
The first looks at the block itself, the second at every block that names the drive. The graph also
says what the bridge does not read: which blocks are carved out of which (`Carves`).

What the checks look at is kept from every call. A format takes what lies inside the block as well,
and a drive what is mapped onto its blocks: these are `Overlooked`, and the bridge keeps clear of
system volumes exactly where it overlooks none (`spared_iff`).
-/

namespace Aurade.Bridge

/-! ## The object graph -/

/-- `org.freedesktop.UDisks2.Drive`. -/
structure Drive where
  removable : Bool
  connectionBus : String
  deriving DecidableEq

/-- `org.freedesktop.UDisks2.Block`, and what its block lies on. -/
structure Block where
  drive : String
  hintSystem : Bool
  preferredDevice : Option Bytes
  device : Option Bytes
  /-- The table a partition is in. The bridge does not read it. -/
  table : Option String
  /-- The blocks an encrypted or mapped one lies on. The bridge does not read them. -/
  backing : List String
  deriving DecidableEq

/-- The interfaces of an object. A file system's is its mount points. -/
structure Interfaces where
  drive : Option Drive
  block : Option Block
  filesystem : Option (List Bytes)
  deriving DecidableEq

/-- What `managed_objects` answers. -/
structure Objects where
  paths : List String
  interfaces : String → Interfaces

def Objects.get (o : Objects) (path : String) : Option Interfaces :=
  if path ∈ o.paths then some (o.interfaces path) else none

inductive Interface
  | drive | block | filesystem
  deriving DecidableEq

def Interfaces.has (i : Interfaces) : Interface → Bool
  | .drive => i.drive.isSome
  | .block => i.block.isSome
  | .filesystem => i.filesystem.isSome

/-- `to_python` of an array of bytes, as a string. An empty one is an empty list. -/
def toPython (bs : Bytes) : Bytes :=
  if bs = [] then text "[]" else Utf8.lossy (bs.rdropWhile (· = 0))

/-- `_decode_device`. -/
def Block.decodeDevice (b : Block) : Bytes :=
  ((b.preferredDevice <|> b.device).map toPython).getD []

/-- `_decode_mounts`. -/
def Interfaces.decodeMounts (i : Interfaces) : List Bytes := (i.filesystem.getD []).map toPython

/-! ## The checks -/

/-- `BridgeError`. -/
structure BridgeError where
  code : String
  message : String
  deriving DecidableEq

def systemMounts : List Bytes :=
  [text "/", text "/boot", text "/boot/efi", text "/efi", text "/home", text "/usr", text "/var"]

def externalBuses : List String := ["firewire", "sdio", "usb"]

def filesystems : List String := ["btrfs", "exfat", "ext4", "f2fs", "vfat", "xfs"]

def udisksRoot : String := "/org/freedesktop/UDisks2"

def isWord (c : Char) : Bool := c.isAlphanum || c == '_'

/-- `OBJECT_PATH_RE`. -/
def isObjectPath (path : List Char) : Bool :=
  match path with
  | '/' :: rest => rest = [] || (rest.splitOn '/').all fun part => part ≠ [] && part.all isWord
  | _ => false

/-- `validate_object_path`. -/
def validateObjectPath (path root : String) : Except BridgeError String :=
  if isObjectPath path.toList && (root.toList ++ ['/']).isPrefixOf path.toList then .ok path
  else .error ⟨"invalid_argument", "invalid object path below " ++ root⟩

/-- `validate_filesystem`. -/
def validateFilesystem (filesystem : String) : Except BridgeError String :=
  if filesystem.toLower ∈ filesystems then .ok filesystem.toLower
  else .error ⟨"invalid_argument", "unsupported filesystem"⟩

/-- `validate_label`. -/
def validateLabel (label : String) : Except BridgeError String :=
  if label.utf8ByteSize ≤ 32 && label.toList.all (32 ≤ ·.toNat) then .ok label
  else .error ⟨"invalid_argument", "volume label must contain at most 32 bytes and no controls"⟩

/-- `_external_drive`. -/
def externalDrive (d : Drive) : Bool := d.removable || d.connectionBus ∈ externalBuses

/-- A block with a system volume on it, as its properties say. -/
def flagged (b : Block) (i : Interfaces) : Bool :=
  b.hintSystem || i.decodeMounts.any (· ∈ systemMounts)

section Backend

variable (o : Objects)

/-- `_object`. -/
def object (path : String) (i : Interface) : Except BridgeError Interfaces := do
  let path ← validateObjectPath path udisksRoot
  match o.get path with
  | some is =>
    if is.has i then .ok is
    else .error ⟨"not_found", "udisks object or interface was not found"⟩
  | none => .error ⟨"not_found", "udisks object or interface was not found"⟩

/-- The drive under a path, if there is one and it is external. -/
def isExternal (path : String) : Bool :=
  ((o.get path).bind Interfaces.drive).any externalDrive

/-- `_safe_block`. -/
def safeBlock (path : String) (i : Interface) : Except BridgeError Block := do
  let is ← object o path i
  match is.block with
  | none => .error ⟨"not_found", "storage object is not a block device"⟩
  | some b =>
    if flagged b is then .error ⟨"system_device", "refusing to modify a system volume"⟩
    else if isExternal o b.drive then .ok b
    else .error ⟨"not_removable", "Files device operations are restricted to external media"⟩

/-- A block that names the drive and has a system volume. -/
def blocks (drive path : String) : Bool :=
  (o.interfaces path).block.any fun b => b.drive == drive && flagged b (o.interfaces path)

/-- `_safe_drive`. -/
def safeDrive (path : String) : Except BridgeError Unit := do
  let is ← object o path .drive
  if is.drive.any externalDrive then
    if o.paths.any (blocks o path) then
      .error ⟨"system_device", "refusing to modify a drive containing a system volume"⟩
    else .ok ()
  else .error ⟨"not_removable", "Files device operations are restricted to external media"⟩

/-- A call to udisks. -/
inductive Call
  | mount (block : String) (readOnly : Bool) (asUser : String)
  | unmount (block : String) (force : Bool)
  | eject (drive : String)
  | powerOff (drive : String)
  | format (block filesystem label : String)
  deriving DecidableEq

/-- A request to the bridge. -/
inductive Request
  | mount (block : String) (readOnly : Bool) (asUser : String)
  | unmount (block : String) (force : Bool)
  | driveAction (drive action : String)
  | format (block filesystem label confirmation : String)
  deriving DecidableEq

/-- The text a format has to be confirmed with, as `state` lists it. -/
def Block.formatConfirmation (b : Block) : Bytes := text "FORMAT " ++ b.decodeDevice

def mount (path : String) (readOnly : Bool) (asUser : String) : Except BridgeError Call := do
  let _ ← safeBlock o path .filesystem
  pure (.mount path readOnly asUser)

def unmount (path : String) (force : Bool) : Except BridgeError Call := do
  let _ ← safeBlock o path .filesystem
  pure (.unmount path force)

/-- `drive_action`. -/
def driveAction (path action : String) : Except BridgeError Call :=
  if action ∉ ["eject", "poweroff"] then
    .error ⟨"invalid_argument", "unsupported drive action"⟩
  else do
    safeDrive o path
    pure (if action = "eject" then .eject path else .powerOff path)

def format (path filesystem label confirmation : String) : Except BridgeError Call := do
  let b ← safeBlock o path .block
  let filesystem ← validateFilesystem filesystem
  let label ← validateLabel label
  if text confirmation ≠ b.formatConfirmation then
    .error ⟨"confirmation_required", "format confirmation does not match the target device"⟩
  else pure (.format path filesystem label)

/-- The call a request comes to. -/
def serve : Request → Except BridgeError Call
  | .mount block readOnly asUser => mount o block readOnly asUser
  | .unmount block force => unmount o block force
  | .driveAction drive action => driveAction o drive action
  | .format block filesystem label confirmation => format o block filesystem label confirmation

end Backend

/-! ## System volumes and what a call touches -/

variable {o : Objects}

/-- The block under a path. -/
def Objects.blockAt (o : Objects) (path : String) : Option Block := (o.get path).bind Interfaces.block

/-- The block is flagged as the system's, or mounted at one of its mount points. -/
def SystemVolume (o : Objects) (c : String) : Prop :=
  ∃ is b, o.get c = some is ∧ is.block = some b ∧
    (b.hintSystem = true ∨ ∃ m ∈ is.filesystem.getD [], m.rdropWhile (· = 0) ∈ systemMounts)

/-- `c` is a partition in the table of `b`, or an encrypted or mapped block that lies on it. -/
def Carves (o : Objects) (b c : String) : Prop :=
  ∃ k, o.blockAt c = some k ∧ (k.table = some b ∨ b ∈ k.backing)

/-- `c` is `b`, or carved out of it. -/
def Inside (o : Objects) : String → String → Prop := Relation.ReflTransGen (Carves o)

/-- The block names the drive. -/
def Names (o : Objects) (drive c : String) : Prop := ∃ k, o.blockAt c = some k ∧ k.drive = drive

/-- `c` is on the drive. -/
def OnDrive (o : Objects) (drive c : String) : Prop := ∃ b, Names o drive b ∧ Inside o b c

/-- The whole disk of a drive: a block in no table, that lies on no other. -/
def WholeDisk (o : Objects) (drive b : String) : Prop :=
  ∃ k, o.blockAt b = some k ∧ k.table = none ∧ k.backing = [] ∧ k.drive = drive ∧ drive ≠ "/"

/-- What a format takes: the block and what is inside it, and of a whole disk all of its drive. -/
def Formats (o : Objects) (b c : String) : Prop :=
  Inside o b c ∨ ∃ drive, WholeDisk o drive b ∧ OnDrive o drive c

/-- The blocks a call acts on. -/
def Touches (o : Objects) : Call → String → Prop
  | .mount b _ _, c => c = b
  | .unmount b _, c => c = b
  | .eject drive, c => OnDrive o drive c
  | .powerOff drive, c => OnDrive o drive c
  | .format b _ _, c => Formats o b c

/-- A format is confirmed by the text of its device. -/
def Confirmed (o : Objects) : Request → Prop
  | .format b _ _ confirmation => ∃ k, o.blockAt b = some k ∧ text confirmation = k.formatConfirmation
  | _ => True

/-- The call a request comes to, if any, touches no system volume, and a format is confirmed. -/
def Spares (o : Objects) (r : Request) : Prop :=
  ∀ call, serve o r = .ok call → (∀ c, Touches o call c → ¬ SystemVolume o c) ∧ Confirmed o r

/-! ## What the checks look at -/

theorem systemMounts_ascii {m : Bytes} (h : m ∈ systemMounts) :
    m ≠ [] ∧ Utf8.valid m = true ∧ ∀ c ∈ m, c < 0x80 := by
  have hall : (systemMounts.all fun m => m ≠ [] && Utf8.valid m && m.all (· < 0x80)) = true := by
    decide
  have hm := List.all_eq_true.1 hall m h
  rw [Bool.and_eq_true, Bool.and_eq_true, List.all_eq_true] at hm
  exact ⟨of_decide_eq_true hm.1.1, hm.1.2, fun c hc => of_decide_eq_true (hm.2 c hc)⟩

/-- The decoding keeps the system's mount points apart from all others. -/
theorem toPython_mem_iff (m : Bytes) :
    toPython m ∈ systemMounts ↔ m.rdropWhile (· = 0) ∈ systemMounts := by
  unfold toPython
  by_cases hm : m = []
  · subst hm
    simp only [if_true]
    decide
  · rw [if_neg hm]
    constructor
    · intro h
      rwa [← Utf8.lossy_eq_self_of_ascii (systemMounts_ascii h).2.2]
    · intro h
      rwa [Utf8.lossy_eq_self_iff.2 (systemMounts_ascii h).2.1]

theorem flagged_iff {b : Block} {is : Interfaces} :
    flagged b is = true ↔
      b.hintSystem = true ∨ ∃ m ∈ is.filesystem.getD [], m.rdropWhile (· = 0) ∈ systemMounts := by
  unfold flagged Interfaces.decodeMounts
  rw [Bool.or_eq_true, List.any_eq_true]
  simp only [List.mem_map, decide_eq_true_eq, exists_exists_and_eq_and, toPython_mem_iff]

/-- Without `flagged`, no system volume. -/
theorem systemVolume_iff {c : String} {is : Interfaces} {b : Block} (hget : o.get c = some is)
    (hb : is.block = some b) : SystemVolume o c ↔ flagged b is = true := by
  rw [flagged_iff]
  constructor
  · intro h
    obtain ⟨is', b', hget', hb', h⟩ := h
    rw [hget, Option.some.injEq] at hget'
    subst hget'
    rw [hb, Option.some.injEq] at hb'
    subst hb'
    exact h
  · intro h
    exact ⟨is, b, hget, hb, h⟩

theorem blockAt_eq_some {c : String} {b : Block} :
    o.blockAt c = some b ↔ ∃ is, o.get c = some is ∧ is.block = some b :=
  Option.bind_eq_some_iff

theorem get_eq_some {c : String} {is : Interfaces} :
    o.get c = some is ↔ c ∈ o.paths ∧ o.interfaces c = is := by
  unfold Objects.get
  by_cases h : c ∈ o.paths <;> simp [h]

/-- A path the bridge takes. -/
def IsPath (path : String) : Prop := validateObjectPath path udisksRoot = .ok path

theorem validateObjectPath_ok {path root out : String} (h : validateObjectPath path root = .ok out) :
    out = path := by
  unfold validateObjectPath at h
  split at h
  · exact (Except.ok.inj h).symm
  · cases h

theorem object_eq_ok {path : String} {i : Interface} {is : Interfaces} :
    object o path i = .ok is ↔ IsPath path ∧ o.get path = some is ∧ is.has i = true := by
  unfold object
  rw [Act.except_bind_eq_ok]
  constructor
  · intro h
    obtain ⟨out, hout, h⟩ := h
    obtain rfl := validateObjectPath_ok hout
    split at h
    · next is' hget =>
      split at h
      · next hhas =>
        cases h
        exact ⟨hout, hget, hhas⟩
      · cases h
    · cases h
  · intro h
    obtain ⟨hpath, hget, hhas⟩ := h
    refine ⟨path, hpath, ?_⟩
    rw [hget]
    exact if_pos hhas

/-- What `_safe_block` has seen of a block it lets through. -/
structure SafeBlock (o : Objects) (path : String) (i : Interface) (is : Interfaces) (b : Block) :
    Prop where
  named : IsPath path
  get : o.get path = some is
  has : is.has i = true
  block : is.block = some b
  clear : flagged b is = false
  external : isExternal o b.drive = true

theorem safeBlock_eq_ok {path : String} {i : Interface} {b : Block} :
    safeBlock o path i = .ok b ↔ ∃ is, SafeBlock o path i is b := by
  unfold safeBlock
  rw [Act.except_bind_eq_ok]
  constructor
  · intro h
    obtain ⟨is, his, h⟩ := h
    obtain ⟨hpath, hget, hhas⟩ := object_eq_ok.1 his
    split at h
    · cases h
    · next b' hb =>
      split at h
      · cases h
      · next hclear =>
        split at h
        · next hext =>
          cases h
          exact ⟨is, hpath, hget, hhas, hb, by simpa using hclear, hext⟩
        · cases h
  · intro h
    obtain ⟨is, h⟩ := h
    refine ⟨is, object_eq_ok.2 ⟨h.named, h.get, h.has⟩, ?_⟩
    rw [h.block]
    simp only [h.clear, h.external, Bool.false_eq_true, if_false, if_true]

theorem blocks_iff {drive c : String} (hc : c ∈ o.paths) :
    blocks o drive c = true ↔ Names o drive c ∧ SystemVolume o c := by
  have hget : o.get c = some (o.interfaces c) := get_eq_some.2 ⟨hc, rfl⟩
  unfold blocks Names
  rw [Option.any_eq_true]
  simp only [Bool.and_eq_true, beq_iff_eq, Objects.blockAt, hget, Option.bind_some]
  constructor
  · intro h
    obtain ⟨b, hb, hdrive, hflag⟩ := h
    exact ⟨⟨b, hb, hdrive⟩, (systemVolume_iff hget hb).2 hflag⟩
  · intro h
    obtain ⟨⟨b, hb, hdrive⟩, hsystem⟩ := h
    exact ⟨b, hb, hdrive, (systemVolume_iff hget hb).1 hsystem⟩

/-- What `_safe_drive` has seen of a drive it lets through. -/
structure SafeDrive (o : Objects) (path : String) (is : Interfaces) : Prop where
  named : IsPath path
  get : o.get path = some is
  external : is.drive.any externalDrive = true
  clear : ∀ c, Names o path c → ¬ SystemVolume o c

theorem mem_of_names {drive c : String} (h : Names o drive c) : c ∈ o.paths := by
  obtain ⟨k, hk, -⟩ := h
  obtain ⟨is, his, -⟩ := blockAt_eq_some.1 hk
  exact (get_eq_some.1 his).1

theorem safeDrive_eq_ok {path : String} : safeDrive o path = .ok () ↔ ∃ is, SafeDrive o path is := by
  have hany : o.paths.any (blocks o path) = false ↔ ∀ c, Names o path c → ¬ SystemVolume o c := by
    rw [List.any_eq_false]
    constructor
    · intro h c hc hsystem
      exact h c (mem_of_names hc) ((blocks_iff (mem_of_names hc)).2 ⟨hc, hsystem⟩)
    · intro h c hc hblocks
      obtain ⟨hnames, hsystem⟩ := (blocks_iff hc).1 hblocks
      exact h c hnames hsystem
  unfold safeDrive
  rw [Act.except_bind_eq_ok]
  constructor
  · intro h
    obtain ⟨is, his, h⟩ := h
    obtain ⟨hpath, hget, -⟩ := object_eq_ok.1 his
    split at h
    · next hext =>
      split at h
      · cases h
      · next hblocks => exact ⟨is, hpath, hget, hext, hany.1 (by simpa using hblocks)⟩
    · cases h
  · intro h
    obtain ⟨is, h⟩ := h
    have hhas : is.has .drive = true := by
      obtain ⟨d, hd, -⟩ := (Option.any_eq_true _ _).1 h.external
      rw [Interfaces.has, hd]
      rfl
    refine ⟨is, object_eq_ok.2 ⟨h.named, h.get, hhas⟩, ?_⟩
    simp only [h.external, hany.2 h.clear, Bool.false_eq_true, if_false, if_true]

/-! ## Requests -/

/-- The checks of a request, all passed. -/
def Allowed (o : Objects) : Request → Prop
  | .mount b _ _ => ∃ is k, SafeBlock o b .filesystem is k
  | .unmount b _ => ∃ is k, SafeBlock o b .filesystem is k
  | .driveAction drive action => action ∈ ["eject", "poweroff"] ∧ ∃ is, SafeDrive o drive is
  | .format b filesystem label confirmation => ∃ is k, SafeBlock o b .block is k ∧
      filesystem.toLower ∈ filesystems ∧ validateLabel label = .ok label ∧
      text confirmation = k.formatConfirmation

/-- The call of a request that is let through. -/
def Request.call : Request → Call
  | .mount b readOnly asUser => .mount b readOnly asUser
  | .unmount b force => .unmount b force
  | .driveAction drive action => if action = "eject" then .eject drive else .powerOff drive
  | .format b filesystem label _ => .format b filesystem.toLower label

theorem validateLabel_ok {label out : String} (h : validateLabel label = .ok out) : out = label := by
  unfold validateLabel at h
  split at h
  · exact (Except.ok.inj h).symm
  · cases h

theorem validateFilesystem_eq_ok {filesystem out : String} :
    validateFilesystem filesystem = .ok out ↔
      filesystem.toLower ∈ filesystems ∧ out = filesystem.toLower := by
  unfold validateFilesystem
  split
  · next h =>
    rw [Except.ok.injEq]
    exact ⟨fun hout => ⟨h, hout.symm⟩, fun hout => hout.2.symm⟩
  · next h =>
    constructor
    · intro hout
      cases hout
    · intro hout
      exact absurd hout.1 h

theorem format_eq_ok {b filesystem label confirmation : String} {call : Call} :
    format o b filesystem label confirmation = .ok call ↔
      Allowed o (.format b filesystem label confirmation) ∧
      call = .format b filesystem.toLower label := by
  unfold format Allowed
  simp only [Act.except_bind_eq_ok, safeBlock_eq_ok, validateFilesystem_eq_ok]
  constructor
  · intro h
    obtain ⟨k, ⟨is, hsafe⟩, _, ⟨hfs, rfl⟩, label', hlabel, h⟩ := h
    obtain rfl := validateLabel_ok hlabel
    split at h
    · cases h
    · next hconf =>
      exact ⟨⟨is, k, hsafe, hfs, hlabel, not_not.1 hconf⟩, (Except.ok.inj h).symm⟩
  · intro h
    obtain ⟨⟨is, k, hsafe, hfs, hlabel, hconf⟩, rfl⟩ := h
    refine ⟨k, ⟨is, hsafe⟩, _, ⟨hfs, rfl⟩, label, hlabel, ?_⟩
    rw [if_neg (not_not.2 hconf)]
    rfl

theorem driveAction_eq_ok {drive action : String} {call : Call} :
    driveAction o drive action = .ok call ↔
      (action ∈ ["eject", "poweroff"] ∧ ∃ is, SafeDrive o drive is) ∧
      call = if action = "eject" then .eject drive else .powerOff drive := by
  unfold driveAction
  split
  · next haction =>
    constructor
    · intro h
      cases h
    · intro h
      exact absurd h.1.1 haction
  · next haction =>
    rw [Act.except_bind_eq_ok]
    constructor
    · intro h
      obtain ⟨_, hsafe, h⟩ := h
      exact ⟨⟨not_not.1 haction, safeDrive_eq_ok.1 hsafe⟩, (Except.ok.inj h).symm⟩
    · intro h
      obtain ⟨⟨-, hsafe⟩, rfl⟩ := h
      exact ⟨(), safeDrive_eq_ok.2 hsafe, rfl⟩

/-- A call made once the block is found safe. -/
theorem safeBlock_then {b : String} {call call' : Call} :
    (safeBlock o b .filesystem >>= fun _ => pure call') = .ok call ↔
      (∃ is k, SafeBlock o b .filesystem is k) ∧ call = call' := by
  simp only [Act.except_bind_eq_ok, safeBlock_eq_ok]
  constructor
  · intro h
    obtain ⟨k, ⟨is, hsafe⟩, h⟩ := h
    exact ⟨⟨is, k, hsafe⟩, (Except.ok.inj h).symm⟩
  · intro h
    obtain ⟨⟨is, k, hsafe⟩, rfl⟩ := h
    exact ⟨k, ⟨is, hsafe⟩, rfl⟩

/-- **A request comes to its call** exactly when its checks pass. -/
theorem serve_eq_ok {r : Request} {call : Call} :
    serve o r = .ok call ↔ Allowed o r ∧ call = r.call := by
  cases r with
  | mount b readOnly asUser => exact safeBlock_then
  | unmount b force => exact safeBlock_then
  | driveAction drive action => exact driveAction_eq_ok
  | format b filesystem label confirmation => exact format_eq_ok

/-- What a request acts on and its checks do not look at: what else a format takes, and what is on
a drive without naming it. -/
def Overlooked (o : Objects) : Request → String → Prop
  | .mount _ _ _, _ => False
  | .unmount _ _, _ => False
  | .driveAction drive _, c => OnDrive o drive c ∧ ¬ Names o drive c
  | .format b _ _ _, c => Formats o b c ∧ c ≠ b

theorem touches_driveAction {drive action c : String} :
    Touches o (Request.driveAction drive action).call c ↔ OnDrive o drive c := by
  show Touches o (if action = "eject" then .eject drive else .powerOff drive) c ↔ _
  split <;> exact Iff.rfl

/-- What is overlooked is acted on. -/
theorem touches_of_overlooked {r : Request} {c : String} (h : Overlooked o r c) :
    Touches o r.call c := by
  cases r with
  | mount b readOnly asUser => exact h.elim
  | unmount b force => exact h.elim
  | driveAction drive action => exact touches_driveAction.2 h.1
  | format b filesystem label confirmation => exact h.1

theorem SafeBlock.clear_of {b : String} {i : Interface} {is : Interfaces} {k : Block}
    (h : SafeBlock o b i is k) : ¬ SystemVolume o b := by
  rw [systemVolume_iff h.get h.block, h.clear]
  exact Bool.false_ne_true

/-- What is acted on and not overlooked has been found clear. -/
theorem clear_of_looked {r : Request} (hr : Allowed o r) {c : String} (hc : Touches o r.call c)
    (hlooked : ¬ Overlooked o r c) : ¬ SystemVolume o c := by
  cases r with
  | mount b readOnly asUser =>
    obtain ⟨is, k, hsafe⟩ := hr
    exact (hc : c = b) ▸ hsafe.clear_of
  | unmount b force =>
    obtain ⟨is, k, hsafe⟩ := hr
    exact (hc : c = b) ▸ hsafe.clear_of
  | driveAction drive action =>
    obtain ⟨-, is, hsafe⟩ := hr
    have hnames : Names o drive c := by
      by_contra hnot
      exact hlooked ⟨touches_driveAction.1 hc, hnot⟩
    exact hsafe.clear c hnames
  | format b filesystem label confirmation =>
    obtain ⟨is, k, hsafe, -⟩ := hr
    have heq : c = b := by
      by_contra hne
      exact hlooked ⟨hc, hne⟩
    exact heq ▸ hsafe.clear_of

theorem confirmed_of_allowed {r : Request} (hr : Allowed o r) : Confirmed o r := by
  cases r with
  | format b filesystem label confirmation =>
    obtain ⟨is, k, hsafe, -, -, hconf⟩ := hr
    exact ⟨k, blockAt_eq_some.2 ⟨is, hsafe.get, hsafe.block⟩, hconf⟩
  | _ => exact trivial

/-- **The bridge keeps clear of system volumes exactly where it overlooks none.** -/
theorem spared_iff (o : Objects) (r : Request) :
    Spares o r ↔ (Allowed o r → ∀ c, Overlooked o r c → ¬ SystemVolume o c) := by
  constructor
  · intro h hr c hc
    exact (h r.call (serve_eq_ok.2 ⟨hr, rfl⟩)).1 c (touches_of_overlooked hc)
  · intro h call hcall
    obtain ⟨hr, rfl⟩ := serve_eq_ok.1 hcall
    refine ⟨fun c hc => ?_, confirmed_of_allowed hr⟩
    by_cases hlooked : Overlooked o r c
    · exact h hr c hlooked
    · exact clear_of_looked hr hc hlooked

/-! ## What is overlooked -/

def stickPath : String := "/org/freedesktop/UDisks2/drives/stick"

def sdaPath : String := "/org/freedesktop/UDisks2/block_devices/sda"

def sda1Path : String := "/org/freedesktop/UDisks2/block_devices/sda1"

/-- A drive the system was started from: `/dev/sda1` on it is mounted at `/`. -/
def bootStick : Objects where
  paths := [stickPath, sdaPath, sda1Path]
  interfaces path :=
    if path = stickPath then ⟨some ⟨true, "usb"⟩, none, none⟩
    else if path = sdaPath then
      ⟨none, some ⟨stickPath, false, some (text "/dev/sda" ++ [0]), none, none, []⟩, none⟩
    else ⟨none, some ⟨stickPath, false, some (text "/dev/sda1" ++ [0]), none, some sdaPath, []⟩,
      some [text "/" ++ [0]]⟩

/-- The whole of it is formatted on request. -/
theorem bootStick_formatted : ¬ Spares bootStick (.format sdaPath "ext4" "" "FORMAT /dev/sda") := by
  intro h
  have hcall : serve bootStick (.format sdaPath "ext4" "" "FORMAT /dev/sda") =
      .ok (.format sdaPath "ext4" "") := by
    decide +kernel
  have hcarves : Carves bootStick sdaPath sda1Path :=
    ⟨⟨stickPath, false, some (text "/dev/sda1" ++ [0]), none, some sdaPath, []⟩, by decide,
      Or.inl rfl⟩
  refine (h _ hcall).1 sda1Path (Or.inl (Relation.ReflTransGen.single hcarves)) ?_
  refine ⟨bootStick.interfaces sda1Path, _, by decide, rfl, Or.inr ⟨text "/" ++ [0], ?_, ?_⟩⟩
  · decide
  · decide

end Aurade.Bridge
