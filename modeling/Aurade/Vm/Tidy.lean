import Aurade.Foundations.Text
import Aurade.Vm.Release
import Mathlib.Data.List.DropRight

/-!
# Removing older ISOs

`tidyOldISOs` of `aurade-vm`, with `Superseded`, `Existing` and `isoInUse`, over a base folder of
any files and any VMs. What a VM attaches at its next start is asked of the VM: QEMU is given the
recorded ISO, or the newest in the folder, and every other hypervisor has the path in settings of
its own. What the tidying asks is the record and the `.vmx`, which need not say the same.

An ISO goes exactly if it is superseded, may be removed and no VM vouches for it.
-/

namespace Aurade.Vm.Tidy

open Release

/-! ## The folder -/

/-- The fields of a decoded record that `Existing`, `isoInUse` and a start look at. -/
structure Recorded where
  backend : Bytes
  name : Bytes
  iso : Bytes
  memoryMB : Int

/-- What stands under `RecordFile`. -/
inductive Stored
  | missing
  /-- `json.Unmarshal` fails. -/
  | garbled
  | record (r : Recorded)

/-- Where the ISO comes from when the VM starts. -/
inductive Boots
  /-- The hypervisor's own settings, written as the VM was made. -/
  | settings (iso : Option Bytes)
  /-- QEMU's command line, written at each start. -/
  | qemu

/-- A folder below the base folder. -/
structure Machine where
  name : Bytes
  stored : Stored
  /-- `os.Stat` of the `.vmx` that has the folder's name. -/
  vmxFound : Bool
  /-- What reading the `.vmx` of a name gives, as the VMs are asked about an ISO. -/
  readVmx : Bytes → Bytes → Option Bytes
  boots : Boots

/-- The base folder, and what the system answers there. -/
structure Base where
  /-- The entries that are no folders. -/
  files : List Bytes
  vms : List Machine
  /-- `os.ReadDir` does not fail in `Existing`. -/
  vmsListed : Bool
  /-- `os.ReadDir` does not fail in `Superseded`. -/
  filesListed : Bool
  /-- `os.Stat` of a name below the folder does not fail. -/
  found : Bytes → Bool
  /-- `os.Remove` of a name below the folder fails. -/
  refuses : Bytes → Bool
  /-- The entries that a path passes on the way to its file: links, and the file. -/
  passes : Bytes → List Bytes
  passes_self : ∀ f ∈ files, f ∈ passes f

/-- `filepath.Base`. -/
def base (path : Bytes) : Bytes :=
  if path = [] then text "." else
  let stripped := path.rdropWhile (· = 47)
  if stripped = [] then text "/" else stripped.rtakeWhile (· ≠ 47)

/-- A VM as `Existing` lists it. -/
structure Listed where
  iso : Bytes
  /-- What reading the `.vmx` gives, as the VMs are asked about an ISO. -/
  readVmx : Bytes → Option Bytes

/-- One turn of the loop of `Existing`. -/
def listed (vm : Machine) : Option Listed :=
  let early := if vm.vmxFound then some ⟨[], vm.readVmx vm.name⟩ else none
  match vm.stored with
  | .record r =>
    if r.backend ≠ [] then
      let name := if r.name = [] then vm.name else r.name
      some ⟨r.iso, vm.readVmx name⟩
    else early
  | _ => early

/-- `Existing`. They are sorted by name, which plays no part here. -/
def existing (b : Base) : List Listed :=
  if b.vmsListed then b.vms.filterMap listed else []

/-- `Superseded`. -/
def superseded (b : Base) (keep : Bytes) : List Bytes :=
  if b.filesListed then
    b.files.filter fun name =>
      if !(text "aurade-").isPrefixOf name || !(text "-x86_64.iso").isSuffixOf name then false
      else if name = keep then false
      else b.found (checked name)
  else []

-- `strings.EqualFold`, and `bytes.ToLower` or `strings.ToLower`
section

variable (equalFold : Bytes → Bytes → Bool) (lower : Bytes → Bytes)

def isoInUse : List Listed → Bytes → Bool
  | [], _ => false
  | r :: vms, iso =>
    if r.iso ≠ [] then
      if equalFold (base r.iso) iso then true else isoInUse vms iso
    else
      match r.readVmx iso with
      | none => true
      | some b => if (findSub (lower iso) (lower b)).isSome then true else isoInUse vms iso

/-- `os.Remove`. -/
def remove (b : Base) (files : List Bytes) (name : Bytes) : List Bytes :=
  if b.refuses name then files else files.filter (· ≠ name)

/-- The loop of `tidyOldISOs`. -/
def tidy (b : Base) (vms : List Listed) : List Bytes → List Bytes → List Bytes
  | [], files => files
  | old :: rest, files =>
    if isoInUse equalFold lower vms old then tidy b vms rest files
    else if b.refuses old then tidy b vms rest files
    else tidy b vms rest (remove b (remove b (remove b files old) (checked old)) (part old))

/-- The files that are left. -/
def tidyOldISOs (b : Base) (current : Bytes) : List Bytes :=
  tidy equalFold lower b (existing b) (superseded b current) b.files

theorem mem_remove {b : Base} {files : List Bytes} {name e : Bytes} :
    e ∈ remove b files name ↔ e ∈ files ∧ (e = name → b.refuses name = true) := by
  cases h : b.refuses name <;> simp [remove, h]

/-- What goes with an ISO that is removed. -/
def Goes (b : Base) (old e : Bytes) : Prop :=
  b.refuses old = false ∧
    (e = old ∨ e = checked old ∧ b.refuses (checked old) = false ∨
      e = part old ∧ b.refuses (part old) = false)

theorem mem_remove_three {b : Base} {files : List Bytes} {old e : Bytes} (h : b.refuses old = false) :
    e ∈ remove b (remove b (remove b files old) (checked old)) (part old) ↔
      e ∈ files ∧ ¬ Goes b old e := by
  simp only [mem_remove, Goes, h]
  grind

theorem mem_tidy {b : Base} {vms : List Listed} {e : Bytes} (olds files : List Bytes) :
    e ∈ tidy equalFold lower b vms olds files ↔
      e ∈ files ∧ ∀ old ∈ olds, isoInUse equalFold lower vms old = false → ¬ Goes b old e := by
  induction olds generalizing files with
  | nil => simp [tidy]
  | cons old rest ih =>
    rw [tidy, List.forall_mem_cons]
    cases huse : isoInUse equalFold lower vms old
    · cases href : b.refuses old
      · simp only [Bool.false_eq_true, if_false, ih, mem_remove_three href, forall_const]
        exact and_assoc
      · have hgoes : ¬ Goes b old e := fun h => by simp [h.1] at href
        simp only [Bool.false_eq_true, if_false, if_true, ih, hgoes, not_false_eq_true, forall_const,
          true_and]
    · simp only [if_true, ih, Bool.true_eq_false, IsEmpty.forall_iff, true_and]

/-! ## What a VM's folder says -/

/-- The `.vmx` that stands for a VM with no recorded ISO is the one of this name. -/
inductive Unrecorded (vm : Machine) : Bytes → Prop
  | record {r : Recorded} (hstored : vm.stored = .record r) (hbackend : r.backend ≠ [])
      (hiso : r.iso = []) : Unrecorded vm (if r.name = [] then vm.name else r.name)
  | early (hstored : ∀ r, vm.stored = .record r → r.backend = []) (hvmx : vm.vmxFound = true) :
      Unrecorded vm vm.name

/-- The folder says that the VM may start from the ISO: the record names one of that last name, or
there is no recorded ISO and the `.vmx` has the name in it or cannot be read. -/
inductive Vouches (vm : Machine) (iso : Bytes) : Prop
  | recorded {r : Recorded} (hstored : vm.stored = .record r) (hbackend : r.backend ≠ [])
      (hiso : r.iso ≠ []) (hname : equalFold (base r.iso) iso = true)
  | unreadable {name : Bytes} (hname : Unrecorded vm name) (hread : vm.readVmx name iso = none)
  | mentioned {name b : Bytes} (hname : Unrecorded vm name) (hread : vm.readVmx name iso = some b)
      (hmem : lower iso <:+: lower b)

/-- What `isoInUse` finds at one of the VMs. -/
def Listed.Uses (r : Listed) (iso : Bytes) : Prop :=
  if r.iso ≠ [] then equalFold (base r.iso) iso = true
  else ∀ b, r.readVmx iso = some b → lower iso <:+: lower b

theorem isoInUse_iff {vms : List Listed} {iso : Bytes} :
    isoInUse equalFold lower vms iso = true ↔ ∃ r ∈ vms, r.Uses equalFold lower iso := by
  induction vms with
  | nil => simp [isoInUse]
  | cons r vms ih =>
    rw [isoInUse, List.exists_mem_cons_iff, Listed.Uses]
    split_ifs with hiso hname
    · simp [hname]
    · simp [hname, ih]
    · cases hread : r.readVmx iso with
      | none => simp
      | some b => simp [isSome_findSub_iff, ih]

theorem listed_record {vm : Machine} {r : Recorded} (hstored : vm.stored = .record r)
    (hbackend : r.backend ≠ []) :
    listed vm = some ⟨r.iso, vm.readVmx (if r.name = [] then vm.name else r.name)⟩ := by
  simp [listed, hstored, hbackend]

theorem listed_early {vm : Machine} (hstored : ∀ r, vm.stored = .record r → r.backend = []) :
    listed vm = if vm.vmxFound then some ⟨[], vm.readVmx vm.name⟩ else none := by
  cases h : vm.stored with
  | missing => simp [listed, h]
  | garbled => simp [listed, h]
  | record r => simp [listed, h, hstored r h]

theorem listed_of_unrecorded {vm : Machine} {name : Bytes} (h : Unrecorded vm name) :
    listed vm = some ⟨[], vm.readVmx name⟩ := by
  cases h with
  | record hstored hbackend hiso => rw [listed_record hstored hbackend, hiso]
  | early hstored hvmx => rw [listed_early hstored, if_pos hvmx]

/-- `Existing` lists a VM by its record, or by its `.vmx` where no record names a backend. -/
theorem listed_cases {vm : Machine} {r : Listed} (h : listed vm = some r) :
    (∃ q, vm.stored = .record q ∧ q.backend ≠ [] ∧
      r = ⟨q.iso, vm.readVmx (if q.name = [] then vm.name else q.name)⟩) ∨
    ∃ name, Unrecorded vm name ∧ r = ⟨[], vm.readVmx name⟩ := by
  by_cases hq : ∃ q, vm.stored = .record q ∧ q.backend ≠ []
  · obtain ⟨q, hstored, hbackend⟩ := hq
    rw [listed_record hstored hbackend] at h
    exact .inl ⟨q, hstored, hbackend, (Option.some.inj h).symm⟩
  · have hstored : ∀ q, vm.stored = .record q → q.backend = [] := fun q hs =>
      not_not.1 fun hb => hq ⟨q, hs, hb⟩
    rw [listed_early hstored, Option.ite_none_right_eq_some] at h
    exact .inr ⟨_, .early hstored h.1, (Option.some.inj h.2).symm⟩

theorem vouches_of_unrecorded {vm : Machine} {name iso : Bytes} (hname : Unrecorded vm name)
    (h : ∀ b, vm.readVmx name iso = some b → lower iso <:+: lower b) :
    Vouches equalFold lower vm iso := by
  cases hread : vm.readVmx name iso with
  | none => exact .unreadable hname hread
  | some b => exact .mentioned hname hread (h b hread)

/-- `isoInUse`, asked of what `Existing` lists, is that some VM vouches for the ISO. -/
theorem uses_iff_vouches {vm : Machine} {iso : Bytes} :
    (∃ r, listed vm = some r ∧ r.Uses equalFold lower iso) ↔ Vouches equalFold lower vm iso := by
  constructor
  · rintro ⟨r, hr, huses⟩
    obtain ⟨q, hq, hb, rfl⟩ | ⟨name, hname, rfl⟩ := listed_cases hr
    · by_cases hiso : q.iso = []
      · exact vouches_of_unrecorded _ _ (.record hq hb hiso) (by simpa [Listed.Uses, hiso] using huses)
      · exact .recorded hq hb hiso (by simpa [Listed.Uses, hiso] using huses)
    · exact vouches_of_unrecorded _ _ hname (by simpa [Listed.Uses] using huses)
  · intro h
    cases h with
    | recorded hstored hbackend hiso hname =>
      exact ⟨_, listed_record hstored hbackend, by simpa [Listed.Uses, hiso] using hname⟩
    | unreadable hname hread =>
      exact ⟨_, listed_of_unrecorded hname, by simp [Listed.Uses, hread]⟩
    | mentioned hname hread hmem =>
      exact ⟨_, listed_of_unrecorded hname, by simp [Listed.Uses, hread, hmem]⟩

theorem isoInUse_existing_iff {b : Base} {iso : Bytes} :
    isoInUse equalFold lower (existing b) iso = true ↔
      b.vmsListed = true ∧ ∃ vm ∈ b.vms, Vouches equalFold lower vm iso := by
  rw [isoInUse_iff, existing]
  split_ifs with hlisted
  · simp only [List.mem_filterMap, hlisted, true_and, ← uses_iff_vouches]
    grind
  · simp [hlisted]

/-! ## What has to stay -/

/-- The ISO that the VM attaches when it is started next, as things are. -/
def attaches (b : Base) (vm : Machine) : Option Bytes :=
  match vm.boots with
  | .settings iso => iso
  | .qemu =>
    let newest := newestISO (b.files ++ b.vms.map (·.name))
    match vm.stored with
    | .record r =>
      -- a record that says no memory is not taken
      if b.vmsListed ∧ r.backend = text "qemu" ∧ 0 < r.memoryMB ∧ r.iso ≠ [] then some r.iso
      else newest
    | _ => newest

/-- An ISO that a VM starts from, one without a stamp, the current one. -/
inductive Wanted (b : Base) (current : Bytes) : Bytes → Prop
  | attached {vm : Machine} {path : Bytes} (hvm : vm ∈ b.vms) (hpath : attaches b vm = some path) :
      Wanted b current path
  | unstamped {iso : Bytes} (hfile : iso ∈ b.files) (hiso : text ".iso" <:+ iso)
      (hstamp : b.found (checked iso) = false) : Wanted b current iso
  | current : Wanted b current current

/-- All that a path passes is there. -/
def Stands (b : Base) (files : List Bytes) (path : Bytes) : Prop := ∀ e ∈ b.passes path, e ∈ files

/-- What has to stay stands afterwards where it did before. -/
def Keeps (b : Base) (current : Bytes) : Prop :=
  ∀ path, Wanted b current path → Stands b b.files path →
    Stands b (tidyOldISOs equalFold lower b current) path

/-- A VM vouches for every superseded ISO that may be removed and whose going would take away
something that has to stay. -/
def Vouched (b : Base) (current : Bytes) : Prop :=
  ∀ path, Wanted b current path → Stands b b.files path →
    ∀ e ∈ b.passes path, ∀ old ∈ superseded b current, Goes b old e →
      b.vmsListed = true ∧ ∃ vm ∈ b.vms, Vouches equalFold lower vm old


theorem mem_tidyOldISOs {b : Base} {current e : Bytes} :
    e ∈ tidyOldISOs equalFold lower b current ↔ e ∈ b.files ∧ ∀ old ∈ superseded b current,
      Goes b old e → b.vmsListed = true ∧ ∃ vm ∈ b.vms, Vouches equalFold lower vm old := by
  rw [tidyOldISOs, mem_tidy]
  refine and_congr_right fun _ => forall₂_congr fun old _ => ?_
  rw [← isoInUse_existing_iff, ← Bool.not_eq_true]
  exact not_imp_not

theorem text_iso_not_suffix {e old tail : Bytes} (hiso : text ".iso" <:+ e)
    (h : (text ".iso").getLast? ≠ tail.getLast?) (htail : tail ≠ []) : e ≠ old ++ tail := by
  rintro rfl
  obtain ⟨a, ha⟩ := hiso
  have hlast := congrArg List.getLast? ha
  rw [List.getLast?_append_of_ne_nil _ (by decide), List.getLast?_append_of_ne_nil _ htail] at hlast
  exact h hlast

/-- The current ISO, and one without a stamp, is never removed itself. -/
theorem spared {b : Base} {current e : Bytes} (hfile : e ∈ b.files) (hiso : text ".iso" <:+ e)
    (h : e = current ∨ b.found (checked e) = false) :
    e ∈ tidyOldISOs equalFold lower b current := by
  refine (mem_tidyOldISOs _ _).2 ⟨hfile, fun old hold hgoes => ?_⟩
  obtain rfl | ⟨rfl, -⟩ | ⟨rfl, -⟩ := hgoes.2
  · rw [superseded] at hold
    split_ifs at hold with hlisted
    · have hmem := (List.mem_filter.1 hold).2
      rcases h with rfl | h <;> simp_all
    · cases hold
  · exact absurd rfl (text_iso_not_suffix hiso (by decide) (by decide))
  · exact absurd rfl (text_iso_not_suffix hiso (by decide) (by decide))

end

/-- A libvirt VM whose record was cut short as it was written, and two checked releases. -/
def cutRecord : Base where
  files := [isoName (text "v1.0.0"), checked (isoName (text "v1.0.0")),
    isoName (text "v2.0.0"), checked (isoName (text "v2.0.0"))]
  vms := [⟨text "old", .garbled, false, fun _ _ => none,
    .settings (some (text "/home/me/VMs/" ++ isoName (text "v1.0.0")))⟩]
  vmsListed := true
  filesListed := true
  found := fun _ => true
  refuses := fun _ => false
  passes := fun path => [base path]
  passes_self := by
    simp only [List.forall_mem_cons]
    decide

end Aurade.Vm.Tidy
