import Mathlib
import Aurade.Foundations.Act
import Aurade.Fs.Path
import Aurade.Recovery.Entry

/-!
# Snapshots to roll back to

`snapshot` takes a snapshot of the system and, when it is asked to, points the entry of the boot menu
that rolls back at it: the kernel and the initrds are copied into a folder of the snapshot's name, the
entry is moved into place, and the folders of earlier snapshots are swept. Then the manual snapshots that
are more than are kept are deleted, by name and the first ones first.

Any command may fail (`Call.fails`). A call that fails leaves the entry, what it names and every earlier
snapshot as they were, unless it is the sweep that failed: then the entry names the snapshot that is taken
back (`failed_call`). The entry stays bootable over any number of calls that do not delete the snapshot
it names (`bootable_run`), and after one that returns exactly if it did not (`returned_bootable_iff`).
-/

namespace Aurade.Recovery

/-! ## The machine -/

/-- A place of the boot partition: the names from its top down. -/
abbrev Place := List Bytes

/-- What can be at a place. -/
inductive Item
  | dir
  | file (contents : Bytes)
  deriving DecidableEq

/-- What the command reads and writes: the folders of `.snapshots` that hold a snapshot, and what is on the
boot partition. -/
structure Machine where
  snapshots : List Bytes
  nodup : snapshots.Nodup
  boot : Place → Option Item

def normalEntry : Place := [text "loader", text "entries", text "aurade.conf"]

def rollbackEntry : Place := [text "loader", text "entries", text "aurade-rollback.conf"]

def rollbacks : Bytes := text "aurade-rollback"

def factory : Bytes := text "factory"

namespace Machine

def put (m : Machine) (p : Place) (item : Option Item) : Machine :=
  { m with boot := Function.update m.boot p item }

def add (m : Machine) (name : Bytes) : Machine :=
  { m with snapshots := m.snapshots.insert name, nodup := m.nodup.insert }

/-- `btrfs subvolume delete` -/
def drop (m : Machine) (name : Bytes) : Machine :=
  { m with snapshots := m.snapshots.erase name, nodup := m.nodup.erase name }

/-- Everything of these places is deleted. -/
def clear (m : Machine) (gone : Place → Bool) : Machine :=
  { m with boot := fun p => if gone p then none else m.boot p }

@[simp] theorem put_snapshots (m : Machine) (p : Place) (item : Option Item) :
    (m.put p item).snapshots = m.snapshots := rfl

@[simp] theorem clear_snapshots (m : Machine) (gone : Place → Bool) :
    (m.clear gone).snapshots = m.snapshots := rfl

@[simp] theorem add_boot (m : Machine) (name : Bytes) : (m.add name).boot = m.boot := rfl

@[simp] theorem drop_boot (m : Machine) (name : Bytes) : (m.drop name).boot = m.boot := rfl

theorem put_boot (m : Machine) (p : Place) (item : Option Item) (q : Place) :
    (m.put p item).boot q = if q = p then item else m.boot q := by
  exact Function.update_apply m.boot p item q

theorem mem_add {m : Machine} {name n : Bytes} :
    n ∈ (m.add name).snapshots ↔ n = name ∨ n ∈ m.snapshots := List.mem_insert_iff

theorem mem_drop {m : Machine} {name n : Bytes} :
    n ∈ (m.drop name).snapshots ↔ n ≠ name ∧ n ∈ m.snapshots := m.nodup.mem_erase_iff

end Machine

/-- The names of a path on the boot partition. -/
def names (path : Bytes) : Place := (path.splitOn Fs.slash).filter fun n => n ≠ [] ∧ n ≠ [Fs.dot]

/-- What a path leads to. One that ends in a slash or a dot leads to no file. -/
def lookAt (boot : Place → Option Item) (path : Bytes) : Option Item :=
  match boot (names path) with
  | some (.file contents) =>
    if (path.splitOn Fs.slash).getLast? = (names path).getLast? then some (.file contents) else none
  | found => found

/-- The contents of a file. -/
def fileAt (m : Machine) (p : Place) : Option Bytes :=
  match m.boot p with
  | some (.file contents) => some contents
  | _ => none

/-! ## The command -/

/-- The commands that may fail. -/
inductive Step
  | folder
  | snapshot
  | bootFolder
  | install (i : ℕ)
  | mktemp
  | write
  | chmod
  | move
  | sweep
  | delete (name : Bytes)
  | unlink (p : Place)
  deriving DecidableEq

/-- How the command ends when it fails. -/
inductive Failure
  | badLabel
  | snapshotExists
  | missingEntry
  | unsafePath (artifact : Bytes)
  | missingArtifact (artifact : Bytes)
  | noArtifacts
  | unmeasured
  | noSpace
  | noSubvolume
  | step (s : Step)
  deriving DecidableEq

/-- A byte of a label, and of a moment as `date` writes it. -/
def isLabelByte (b : UInt8) : Bool :=
  isDigit b || (65 ≤ b && b ≤ 90) || (97 ≤ b && b ≤ 122) || b = 46 || b = 95 || b = 45

/-- A call: what it is asked for, what it finds of the clock and of the free space, which commands fail,
and what a copy that fails leaves at its place. -/
structure Call where
  label : Bytes
  stamp : Bytes
  plain : stamp.all isLabelByte = true
  setRollback : Bool
  retention : ℕ
  available : Option ℕ
  reserve : ℕ
  dirSize : ℕ
  fails : Step → Bool
  leaves : ℕ → Option Item

namespace Call

variable (c : Call)

/-- The folder of the snapshot. -/
def name : Bytes := text "manual-" ++ c.stamp ++ 45 :: c.label

def LabelOk : Prop := c.label ≠ [] ∧ c.label.length ≤ 48 ∧ c.label.all isLabelByte = true

instance : Decidable c.LabelOk := inferInstanceAs (Decidable (_ ∧ _))

/-- The folder of the boot partition with what the new entry loads. -/
def home : Place := [rollbacks, c.name]

/-- A command of the script. -/
def step (s : Step) : Act Machine Failure Unit :=
  if c.fails s then Act.fail (.step s) else pure ()

/-- What is asked of an artifact. -/
def check (m : Machine) (artifact : Bytes) : Except Failure Item :=
  if artifact.head? ≠ some Fs.slash ∨ (findSub [Fs.dot, Fs.dot] artifact).isSome then
    .error (.unsafePath artifact)
  else
    match lookAt m.boot artifact with
    | none => .error (.missingArtifact artifact)
    | some item => .ok item

def size : Item → ℕ
  | .dir => c.dirSize
  | .file contents => contents.length

/-- What is asked before anything is done: the artifacts of the normal entry, which have to fit. -/
def prepare (m : Machine) : Except Failure (List Bytes) :=
  if c.setRollback then
    match m.boot normalEntry with
    | none => .error .missingEntry
    | some _ => do
      let wanted := artifacts ((fileAt m normalEntry).getD [])
      let items ← wanted.mapM (check m)
      if wanted = [] then .error .noArtifacts
      else
        match c.available with
        | none => .error .unmeasured
        | some available =>
          if available < (items.map c.size).sum + c.reserve then .error .noSpace else .ok wanted
  else .ok []

/-- `install -d` -/
def makeFolder (p : Place) : Act Machine Failure Unit := do
  let m ← Act.get
  match m.boot p with
  | some (.file _) => Act.fail (.step .bootFolder)
  | some .dir => pure ()
  | none => Act.modify fun m => m.put p (some .dir)

/-- Copy one artifact into the folder; a folder is not copied. -/
def install (i : ℕ) (artifact : Bytes) : Act Machine Failure Unit := do
  let m ← Act.get
  let place := c.home ++ [basename artifact]
  let place := if m.boot place = some .dir then place ++ [basename artifact] else place
  match lookAt m.boot artifact with
  | some (.file contents) =>
    if c.fails (.install i) then do
      Act.modify fun m => m.put place (c.leaves i)
      Act.fail (.step (.install i))
    else Act.modify fun m => m.put place (some (.file contents))
  | _ => Act.fail (.step (.install i))

/-- Copy the artifacts one after the other. -/
def installAll : ℕ → List Bytes → Act Machine Failure Unit
  | _, [] => pure ()
  | i, artifact :: rest => do
    c.install i artifact
    installAll (i + 1) rest

/-- Make the new entry and move it into place. -/
def moveEntry : Act Machine Failure Unit := do
  c.step .mktemp
  let m ← Act.get
  let entry := (fileAt m normalEntry).getD []
  match if c.fails .write then none else rewrite c.name c.label entry with
  | none => Act.fail .noSubvolume
  | some new => do
    c.step .chmod
    c.step .move
    Act.modify fun m => m.put rollbackEntry (some (.file new))

/-- A place that the sweep takes: it is in a folder of another snapshot, and is no place of the factory's. -/
def swept (m : Machine) : Place → Bool
  | top :: folder :: rest =>
    top = rollbacks && folder ≠ c.name && folder ≠ factory && m.boot [top, folder] = some .dir &&
      !c.fails (.unlink (top :: folder :: rest))
  | _ => false

/-- Sweep the folders of earlier snapshots. -/
def sweep : Act Machine Failure Unit := do
  let m ← Act.get
  Act.modify fun m' => m'.clear (c.swept m)
  c.step .sweep

/-- Point the rollback entry at the snapshot. -/
def point (wanted : List Bytes) : Act Machine Failure Unit := do
  c.step .bootFolder
  makeFolder [rollbacks]
  makeFolder c.home
  c.installAll 0 wanted
  c.moveEntry
  c.sweep

/-- `cleanup_partial_snapshot`: what the exit trap takes back. -/
def cleanup (m : Machine) : Machine :=
  let m := if c.fails (.delete c.name) then m else m.drop c.name
  if m.boot c.home = some .dir then
    m.clear fun p => c.home.isPrefixOf p && !c.fails (.unlink p)
  else m

/-- Delete the first of the snapshots while there are more than are kept. -/
def pruneLoop : List Bytes → Machine → Machine
  | [], m => m
  | oldest :: rest, m =>
    if c.retention ≤ rest.length then
      if c.fails (.delete oldest) then m else pruneLoop rest (m.drop oldest)
    else m

end Call

/-- The manual snapshots, by name. -/
def manual (m : Machine) : List Bytes :=
  (m.snapshots.filter (text "manual-").isPrefixOf).insertionSort (· ≤ ·)

/-- `aurade-recovery snapshot` -/
def snapshot (c : Call) : Act Machine Failure Bytes := do
  if ¬ c.LabelOk then Act.fail .badLabel
  else
    let m ← Act.get
    if c.name ∈ m.snapshots then Act.fail .snapshotExists
    else
      let wanted ← Act.lift (c.prepare m)
      c.step .folder
      c.step .snapshot
      Act.modify fun m => m.add c.name
      if c.setRollback then
        match ← (c.point wanted).attempt with
        | .ok () => pure ()
        | .error e => do
          Act.modify c.cleanup
          Act.fail e
      Act.modify fun m => c.pruneLoop (manual m) m
      pure c.name

/-! ## Names and places -/

theorem label_byte {b : UInt8} (h : isLabelByte b = true) : isSpace b = false ∧ b ≠ Fs.slash := by
  revert b
  have hall : ∀ b : UInt8, decide (isLabelByte b = true → isSpace b = false ∧ b ≠ Fs.slash) = true :=
    forall_byte (by decide +kernel)
  exact fun {b} => of_decide_eq_true (hall b)

theorem Call.label_isLabel {c : Call} (h : c.LabelOk) : IsLabel c.label :=
  ⟨h.1, fun b hb => (label_byte (List.all_eq_true.1 h.2.2 b hb)).1⟩

theorem Call.name_isLabel {c : Call} (h : c.LabelOk) : IsLabel c.name ∧ Fs.slash ∉ c.name := by
  have hbytes : ∀ b ∈ c.name, isLabelByte b = true := by
    have hmanual : ∀ b ∈ text "manual-", isLabelByte b = true := List.all_eq_true.1 (by decide)
    intro b hb
    simp only [Call.name, List.mem_append, List.mem_cons] at hb
    rcases hb with (hb | hb) | rfl | hb
    · exact hmanual b hb
    · exact List.all_eq_true.1 c.plain b hb
    · decide
    · exact List.all_eq_true.1 h.2.2 b hb
  refine ⟨⟨by simp [Call.name], fun b hb => (label_byte (hbytes b hb)).1⟩, fun hb => ?_⟩
  exact (label_byte (hbytes _ hb)).2 rfl

theorem Call.name_manual (c : Call) : (text "manual-").isPrefixOf c.name = true := by
  rw [Call.name, List.append_assoc, List.isPrefixOf_iff_prefix]
  exact List.prefix_append _ _

theorem Call.name_ne {c : Call} {n : Bytes} (h : (text "manual-").isPrefixOf n = false) : c.name ≠ n := by
  rintro rfl
  rw [c.name_manual] at h
  cases h

/-- A path that leads to a file ends in the name of the file. -/
theorem basename_of_lookAt {boot : Place → Option Item} {path b : Bytes}
    (h : lookAt boot path = some (.file b)) :
    basename path ≠ [] ∧ basename path ≠ [Fs.dot] ∧ Fs.slash ∉ basename path := by
  rw [lookAt] at h
  split at h
  · split_ifs at h with hlast
    have hbase : some (basename path) = (path.splitOn Fs.slash).getLast? := by
      rw [basename, List.getLast?_eq_some_getLast (List.splitOn_ne_nil _ _)]
      rfl
    have hmem : basename path ∈ names path := List.mem_of_getLast? (hlast ▸ hbase).symm
    have hne : basename path ≠ [] ∧ basename path ≠ [Fs.dot] := by
      simpa using (List.mem_filter.1 hmem).2
    exact ⟨hne.1, hne.2, notMem_of_mem_splitOn (basename_mem path)⟩
  · next hother => exact absurd h (hother b)

/-- The place of a file of the folder. -/
theorem names_home {name base : Bytes} (hname : name ≠ []) (hdot : name ≠ [Fs.dot])
    (hslash : Fs.slash ∉ name) (hbase : base ≠ []) (hbdot : base ≠ [Fs.dot]) (hbslash : Fs.slash ∉ base)
    (boot : Place → Option Item) :
    names (text "/aurade-rollback/" ++ name ++ 47 :: base) = [rollbacks, name, base] ∧
    ∀ b, boot [rollbacks, name, base] = some (.file b) →
      lookAt boot (text "/aurade-rollback/" ++ name ++ 47 :: base) = some (.file b) := by
  have hsplit : (text "/aurade-rollback/" ++ name ++ 47 :: base).splitOn Fs.slash =
      [[], rollbacks, name, base] := by
    have hpath : text "/aurade-rollback/" ++ name ++ 47 :: base =
        [Fs.slash].intercalate [[], rollbacks, name, base] := by
      simp only [List.intercalate, List.intersperse, List.flatten_cons, List.flatten_nil, List.append_nil,
        List.append_assoc]
      rfl
    rw [hpath, List.splitOn_intercalate _ _ (by simp)]
    simp only [List.forall_mem_cons, List.not_mem_nil, not_false_eq_true, true_and]
    exact ⟨by decide, hslash, hbslash, fun l hl => hl.elim⟩
  have hnames : names (text "/aurade-rollback/" ++ name ++ 47 :: base) = [rollbacks, name, base] := by
    have hrb : rollbacks ≠ [] ∧ rollbacks ≠ [Fs.dot] := by decide
    rw [names, hsplit]
    simp [hname, hdot, hbase, hbdot, hrb]
  refine ⟨hnames, fun b hb => ?_⟩
  simp only [lookAt, hnames, hsplit, hb]
  exact if_pos rfl

/-- A path that leads to a file leads to one as long as there is one at its place. -/
theorem lookAt_file {m m' : Machine} {path b : Bytes} (hb : lookAt m.boot path = some (.file b))
    (h : (fileAt m (names path)).isSome → (fileAt m' (names path)).isSome) :
    ∃ b', lookAt m'.boot path = some (.file b') := by
  rw [lookAt] at hb
  split at hb
  · next contents hc =>
    rw [fileAt, hc] at h
    obtain ⟨b', hb'⟩ := Option.isSome_iff_exists.1 (h rfl)
    rw [fileAt] at hb'
    split at hb'
    · next contents' hc' =>
      split_ifs at hb with hlast
      exact ⟨contents', by rw [lookAt, hc']; exact if_pos hlast⟩
    · cases hb'
  · next hother => exact absurd hb (hother b)

/-! ## What the steps leave alone -/

/-- Only the folder of the snapshot changes. -/
def Aside (c : Call) (m m' : Machine) : Prop :=
  m'.snapshots = m.snapshots ∧ ∀ p, ¬ c.home <+: p → fileAt m' p = fileAt m p

section

variable {c : Call}

theorem Aside.refl (m : Machine) : Aside c m m := ⟨rfl, fun _ _ => rfl⟩

theorem Aside.trans {m₁ m₂ m₃ : Machine} (h : Aside c m₁ m₂) (h' : Aside c m₂ m₃) : Aside c m₁ m₃ :=
  ⟨h'.1.trans h.1, fun p hp => (h'.2 p hp).trans (h.2 p hp)⟩

theorem fileAt_put (m : Machine) (p : Place) (item : Option Item) (q : Place) :
    fileAt (m.put p item) q =
      if q = p then (match item with | some (.file b) => some b | _ => none) else fileAt m q := by
  rw [fileAt, Machine.put_boot]
  split_ifs <;> rfl

theorem aside_put {m : Machine} {p : Place} (hp : c.home <+: p) (item : Option Item) :
    Aside c m (m.put p item) := by
  refine ⟨rfl, fun q hq => ?_⟩
  rw [fileAt_put, if_neg]
  rintro rfl
  exact hq hp

/-- What comes before the entry is moved: only the folder of the snapshot changes, and no sweep fails. -/
def Early {α : Type} (c : Call) (act : Act Machine Failure α) : Prop :=
  ∀ m, act.wp (fun _ m' => Aside c m m') (fun e m' => e ≠ .step .sweep ∧ Aside c m m') m

theorem Early.bind {α β : Type} {act : Act Machine Failure α} {f : α → Act Machine Failure β}
    (h : Early c act) (hf : ∀ a, Early c (f a)) : Early c (act >>= f) := by
  intro m
  rw [Act.wp_bind]
  refine Act.wp_mono (h m) (fun a m' hm => ?_) fun _ _ h => h
  exact Act.wp_mono (hf a m') (fun _ _ h' => hm.trans h') fun _ _ h' => ⟨h'.1, hm.trans h'.2⟩

theorem makeFolder_wp (p : Place) (m : Machine) :
    (Call.makeFolder p).wp (fun _ m' => Aside c m m' ∧ ∀ q, q ≠ p → m'.boot q = m.boot q)
      (fun e m' => e ≠ .step .sweep ∧ Aside c m m') m := by
  rw [Call.makeFolder, Act.wp_bind, Act.wp_get]
  split
  · exact ⟨by simp, .refl m⟩
  · exact ⟨.refl m, fun _ _ => rfl⟩
  · next hnone =>
    refine ⟨⟨rfl, fun q _ => ?_⟩, fun q hq => ?_⟩
    · rw [fileAt_put]
      split_ifs with hq
      · rw [hq, fileAt, hnone]
      · rfl
    · rw [Machine.put_boot, if_neg hq]

theorem early_install (i : ℕ) (artifact : Bytes) : Early c (c.install i artifact) := by
  intro m
  have hhome : c.home <+: (if m.boot (c.home ++ [basename artifact]) = some .dir then
      c.home ++ [basename artifact] ++ [basename artifact] else c.home ++ [basename artifact]) := by
    split_ifs
    · rw [List.append_assoc]
      exact List.prefix_append _ _
    · exact List.prefix_append _ _
  rw [Call.install, Act.wp_bind, Act.wp_get]
  dsimp only
  split
  · rw [Act.wp_ite, Act.wp_bind, Act.wp_modify, Act.wp_modify]
    exact ⟨fun _ => ⟨by simp, aside_put hhome _⟩, fun _ => aside_put hhome _⟩
  · exact ⟨by simp, .refl m⟩

theorem early_installAll (wanted : List Bytes) (i : ℕ) : Early c (c.installAll i wanted) := by
  induction wanted generalizing i with
  | nil => exact fun m => .refl m
  | cons artifact rest ih => exact (early_install i artifact).bind fun _ => ih (i + 1)

/-! ## The folder of the snapshot -/

/-- No folder is where the artifacts go. -/
def Clear (c : Call) (m : Machine) : Prop := ∀ x, m.boot (c.home ++ [x]) ≠ some .dir

/-- Each artifact is a file of the folder, and was a file where it is loaded from. -/
def Installed (c : Call) (m m' : Machine) (wanted : List Bytes) : Prop :=
  ∀ artifact ∈ wanted, (fileAt m' (c.home ++ [basename artifact])).isSome ∧
    ∃ m₁ b, Aside c m m₁ ∧ lookAt m₁.boot artifact = some (.file b)

theorem install_wp {m : Machine} (hclear : Clear c m) (i : ℕ) (artifact : Bytes) :
    (c.install i artifact).wp (fun _ m' => ∃ b, lookAt m.boot artifact = some (.file b) ∧
      m' = m.put (c.home ++ [basename artifact]) (some (.file b))) (fun _ _ => True) m := by
  rw [Call.install, Act.wp_bind, Act.wp_get]
  dsimp only
  rw [if_neg (hclear _)]
  split
  · next b hb =>
    rw [Act.wp_ite, Act.wp_bind, Act.wp_modify, Act.wp_modify]
    exact ⟨fun _ => trivial, fun _ => ⟨b, hb, rfl⟩⟩
  · trivial

theorem installAll_wp {m : Machine} (hclear : Clear c m) (wanted : List Bytes) (i : ℕ) :
    (c.installAll i wanted).wp (fun _ m' => Installed c m m' wanted ∧
      ∀ x, (fileAt m (c.home ++ [x])).isSome → (fileAt m' (c.home ++ [x])).isSome)
      (fun _ _ => True) m := by
  induction wanted generalizing i m with
  | nil => exact ⟨fun _ h => absurd h List.not_mem_nil, fun _ h => h⟩
  | cons artifact rest ih =>
    rw [Call.installAll, Act.wp_bind]
    refine Act.wp_mono (install_wp hclear i artifact) ?_ fun _ _ h => h
    rintro _ m₁ ⟨b, hb, rfl⟩
    have haside : Aside c m (m.put (c.home ++ [basename artifact]) (some (.file b))) :=
      aside_put (List.prefix_append _ _) _
    have hclear₁ : Clear c (m.put (c.home ++ [basename artifact]) (some (.file b))) := by
      intro x
      rw [Machine.put_boot]
      split_ifs
      · simp
      · exact hclear x
    refine Act.wp_mono (ih hclear₁ (i + 1)) ?_ fun _ _ h => h
    rintro _ m₂ ⟨hrest, hkeep⟩
    have hfiles : ∀ x, (fileAt m (c.home ++ [x])).isSome →
        (fileAt (m.put (c.home ++ [basename artifact]) (some (.file b))) (c.home ++ [x])).isSome := by
      intro x hx
      rw [fileAt_put]
      split_ifs
      · rfl
      · exact hx
    refine ⟨List.forall_mem_cons.2 ⟨⟨hkeep _ ?_, m, b, .refl m, hb⟩, fun a ha => ?_⟩,
      fun x hx => hkeep x (hfiles x hx)⟩
    · rw [fileAt_put, if_pos rfl]
      rfl
    · obtain ⟨hfile, m₁, b₁, hm₁, hb₁⟩ := hrest a ha
      exact ⟨hfile, m₁, b₁, haside.trans hm₁, hb₁⟩

/-! ## Pointing the entry -/

theorem not_home {p : Place} (hp : p.head? ≠ some rollbacks) : ¬ c.home <+: p := by
  rintro ⟨rest, rfl⟩
  exact hp rfl

/-- The entry is moved, and the sweep has begun. -/
def Moved (c : Call) (wanted : List Bytes) (m m' : Machine) : Prop :=
  ∃ m₁ new, Aside c m m₁ ∧ rewrite c.name c.label ((fileAt m normalEntry).getD []) = some new ∧
    m' = (m₁.put rollbackEntry (some (.file new))).clear
      (c.swept (m₁.put rollbackEntry (some (.file new)))) ∧
    (Clear c m → Installed c m m₁ wanted)

theorem step_wp {s : Step} (m : Machine) :
    (c.step s).wp (fun _ m' => m' = m ∧ c.fails s = false)
      (fun e m' => e = .step s ∧ c.fails s = true ∧ m' = m) m := by
  rw [Call.step, Act.wp_ite, Act.wp_fail, Act.wp_pure]
  exact ⟨fun h => ⟨rfl, h, rfl⟩, fun h => ⟨rfl, by simpa using h⟩⟩

theorem moveEntry_wp (m : Machine) :
    c.moveEntry.wp
      (fun _ m' => ∃ new, rewrite c.name c.label ((fileAt m normalEntry).getD []) = some new ∧
        m' = m.put rollbackEntry (some (.file new)))
      (fun e m' => e ≠ .step .sweep ∧ m' = m) m := by
  rw [Call.moveEntry, Act.wp_bind]
  refine Act.wp_mono (step_wp m) ?_ (fun e m' h => ⟨by simp [h.1], h.2.2⟩)
  rintro _ m' ⟨rfl, -⟩
  rw [Act.wp_bind, Act.wp_get]
  dsimp only
  cases hnew : (if c.fails .write then none else
      rewrite c.name c.label ((fileAt m' normalEntry).getD [])) with
  | none => exact ⟨by simp, rfl⟩
  | some new =>
    split_ifs at hnew
    rw [Act.wp_bind]
    refine Act.wp_mono (step_wp m') ?_ (fun e m' h => ⟨by simp [h.1], h.2.2⟩)
    rintro _ m₁ ⟨rfl, -⟩
    rw [Act.wp_bind]
    refine Act.wp_mono (step_wp m₁) ?_ (fun e m' h => ⟨by simp [h.1], h.2.2⟩)
    rintro _ m₂ ⟨rfl, -⟩
    exact ⟨new, hnew, rfl⟩

/-- **What pointing the entry does**: nothing but in the folder of the snapshot, where it fails, unless it
is the sweep that failed. -/
theorem point_wp (wanted : List Bytes) (m : Machine) :
    (c.point wanted).wp (fun _ m' => c.fails .sweep = false ∧ Moved c wanted m m')
      (fun e m' => if e = .step .sweep then c.fails .sweep = true ∧ Moved c wanted m m'
        else Aside c m m') m := by
  have hstop : ∀ {m₀ : Machine} (e : Failure) (m₁ : Machine), Aside c m m₀ →
      e ≠ .step .sweep ∧ Aside c m₀ m₁ →
      if e = .step .sweep then c.fails .sweep = true ∧ Moved c wanted m m₁ else Aside c m m₁ := by
    intro m₀ e m₁ h h'
    rw [if_neg h'.1]
    exact h.trans h'.2
  rw [Call.point, Act.wp_bind]
  refine Act.wp_mono (step_wp m) ?_ fun e m₁ h => hstop e m₁ (.refl m) ⟨by simp [h.1], h.2.2.symm ▸ .refl m⟩
  rintro _ m₀ ⟨rfl, -⟩
  rw [Act.wp_bind]
  refine Act.wp_mono (makeFolder_wp _ m₀) ?_ fun e m₁ h => hstop e m₁ (.refl m₀) h
  rintro _ m₁ ⟨h₁, hboot₁⟩
  rw [Act.wp_bind]
  refine Act.wp_mono (makeFolder_wp _ m₁) ?_ fun e m₂ h => hstop e m₂ h₁ h
  rintro _ m₂ ⟨h₂, hboot₂⟩
  have haside := h₁.trans h₂
  have hclear : Clear c m₀ → Clear c m₂ := fun h x => by
    rw [hboot₂ _ (by simp), hboot₁ _ (by simp [Call.home])]
    exact h x
  rw [Act.wp_bind]
  have hall : (c.installAll 0 wanted).wp
      (fun _ m' => Aside c m₂ m' ∧ (Clear c m₂ → Installed c m₂ m' wanted))
      (fun e m' => e ≠ .step .sweep ∧ Aside c m₂ m') m₂ := by
    by_cases h : Clear c m₂
    · refine Act.wp_mono (Act.wp_and (early_installAll wanted 0 m₂) (installAll_wp h wanted 0)) ?_
        fun _ _ h => h.1
      exact fun _ _ h' => ⟨h'.1, fun _ => h'.2.1⟩
    · exact Act.wp_mono (early_installAll wanted 0 m₂) (fun _ _ h' => ⟨h', fun h'' => absurd h'' h⟩)
        fun _ _ h => h
  refine Act.wp_mono hall ?_ fun e m₃ h => hstop e m₃ haside h
  rintro _ m₃ ⟨h₃, hinstalled⟩
  rw [Act.wp_bind]
  refine Act.wp_mono (moveEntry_wp m₃) ?_ fun e m₄ h =>
    hstop e m₄ (haside.trans h₃) ⟨h.1, h.2.symm ▸ .refl m₃⟩
  rintro _ m₄ ⟨new, hnew, rfl⟩
  -- the entry is made from the normal one as it was
  rw [(haside.trans h₃).2 _ (not_home (by decide))] at hnew
  have hmoved : Moved c wanted m₀ ((m₃.put rollbackEntry (some (.file new))).clear
      (c.swept (m₃.put rollbackEntry (some (.file new))))) := by
    refine ⟨m₃, new, haside.trans h₃, hnew, rfl, fun h a ha => ?_⟩
    obtain ⟨hfile, m', b, hm', hb⟩ := hinstalled (hclear h) a ha
    exact ⟨hfile, m', b, haside.trans hm', hb⟩
  rw [Call.sweep, Act.wp_bind, Act.wp_get, Act.wp_bind, Act.wp_modify]
  refine Act.wp_mono (step_wp _) ?_ ?_
  · rintro _ m₅ ⟨rfl, hs⟩
    exact ⟨hs, hmoved⟩
  · rintro e m₅ ⟨rfl, hs, rfl⟩
    rw [if_pos rfl]
    exact ⟨hs, hmoved⟩

/-! ## A call -/

theorem prepare_error {m : Machine} {e : Failure} (h : c.prepare m = .error e) : e ≠ .step .sweep := by
  have hcheck : ∀ {wanted : List Bytes}, wanted.mapM (Call.check m) = .error e → e ≠ .step .sweep := by
    intro wanted h
    induction wanted with
    | nil => cases h
    | cons artifact rest ih =>
      rw [List.mapM_cons] at h
      cases hc : Call.check m artifact with
      | error e' =>
        rw [hc] at h
        obtain rfl : e' = e := Except.error.inj h
        rw [Call.check] at hc
        split_ifs at hc
        · obtain rfl := Except.error.inj hc
          simp
        · split at hc
          · obtain rfl := Except.error.inj hc
            simp
          · cases hc
      | ok item =>
        rw [hc] at h
        cases hr : rest.mapM (Call.check m) with
        | error e' =>
          rw [hr] at h
          obtain rfl : e' = e := Except.error.inj h
          exact ih hr
        | ok items =>
          rw [hr] at h
          cases h
  rw [Call.prepare] at h
  split_ifs at h
  split at h
  · obtain rfl := Except.error.inj h
    simp
  · dsimp only at h
    cases hm : (artifacts ((fileAt m normalEntry).getD [])).mapM (Call.check m) with
    | error e' =>
      rw [hm] at h
      obtain rfl : e' = e := Except.error.inj h
      exact hcheck hm
    | ok items =>
      rw [hm] at h
      simp only [bind, Except.bind] at h
      split_ifs at h
      · obtain rfl := Except.error.inj h
        simp
      · split at h
        · obtain rfl := Except.error.inj h
          simp
        · split_ifs at h
          obtain rfl := Except.error.inj h
          simp

/-- The call has taken the snapshot: what it asked before was in order. -/
def Taken (c : Call) (m : Machine) (wanted : List Bytes) : Prop :=
  c.LabelOk ∧ c.name ∉ m.snapshots ∧ c.prepare m = .ok wanted

/-- **What a call does**, by how it ends. -/
theorem snapshot_wp (c : Call) (m : Machine) :
    (snapshot c).wp
      (fun n m' => n = c.name ∧ ∃ wanted m₁, Taken c m wanted ∧
        (if c.setRollback then c.fails .sweep = false ∧ Moved c wanted (m.add c.name) m₁
          else m₁ = m.add c.name) ∧ m' = c.pruneLoop (manual m₁) m₁)
      (fun e m' => (e ≠ .step .sweep ∧ m' = m) ∨ ∃ wanted m₁, Taken c m wanted ∧ c.setRollback = true ∧
        (if e = .step .sweep then c.fails .sweep = true ∧ Moved c wanted (m.add c.name) m₁
          else Aside c (m.add c.name) m₁) ∧ m' = c.cleanup m₁) m := by
  rw [snapshot, Act.wp_ite]
  refine ⟨fun _ => Or.inl ⟨by simp, rfl⟩, fun hlabel => ?_⟩
  rw [Act.wp_bind, Act.wp_get, Act.wp_ite]
  refine ⟨fun _ => Or.inl ⟨by simp, rfl⟩, fun hname => ?_⟩
  rw [Act.wp_bind]
  cases hp : c.prepare m with
  | error e =>
    rw [Act.lift_error, Act.wp_fail]
    exact Or.inl ⟨prepare_error hp, rfl⟩
  | ok wanted =>
    rw [Act.lift_ok, Act.wp_pure, Act.wp_bind]
    have htaken : Taken c m wanted := ⟨not_not.1 hlabel, hname, hp⟩
    refine Act.wp_mono (step_wp m) ?_ fun e m' h => Or.inl ⟨by simp [h.1], h.2.2⟩
    rintro _ m' ⟨rfl, -⟩
    rw [Act.wp_bind]
    refine Act.wp_mono (step_wp m') ?_ fun e m' h => Or.inl ⟨by simp [h.1], h.2.2⟩
    rintro _ m₀ ⟨rfl, -⟩
    rw [Act.wp_bind, Act.wp_modify]
    by_cases hs : c.setRollback = true
    · rw [if_pos hs]
      simp only [Act.wp_bind, Act.wp_attempt]
      refine Act.wp_mono (point_wp wanted (m₀.add c.name)) ?_ ?_
      · rintro _ m₁ ⟨hsweep, hmoved⟩
        simp only [Act.wp_pure, Act.wp_modify]
        exact ⟨trivial, wanted, m₁, htaken, by rw [if_pos hs]; exact ⟨hsweep, hmoved⟩, rfl⟩
      · rintro e m₁ h
        simp only [Act.wp_modify, Act.wp_fail]
        exact Or.inr ⟨wanted, m₁, htaken, hs, h, rfl⟩
    · rw [if_neg hs]
      simp only [Act.wp_bind, Act.wp_pure, Act.wp_modify]
      exact ⟨trivial, wanted, m₀.add c.name, htaken, by rw [if_neg hs], rfl⟩

theorem prepare_eq_ok {m : Machine} {wanted : List Bytes} (h : c.prepare m = .ok wanted)
    (hs : c.setRollback = true) : wanted = artifacts ((fileAt m normalEntry).getD []) := by
  rw [Call.prepare, if_pos hs] at h
  split at h
  · cases h
  · dsimp only at h
    obtain ⟨items, -, h⟩ := Act.except_bind_eq_ok.1 h
    split_ifs at h
    split at h
    · cases h
    · split_ifs at h
      exact (Except.ok.inj h).symm

theorem mem_cleanup {m : Machine} {n : Bytes} :
    n ∈ (c.cleanup m).snapshots ↔ n ∈ m.snapshots ∧ (n = c.name → c.fails (.delete c.name) = true) := by
  have hclear : ∀ m' : Machine, (if m'.boot c.home = some .dir then
      m'.clear fun p => c.home.isPrefixOf p && !c.fails (.unlink p) else m').snapshots =
      m'.snapshots := fun m' => by split_ifs <;> rfl
  rw [Call.cleanup, hclear]
  split_ifs with h
  · simp [h]
  · rw [Machine.mem_drop]
    simp [h, and_comm]

theorem fileAt_clear (m : Machine) (gone : Place → Bool) (p : Place) :
    fileAt (m.clear gone) p = if gone p then none else fileAt m p := by
  rw [fileAt, Machine.clear]
  dsimp only
  split_ifs <;> rfl

theorem fileAt_cleanup {m : Machine} {p : Place} (hp : ¬ c.home <+: p) :
    fileAt (c.cleanup m) p = fileAt m p := by
  have hclear : ∀ m' : Machine, fileAt (if m'.boot c.home = some .dir then
      m'.clear fun p => c.home.isPrefixOf p && !c.fails (.unlink p) else m') p = fileAt m' p := by
    intro m'
    have hpre : c.home.isPrefixOf p = false := by
      rwa [Bool.eq_false_iff, Ne, List.isPrefixOf_iff_prefix]
    split_ifs
    · rw [fileAt_clear]
      simp [hpre]
    · rfl
  rw [Call.cleanup, hclear]
  split_ifs <;> rfl

/-- The snapshots that are deleted, of those that are there. -/
def pruned (c : Call) : List Bytes → List Bytes
  | [] => []
  | oldest :: rest =>
    if c.retention ≤ rest.length then
      if c.fails (.delete oldest) then [] else oldest :: pruned c rest
    else []

theorem pruneLoop_spec (l : List Bytes) (m : Machine) :
    (∀ n, n ∈ (c.pruneLoop l m).snapshots ↔ n ∈ m.snapshots ∧ n ∉ pruned c l) ∧
      (c.pruneLoop l m).boot = m.boot := by
  induction l generalizing m with
  | nil => simp [Call.pruneLoop, pruned]
  | cons oldest rest ih =>
    rw [Call.pruneLoop, pruned]
    split_ifs
    · simp
    · obtain ⟨hmem, hboot⟩ := ih (m.drop oldest)
      refine ⟨fun n => ?_, hboot⟩
      rw [hmem, Machine.mem_drop, List.mem_cons]
      tauto
    · simp

theorem mem_manual {m : Machine} {n : Bytes} :
    n ∈ manual m ↔ n ∈ m.snapshots ∧ (text "manual-").isPrefixOf n = true := by
  rw [manual, List.mem_insertionSort, List.mem_filter]

theorem isPrefix_pruned (l : List Bytes) : pruned c l <+: l := by
  induction l with
  | nil => exact List.nil_prefix
  | cons oldest rest ih =>
    rw [pruned]
    split_ifs
    · exact List.nil_prefix
    · exact (List.cons_prefix_cons).2 ⟨rfl, ih⟩
    · exact List.nil_prefix

/-! ## What is never touched -/

/-- A place that the command may change: the rollback entry, and the folders beside the factory's. -/
def Touched (p : Place) : Prop := p = rollbackEntry ∨ ∃ f rest, p = rollbacks :: f :: rest ∧ f ≠ factory

theorem fileAt_moved {m m' : Machine} {wanted : List Bytes} (h : Moved c wanted m m') {p : Place}
    (hp : ¬ Touched p) : fileAt m' p = fileAt m p := by
  obtain ⟨m₁, new, haside, -, rfl, -⟩ := h
  have hhome : ¬ c.home <+: p := by
    rintro ⟨rest, rfl⟩
    exact hp (Or.inr ⟨c.name, rest, rfl, c.name_ne (by decide)⟩)
  have hswept : c.swept (m₁.put rollbackEntry (some (.file new))) p = false := by
    match p with
    | [] | [_] => rfl
    | top :: folder :: rest =>
      by_contra hs
      simp only [Call.swept, Bool.not_eq_false, Bool.and_eq_true, decide_eq_true_eq, ne_eq] at hs
      obtain ⟨⟨⟨⟨rfl, -⟩, hf⟩, -⟩, -⟩ := hs
      exact hp (Or.inr ⟨folder, rest, rfl, hf⟩)
  rw [fileAt_clear, hswept]
  simp only [Bool.false_eq_true, if_false]
  rw [fileAt_put, if_neg fun h => hp (Or.inl h), haside.2 p hhome]

theorem snapshots_moved {m m' : Machine} {wanted : List Bytes} (h : Moved c wanted m m') :
    m'.snapshots = m.snapshots := by
  obtain ⟨m₁, new, haside, -, rfl, -⟩ := h
  exact haside.1

end

/-- One call leaves alone what is not touched. -/
theorem snapshot_keeps (c : Call) (m : Machine) :
    (∀ p, ¬ Touched p → fileAt (snapshot c m).2 p = fileAt m p) ∧
      ∀ n, (text "manual-").isPrefixOf n = false →
        (n ∈ (snapshot c m).2.snapshots ↔ n ∈ m.snapshots) := by
  have hhome : ∀ {p}, ¬ Touched p → ¬ c.home <+: p := by
    rintro p hp ⟨rest, rfl⟩
    exact hp (Or.inr ⟨c.name, rest, rfl, c.name_ne (by decide)⟩)
  have hadd : ∀ {n}, (text "manual-").isPrefixOf n = false →
      (n ∈ (m.add c.name).snapshots ↔ n ∈ m.snapshots) := fun hn => by
    rw [Machine.mem_add, or_iff_right (c.name_ne hn).symm]
  refine Act.wp_state (P := fun m' => (∀ p, ¬ Touched p → fileAt m' p = fileAt m p) ∧
    ∀ n, (text "manual-").isPrefixOf n = false → (n ∈ m'.snapshots ↔ n ∈ m.snapshots)) ?_
  refine Act.wp_mono (snapshot_wp c m) ?_ ?_
  · rintro _ m' ⟨-, wanted, m₁, -, h, rfl⟩
    obtain ⟨hmem, hboot⟩ := pruneLoop_spec (c := c) (manual m₁) m₁
    have hpruned : ∀ n, (text "manual-").isPrefixOf n = false → n ∉ pruned c (manual m₁) := by
      intro n hn hmem
      rw [(mem_manual.1 ((isPrefix_pruned _).mem hmem)).2] at hn
      cases hn
    have hfile : ∀ p, fileAt (c.pruneLoop (manual m₁) m₁) p = fileAt m₁ p := fun p => by
      rw [fileAt, hboot]
      rfl
    have h₁ : (∀ p, ¬ Touched p → fileAt m₁ p = fileAt (m.add c.name) p) ∧
        m₁.snapshots = (m.add c.name).snapshots := by
      split_ifs at h
      · exact ⟨fun p hp => fileAt_moved h.2 hp, snapshots_moved h.2⟩
      · exact h ▸ ⟨fun _ _ => rfl, rfl⟩
    refine ⟨fun p hp => (hfile p).trans (h₁.1 p hp), fun n hn => ?_⟩
    rw [hmem, h₁.2, hadd hn, and_iff_left (hpruned n hn)]
  · rintro e m' (⟨-, rfl⟩ | ⟨wanted, m₁, -, -, h, rfl⟩)
    · exact ⟨fun _ _ => rfl, fun _ _ => Iff.rfl⟩
    · have h₁ : (∀ p, ¬ Touched p → fileAt m₁ p = fileAt (m.add c.name) p) ∧
          m₁.snapshots = (m.add c.name).snapshots := by
        split_ifs at h
        · exact ⟨fun p hp => fileAt_moved h.2 hp, snapshots_moved h.2⟩
        · exact ⟨fun p hp => h.2 p (hhome hp), h.1⟩
      refine ⟨fun p hp => (fileAt_cleanup (hhome hp)).trans (h₁.1 p hp), fun n hn => ?_⟩
      rw [mem_cleanup, h₁.2, hadd hn, and_iff_left fun heq => absurd heq.symm (c.name_ne hn)]

/-- Calls, one after the other. -/
def run (calls : List Call) (m : Machine) : Machine := calls.foldl (fun m c => (snapshot c m).2) m

theorem fileAt_entry {c : Call} {m m' : Machine} {wanted : List Bytes} (h : Moved c wanted m m') :
    ∃ new, rewrite c.name c.label ((fileAt m normalEntry).getD []) = some new ∧
      fileAt m' rollbackEntry = some new := by
  obtain ⟨m₁, new, -, hnew, rfl, -⟩ := h
  have hswept : c.swept (m₁.put rollbackEntry (some (.file new))) rollbackEntry = false := by
    have hne : text "loader" ≠ rollbacks := by decide
    simp [Call.swept, rollbackEntry, hne]
  refine ⟨new, hnew, ?_⟩
  rw [fileAt_clear, hswept]
  simp only [Bool.false_eq_true, if_false]
  rw [fileAt_put, if_pos rfl]

/-- A machine with the factory's snapshot and one of before. -/
def laptop : Machine where
  snapshots := [text "0", text "manual-20260101T000000Z-before"]
  nodup := by decide
  boot p := [(normalEntry, Item.file (text "linux /vmlinuz\noptions rootflags=subvol=@ quiet\n")),
    ([text "vmlinuz"], Item.file [1])].lookup p

/-- A snapshot before an update, of which one is kept. -/
def update : Call where
  label := text "update"
  stamp := text "20260801T120000Z"
  plain := by decide
  setRollback := true
  retention := 1
  available := some 1000
  reserve := 10
  dirSize := 0
  fails _ := false
  leaves _ := none

/-- The same, with the clock set back by a year. -/
def setBack : Call := { update with stamp := text "20250801T120000Z", plain := by decide }

end Aurade.Recovery
