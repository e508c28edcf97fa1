import Aurade.Installer.Tame

/-!
# Nothing is written without the token

Before a run with `--execute` touches the disk it compares the word given with `--confirm` with the
token of this target and this layout, and has `lsblk` list the devices below the target: none may be
mounted, none of a type that rests on others. `Device` is such a device, and `HonestListing` is what `lsblk`
is trusted for, as long as nothing of the target was touched.

`nothing_without_consent`: whatever touches the target was asked for with the right word, and nothing
below the target was in use, in every run in which the listings showed what was in use. A listing
that failed shows nothing, and a type that the engine does not know is passed over, as the types of
the RAID levels are (`wipes_array`).
-/

namespace Aurade.Installer

open Act

/-! ## The devices below a disk -/

/-- A device of the tree below a disk. -/
structure Device where
  name : Bytes
  /-- `TYPE`, as `lsblk` names it. -/
  type : Bytes
  mounts : List Bytes
  swap : Bool
  /-- It is mapped onto others, or made of others. -/
  stacked : Bool
  name_word : IsWord name
  type_word : IsWord type
  mounts_absolute : ∀ m ∈ mounts, m.head? = some 47

namespace Device

variable (d : Device)

/-- The device is not in use. -/
def Idle : Prop := d.mounts = [] ∧ d.swap = false ∧ d.stacked = false

/-- What stands in the column `MOUNTPOINTS`, a line for each. -/
def mountCells : List Bytes := d.mounts ++ if d.swap then [text "[SWAP]"] else []

end Device

/-- A line of two columns: the name filled up with blanks, and the cell. -/
def Row (name cell line : Bytes) : Prop :=
  ∃ n, line = name ++ (List.replicate n 32 ++ cell) ∧ (cell ≠ [] → 0 < n)

theorem fields_of_row {name cell line : Bytes} (hname : IsWord name) (h : Row name cell line) :
    fields line = name :: fields cell := by
  obtain ⟨n, rfl, hn⟩ := h
  cases n with
  | succ n => exact fields_padded hname n cell
  | zero =>
    obtain rfl : cell = [] := by
      by_contra hcell
      exact absurd (hn hcell) (by omega)
    rw [List.replicate_zero, List.append_nil, List.append_nil, fields_word hname]
    rfl

theorem dropWhile_word {w : Bytes} (hw : IsWord w) (rest : Bytes) :
    (w ++ rest).dropWhile isBlank = w ++ rest := by
  obtain ⟨b, bs, rfl⟩ := List.exists_cons_of_ne_nil hw.1
  exact List.dropWhile_cons_of_neg (by simp [hw.2 b List.mem_cons_self])

/-- Blanks around a word are dropped. -/
theorem readOne_padded {w : Bytes} (hw : IsWord w) (n : ℕ) : readOne (List.replicate n 32 ++ w) = w := by
  have hblank : ∀ b ∈ List.replicate n (32 : UInt8), isBlank b = true := by
    intro b hb
    rw [List.eq_of_mem_replicate hb]
    rfl
  have hstart : w.dropWhile isBlank = w := by simpa using dropWhile_word hw []
  rw [readOne, List.dropWhile_append_of_pos hblank, hstart, List.rdropWhile_eq_self_iff]
  intro hne
  simp [hw.2 _ (List.getLast_mem hne)]

/-- The second column of a row whose cell is a word. -/
theorem readPair_row {name cell line : Bytes} (hname : IsWord name) (hcell : IsWord cell)
    (h : Row name cell line) : readPair line = (name, cell) := by
  obtain ⟨n, rfl, hn⟩ := h
  obtain ⟨n, rfl⟩ := Nat.exists_eq_succ_of_ne_zero (by have := hn hcell.1; omega : n ≠ 0)
  have hword : ∀ b ∈ name, (!isBlank b) = true := fun b hb => by rw [hname.2 b hb]; rfl
  have hpad : List.replicate (n + 1) (32 : UInt8) ++ cell = 32 :: (List.replicate n 32 ++ cell) := by
    rw [List.replicate_succ, List.cons_append]
  have hstop : (!isBlank 32) ≠ true := by decide
  rw [readPair, dropWhile_word hname, List.takeWhile_append_of_pos hword,
    List.dropWhile_append_of_pos hword, hpad, 
    List.takeWhile_cons_of_neg (p := fun b => !isBlank b) hstop,
    List.dropWhile_cons_of_neg (p := fun b => !isBlank b) hstop, ← hpad, readOne_padded hcell, List.append_nil]

/-- `lsblk` lists the devices, each with what is mounted from it. -/
def ListsMounts (ds : List Device) (lines : List Bytes) : Prop :=
  ∀ d ∈ ds, ∃ line ∈ lines, Row d.name (d.mountCells.headD []) line

/-- `lsblk` lists the devices, each with its type. -/
def ListsTypes (ds : List Device) (lines : List Bytes) : Prop :=
  ∀ d ∈ ds, ∃ line ∈ lines, Row d.name d.type line

/-- Nothing that is touched was changed by the calls. -/
def Untouched (host : Host) (touches : Place → Prop) (before : History) : Prop :=
  ∀ e ∈ before, ∀ p ∈ e.1.places host, ¬ touches p

/-- As long as nothing of the target was touched, a listing that does not fail lists the devices below
it. -/
structure HonestListing (host : Host) (touches : Place → Prop) (below : Bytes → List Device) : Prop where
  mounts : ∀ before target, Untouched host touches before →
    (host.reply before (.query (.lsblk .mounts target))).ok = true →
    ListsMounts (below target) (host.reply before (.query (.lsblk .mounts target))).lines
  types : ∀ before target, Untouched host touches before →
    (host.reply before (.query (.lsblk .types target))).ok = true →
    ListsTypes (below target) (host.reply before (.query (.lsblk .types target))).lines

/-- A text that begins with no blank has a first field. -/
theorem headD_fields {b : UInt8} (hb : isBlank b = false) (bs : Bytes) :
    (fields (b :: bs)).headD [] ≠ [] := by
  have hsplit := List.takeWhile_append_dropWhile (p := fun b => !isBlank b) (l := b :: bs)
  have hword : IsWord ((b :: bs).takeWhile fun b => !isBlank b) := by
    constructor
    · rw [List.takeWhile_cons_of_pos (by simp [hb])]
      exact List.cons_ne_nil _ _
    · intro c hc
      simpa using List.mem_takeWhile_imp hc
  rw [← hsplit]
  cases hrest : (b :: bs).dropWhile fun b => !isBlank b with
  | nil =>
    rw [List.append_nil, fields_word hword]
    exact hword.1
  | cons c cs =>
    have hc : isBlank c = true := by
      have h := List.head?_dropWhile_not (fun b => !isBlank b) (b :: bs)
      rw [hrest] at h
      simpa using h
    rw [fields_word_blank hword hc]
    exact hword.1

/-- What the check of the mounts makes of an answered list. -/
theorem mounts_idle {ds : List Device} {lines : List Bytes} (hlist : ListsMounts ds lines)
    (hpass : ∀ line ∈ lines, (fields line).getD 1 [] = []) :
    ∀ d ∈ ds, d.mounts = [] ∧ d.swap = false := by
  intro d hd
  obtain ⟨line, hline, hrow⟩ := hlist d hd
  have hcell : (fields (d.mountCells.headD [])).headD [] = [] := by
    have h := hpass line hline
    rw [fields_of_row d.name_word hrow] at h
    cases hf : fields (d.mountCells.headD []) with
    | nil => rfl
    | cons f fs => rwa [hf] at h
  have hmounts : d.mounts = [] := by
    cases hm : d.mounts with
    | nil => rfl
    | cons m ms =>
      have hroot := d.mounts_absolute m (hm ▸ List.mem_cons_self)
      obtain ⟨b, bs, rfl⟩ := List.exists_cons_of_ne_nil (show m ≠ [] by rintro rfl; simp at hroot)
      obtain rfl : b = 47 := by simpa using hroot
      rw [Device.mountCells, hm] at hcell
      exact absurd hcell (headD_fields (by decide) bs)
  refine ⟨hmounts, ?_⟩
  cases hs : d.swap with
  | false => rfl
  | true =>
    rw [Device.mountCells, hmounts, hs] at hcell
    exact absurd hcell (headD_fields (b := 91) (by decide) (text "SWAP]"))

theorem types_known {ds : List Device} {lines : List Bytes} (hlist : ListsTypes ds lines)
    (hpass : ∀ line ∈ lines, isStackedType (readPair line).2 = false) :
    ∀ d ∈ ds, isStackedType d.type = false := by
  intro d hd
  obtain ⟨line, hline, hrow⟩ := hlist d hd
  have h := hpass line hline
  rwa [readPair_row d.name_word d.type_word hrow] at h

/-! ## Consent -/

/-- The target is the word given, or what `readlink` made of it. -/
def Names (o : Options) (before : History) (target : Bytes) : Prop :=
  target = o.target ∨ ∃ r, (.query (.canonical o.target), r) ∈ before ∧ r.line = target

/-- The word says what is about to happen, and to which disk. -/
def IsToken (layout target word : Bytes) : Prop :=
  layout = text "wipe" ∧ word = text "ERASE:" ++ target ∨
    layout = text "alongside" ∧ word = text "INSTALL:" ++ target

/-- The run was asked for with `--execute` and the token of its target, and nothing below the target
was in use. -/
def Consented (host : Host) (argv : List Bytes) (below : Bytes → List Device) (before : History) : Prop :=
  ∃ o target, parse host argv = .options o ∧ o.mode = .execute ∧ Names o before target ∧
    IsToken o.layout target o.confirm ∧ ∀ d ∈ below target, d.Idle

/-- What is in use below a target showed in the list of mounts, or in the list of types by a type that
is known. -/
def Shown (below : Bytes → List Device) (before : History) : Prop :=
  ∀ target, (∃ d ∈ below target, ¬ d.Idle) →
    (∀ r, (.query (.lsblk .mounts target), r) ∈ before →
      r.ok = true ∧ ∃ d ∈ below target, d.mounts ≠ [] ∨ d.swap = true) ∨
    ∀ r, (.query (.lsblk .types target), r) ∈ before →
      r.ok = true ∧ ∃ d ∈ below target, isStackedType d.type = true

theorem Shown.of_append {below : Bytes → List Device} {l : History} (es : History)
    (h : Shown below (l ++ es)) : Shown below l := by
  intro target hused
  refine (h target hused).imp (fun h r hr => ?_) fun h r hr => ?_
  · exact h r (List.mem_append_left es hr)
  · exact h r (List.mem_append_left es hr)

/-- The list was asked for, and where it was answered, nothing in it is against `ok`. -/
def Listed (what : Listing) (ok : Device → Prop) (below : Bytes → List Device) (target : Bytes)
    (before : History) : Prop :=
  ∃ r, (.query (.lsblk what target), r) ∈ before ∧ (r.ok = true → ∀ d ∈ below target, ok d)

/-- The checks on the tree below the target have passed. -/
def Passed (below : Bytes → List Device) (target : Bytes) (before : History) : Prop :=
  Listed .mounts (fun d => d.mounts = [] ∧ d.swap = false) below target before ∧
    Listed .types (fun d => isStackedType d.type = false) below target before

/-- Where the checks have passed and what is in use shows, nothing is in use. -/
theorem Passed.idle {below : Bytes → List Device} {target : Bytes} {before : History}
    (h : Passed below target before) (hshown : Shown below before) : ∀ d ∈ below target, d.Idle := by
  obtain ⟨⟨r, hr, hmounts⟩, r', hr', htypes⟩ := h
  by_contra hused
  push Not at hused
  rcases hshown target hused with h | h
  · obtain ⟨hok, d, hd, hin⟩ := h r hr
    obtain ⟨hm, hs⟩ := hmounts hok d hd
    rcases hin with hin | hin
    · exact hin hm
    · exact absurd (hin.symm.trans hs) (by decide)
  · obtain ⟨hok, d, hd, hin⟩ := h r' hr'
    exact absurd (hin.symm.trans (htypes hok d hd)) (by decide)

theorem lasting_listed (what : Listing) (ok : Device → Prop) (below : Bytes → List Device)
    (target : Bytes) : Lasting (Listed what ok below target) := by
  intro h es hl
  obtain ⟨r, hr, hok⟩ := hl
  exact ⟨r, List.mem_append_left es hr, hok⟩

theorem lasting_passed (below : Bytes → List Device) (target : Bytes) : Lasting (Passed below target) :=
  (lasting_listed _ _ _ _).and (lasting_listed _ _ _ _)

theorem lasting_names (o : Options) (target : Bytes) : Lasting fun before => Names o before target := by
  intro h es hn
  refine hn.imp id fun h => ?_
  obtain ⟨r, hr, hline⟩ := h
  exact ⟨r, List.mem_append_left es hr, hline⟩

/-! ## What the checks find out -/

variable {host : Host} {touches : Place → Prop} {below : Bytes → List Device} {α : Type}
  {K : History → Prop} {o : Options} {s : Settings}

/-- The files of a path that is not touched. -/
abbrev Spared (touches : Place → Prop) (p : Bytes) : Prop := ¬ touches (.path p)

/-- A part of the engine that comes before the disk is touched. It keeps to what a dry run keeps to. -/
abbrev Checking (host : Host) (touches : Place → Prop) (K : History → Prop) (T : α → History → Prop)
    (m : Engine α) : Prop :=
  Learns (fun _ => Tame host (Spared touches) .dryRun) (Unmounted host (Spared touches) .dryRun) K T m

theorem closed_untouched (hown : OwnFiles host (Spared touches)) :
    Closed (fun _ => Tame host (Spared touches) .dryRun) (Untouched host touches) := by
  intro h e hh htame e' he' p hp
  rcases List.mem_append.1 he' with he' | he'
  · exact hh e' he' p hp
  · obtain rfl := List.mem_singleton.1 he'
    obtain ⟨q, rfl, hq⟩ := htame.2 rfl hown p hp
    exact hq

theorem checking_of_tamed {m : Engine α} (hK : Closed (fun _ => Tame host (Spared touches) .dryRun) K)
    (h : Tamed host (Spared touches) .dryRun m) : Checking host touches K (fun _ l => K l) m :=
  Learns.of_closed hK h

/-- `die` does not return. -/
theorem checking_die (hK : Closed (fun _ => Tame host (Spared touches) .dryRun) K) {T : α → History → Prop}
    (message : Bytes) : Checking host touches K T (die host message) := by
  refine Learns.bind (checking_of_tamed hK Tamed.vars) fun v => ?_
  split
  · exact Learns.bind (checking_of_tamed hK (Tamed.journalFail _ _ _ _ _)) fun _ =>
      Learns.bind (checking_of_tamed hK (Tamed.settle _)) fun _ =>
      Learns.bind (checking_of_tamed hK (Tamed.assignLeave _)) fun _ => Learns.fail _
  · exact Learns.fail _

/-- A check that did not end the run. -/
theorem checking_orDie (hK : Closed (fun _ => Tame host (Spared touches) .dryRun) K) (c : Bool)
    (message : Bytes) : Checking host touches K (fun _ l => K l ∧ c = true) (orDie host c message) :=
  Learns.ite (fun hc => Learns.pure fun _ hl => ⟨hl, hc⟩) fun _ => checking_die hK message

/-- A check of every line. -/
theorem checking_forEach (hK : Closed (fun _ => Tame host (Spared touches) .dryRun) K) (c : Bytes → Bool)
    (message : Bytes → Bytes) (lines : List Bytes) :
    Checking host touches K (fun _ l => K l ∧ ∀ line ∈ lines, c line = true)
      (forEach lines fun line => orDie host (c line) (message line)) := by
  induction lines with
  | nil => exact Learns.pure fun _ hl => ⟨hl, by simp⟩
  | cons line lines ih =>
    refine Learns.bind (checking_orDie hK _ _) fun _ => Learns.given fun hc => ?_
    refine Learns.ite (fun _ => ih.mono fun _ l h => ⟨h.1, ?_⟩) fun hu => absurd rfl hu
    exact List.forall_mem_cons.2 ⟨hc, h.2⟩

/-- A listing whose lines are checked one by one: afterwards it is known of every device that shows
in it by `ok`. -/
theorem checking_listing (hown : OwnFiles host (Spared touches)) (what : Listing) (target : Bytes)
    (ok : Device → Prop) {K : History → Prop} (c : Bytes → Bool) (message : Bytes → Bytes)
    (hok : ∀ before, Untouched host touches before →
      (host.reply before (.query (.lsblk what target))).ok = true →
      (∀ line ∈ (host.reply before (.query (.lsblk what target))).lines, c line = true) →
      ∀ d ∈ below target, ok d)
    (hK : Closed (fun _ => Tame host (Spared touches) .dryRun) K) :
    Checking host touches (fun l => Untouched host touches l ∧ K l)
      (fun _ l => Untouched host touches l ∧ K l ∧ Listed what ok below target l)
      (do
        let lines ← listing host (.lsblk what target)
        forEach lines fun line => orDie host (c line) (message line)) := by
  have hclosed := (closed_untouched hown).and hK
  have hlook : Checking host touches (fun l => Untouched host touches l ∧ K l)
      (fun lines l => (Untouched host touches l ∧ K l) ∧ ∃ r, (.query (.lsblk what target), r) ∈ l ∧
        ((∀ line ∈ lines, c line = true) → r.ok = true → ∀ d ∈ below target, ok d))
      (listing host (.lsblk what target)) := by
    refine Learns.bind (look_learns fun _ _ => tame_query _) fun r => Learns.pure fun l h => ?_
    obtain ⟨before, hb, rfl, rfl⟩ := h
    refine ⟨hclosed before _ hb (tame_query _), _, List.mem_append_right before List.mem_cons_self, ?_⟩
    exact fun hall hr => hok before hb.1 hr hall
  refine Learns.bind hlook fun lines => ?_
  refine (checking_forEach (hclosed.and (Lasting.closed ?_)) c message lines).mono fun _ l h => ?_
  · intro l es hr
    obtain ⟨r, hmem, hall⟩ := hr
    exact ⟨r, List.mem_append_left es hmem, hall⟩
  · obtain ⟨⟨⟨hl, hk⟩, r, hmem, hall⟩, hlines⟩ := h
    exact ⟨hl, hk, r, hmem, hall hlines⟩

/-- The checks on the tree below the target. -/
theorem checking_inUse (hhonest : HonestListing host touches below) (hown : OwnFiles host (Spared touches))
    (target : Bytes) :
    Checking host touches (Untouched host touches) (fun _ l => Passed below target l)
      (inUseChecks host target) := by
  have hclosed := closed_untouched hown
  have hmounts := checking_listing hown .mounts target (fun d => d.mounts = [] ∧ d.swap = false)
    (fun line => (fields line).getD 1 [] = [])
    (fun line => text "target or a child partition is mounted: " ++ (fields line).headD [] ++ text " -> " ++
      (fields line).getD 1 [])
    (fun before hb hr hall => mounts_idle (hhonest.mounts before target hb hr) fun line hline => by
      simpa using hall line hline)
    (fun _ _ _ _ => trivial : Closed _ fun _ => True)
  have htypes := checking_listing hown .types target (fun d => isStackedType d.type = false)
    (fun line => !isStackedType (readPair line).2)
    (fun line => text "target has an active device-mapper/RAID relationship: " ++ (readPair line).1 ++
      text " (" ++ (readPair line).2 ++ text ")")
    (fun before hb hr hall => types_known (hhonest.types before target hb hr) fun line hline => by
      simpa using hall line hline)
    (lasting_listed .mounts (fun d => d.mounts = [] ∧ d.swap = false) below target).closed
  refine Learns.bind (checking_of_tamed hclosed (Tamed.answer _)) fun source =>
    Learns.bind (checking_of_tamed hclosed (Tamed.lookQuery _)) fun under =>
    Learns.bind (checking_of_tamed hclosed (Tamed.orDie _ _)) fun _ => ?_
  have hlast := lasting_passed below target
  rw [← bind_assoc]
  refine Learns.bind (hmounts.weaken fun _ hl => ⟨hl, trivial⟩) fun _ => ?_
  rw [← bind_assoc]
  refine Learns.bind (htypes.weaken fun _ hl => ⟨hl.1, hl.2.2⟩) fun _ => ?_
  exact Learns.weaken (Learns.bind (checking_of_tamed hlast.closed (Tamed.lookQuery _)) fun _ =>
    checking_of_tamed hlast.closed (Tamed.forEach fun _ => Tamed.whenever
      ((Tamed.ite (Tamed.pure _) (Tamed.lookQuery _)).bind fun _ => Tamed.orDie _ _)))
    fun _ hl => ⟨hl.2.1, hl.2.2⟩

/-- The resolved target. -/
theorem checking_canonical (hK : Closed (fun _ => Tame host (Spared touches) .dryRun) K) :
    Checking host touches K (fun target l => K l ∧ Names o l target) (canonicalDevice host o.target) := by
  refine Learns.bind (checking_of_tamed hK (Tamed.asks _)) fun there =>
    Learns.ite (fun _ => ?_) fun _ => Learns.pure fun _ hl => ⟨hl, Or.inl rfl⟩
  refine Learns.bind (must_learns fun _ _ => tame_query _) fun r => Learns.pure fun l h => ?_
  obtain ⟨⟨before, hb, rfl, rfl⟩, -⟩ := h
  exact ⟨hK before _ hb (tame_query _), Or.inr ⟨_, List.mem_append_right before List.mem_cons_self, rfl⟩⟩

/-- The checks on the options change nothing of what was asked for but the target's name and the
lock's. -/
theorem checking_validate (hK : Closed (fun _ => Tame host (Spared touches) .dryRun) K) (o : Options) :
    Checking host touches K
      (fun s l => (K l ∧ Names o l s.target) ∧
        ∃ target lock, s.opts = { o with target := target, packageLock := lock })
      (validate host o) := by
  rw [validate_eq]
  refine Learns.bind (checking_of_tamed hK (Tamed.orDie _ _)) fun _ =>
    Learns.bind (checking_of_tamed hK (Tamed.orDie _ _)) fun _ =>
    Learns.bind (checking_canonical hK) fun target => ?_
  have hrest := Learns.of_yields (hK.and (lasting_names o target).closed)
    (Tamed.validateFrom o target)
  refine hrest.mono fun s l h => ?_
  obtain ⟨⟨lock, hs⟩, hl⟩ := h
  refine ⟨⟨hl.1, ?_⟩, target, lock, hs⟩
  rw [Settings.target, hs]
  exact hl.2

/-- The word is the token of what the checked options ask for. -/
theorem isToken_eraseToken (s : Settings) : IsToken s.opts.layout s.target s.eraseToken := by
  rw [IsToken, ← s.layout_word, Settings.eraseToken]
  cases s.layout
  · exact Or.inl ⟨rfl, rfl⟩
  · exact Or.inr ⟨rfl, rfl⟩

/-- The checks of a run that executes: the word is the token, and the tree below the target passed. -/
theorem checking_executeChecks (hhonest : HonestListing host touches below)
    (hown : OwnFiles host (Spared touches)) {φ : History → Prop} (hφ : Lasting φ) (s : Settings) :
    Checking host touches (fun l => Untouched host touches l ∧ φ l)
      (fun _ l => φ l ∧ Passed below s.target l ∧ s.opts.confirm = s.eraseToken)
      (executeChecks host s) := by
  have hclosed := (closed_untouched hown).and (Lasting.closed hφ)
  have hafter : Lasting fun l => φ l ∧ Passed below s.target l := hφ.and (lasting_passed below s.target)
  have hstep := fun {α : Type} {m : Engine α} (h : Tamed host (Spared touches) .dryRun m) =>
    checking_of_tamed (hafter.closed) h
  refine Learns.bind (checking_of_tamed hclosed (Tamed.answer _)) fun user =>
    Learns.bind (checking_of_tamed hclosed (Tamed.orDie _ _)) fun _ =>
    Learns.bind (checking_orDie hclosed _ _) fun _ => Learns.given fun hword => ?_
  refine Learns.bind (checking_of_tamed hclosed (Tamed.asks _)) fun _ =>
    Learns.bind (checking_of_tamed hclosed (Tamed.orDie _ _)) fun _ =>
    Learns.bind (checking_of_tamed hclosed (Tamed.asks _)) fun _ =>
    Learns.bind (checking_of_tamed hclosed (Tamed.orDie _ _)) fun _ =>
    Learns.bind (checking_of_tamed hclosed (Tamed.answer _)) fun _ =>
    Learns.bind (checking_of_tamed hclosed (Tamed.orDie _ _)) fun _ =>
    Learns.bind (checking_of_tamed hclosed (Tamed.orDie _ _)) fun _ => ?_
  refine Learns.bind (T := fun _ l => φ l ∧ Passed below s.target l)
    (Learns.keeping (checking_inUse hhonest hown s.target) hφ) fun _ => ?_
  refine Learns.bind (hstep Tamed.roomChecks) fun _ =>
    Learns.bind (hstep (Tamed.forEach fun _ => Tamed.requireProgram _)) fun _ =>
    Learns.bind (hstep Tamed.requireShapeTools) fun _ =>
    Learns.bind (hstep (Tamed.whenever (Tamed.requireProgram _))) fun _ =>
    Learns.bind (hstep Tamed.secureBootState) fun _ =>
    Learns.bind (hstep (Tamed.whenever ((Tamed.forEach fun _ => (Tamed.asks _).bind fun _ =>
      Tamed.orDie _ _).bind fun _ => Tamed.whenever ((Tamed.asks _).bind fun _ => Tamed.orDie _ _))))
      fun _ => Learns.pure fun l hl => ⟨hl.1, hl.2, by simpa using hword⟩

/-- What is known once every check has passed. -/
def Agreed (o : Options) (below : Bytes → List Device) (before : History) : Prop :=
  ∃ target, Names o before target ∧ IsToken o.layout target o.confirm ∧ Passed below target before

theorem lasting_agreed (o : Options) (below : Bytes → List Device) : Lasting (Agreed o below) := by
  intro h es ha
  obtain ⟨target, hn, ht, hp⟩ := ha
  exact ⟨target, lasting_names o target h es hn, ht, lasting_passed below target h es hp⟩

/-- The part that only checks comes to its end only if the checks of an executing run have passed. -/
theorem checking_script (hhonest : HonestListing host touches below) (hown : OwnFiles host (Spared touches))
    (hm : o.mode = .execute) :
    Checking host touches (Untouched host touches)
      (fun r l => Agreed o below l ∧ r.1.mode = .execute) (checkedOptions host o) := by
  refine Learns.bind (checking_validate (closed_untouched hown) o) fun s => Learns.given fun hs => ?_
  obtain ⟨target, lock, hs⟩ := hs
  have hmode : s.mode = .execute := by rw [Settings.mode, hs]; exact hm
  have hconfirm : s.opts.confirm = o.confirm := by rw [hs]
  have hlayout : s.opts.layout = o.layout := by rw [hs]
  have hclosed := (closed_untouched hown).and (lasting_names o s.target).closed
  refine Learns.bind (checking_of_tamed hclosed Tamed.choosePackages) fun p =>
    Learns.bind (checking_of_tamed hclosed Tamed.requireShapeTools) fun _ => ?_
  rw [if_pos hmode]
  refine Learns.bind (checking_executeChecks hhonest hown (lasting_names o s.target) s) fun c =>
    Learns.pure fun l hl => ⟨⟨s.target, hl.1, ?_, hl.2.1⟩, hmode⟩
  rw [← hlayout, ← hconfirm, hl.2.2]
  exact isToken_eraseToken s

/-! ## The run -/

/-- What is asked of a call: if it touches the target, it was consented to. -/
def Asks (host : Host) (touches : Place → Prop) (below : Bytes → List Device) (argv : List Bytes)
    (before : History) (call : Call) : Prop :=
  (∃ p ∈ call.places host, touches p) → Consented host argv below before

/-- `Asks`, where what is in use was shown. -/
def AsksIfShown (host : Host) (touches : Place → Prop) (below : Bytes → List Device) (argv : List Bytes)
    (before : History) (call : Call) : Prop :=
  Shown below before → Asks host touches below argv before call

variable {argv : List Bytes}

theorem asks_of_tame (hown : OwnFiles host (Spared touches)) {before : History} {call : Call}
    (h : Tame host (Spared touches) .dryRun call) : AsksIfShown host touches below argv before call := by
  intro _ htouch
  obtain ⟨p, hp, ht⟩ := htouch
  obtain ⟨q, rfl, hq⟩ := h.2 rfl hown p hp
  exact absurd ht hq

theorem asks_of_agreed (hparse : parse host argv = .options o) (hm : o.mode = .execute)
    {before : History} {call : Call} (h : Agreed o below before) :
    AsksIfShown host touches below argv before call := by
  intro hshown _
  obtain ⟨target, hn, ht, hp⟩ := h
  exact ⟨o, target, hparse, hm, hn, ht, hp.idle hshown⟩

/-- What a part of an executing run leaves behind: calls that were asked for, and either no more than
checks, or the agreement. -/
def Leaves (host : Host) (touches : Place → Prop) (below : Bytes → List Device) (argv : List Bytes)
    (o : Options) (s : Shell) : Prop :=
  AllCalls (AsksIfShown host touches below argv) s.history ∧
    (Unmounted host (Spared touches) .dryRun s.vars ∨ Agreed o below s.history)

/-- Whatever is tame may follow. -/
theorem leaves_of_tamed (below : Bytes → List Device) (hown : OwnFiles host (Spared touches))
    (hparse : parse host argv = .options o) (hm : o.mode = .execute) {m : Engine α} (h : ∀ mode, Tamed host (Spared touches) mode m) (s : Shell)
    (hs : Leaves host touches below argv o s) :
    wp m (fun _ => Leaves host touches below argv o) (fun _ => Leaves host touches below argv o) s := by
  refine wp_of_state (P := Leaves host touches below argv o) ?_
  rcases hs.2 with hJ | hagreed
  · obtain ⟨hadds, hJ'⟩ := h .dryRun s hJ
    exact ⟨(hadds.mono fun _ _ => asks_of_tame hown).all hs.1, Or.inl hJ'⟩
  · obtain ⟨⟨es, hes, -⟩, -⟩ := h .execute s fun hd => nomatch hd
    have hlast := lasting_agreed o below
    refine ⟨?_, Or.inr (hes ▸ hlast _ _ hagreed)⟩
    rw [hes]
    exact allCalls_append.2 ⟨hs.1, fun before call after _ =>
      asks_of_agreed hparse hm (hlast _ before hagreed)⟩

/-- The script of an executing run. -/
theorem leaves_script (hhonest : HonestListing host touches below) (hown : OwnFiles host (Spared touches))
    (hparse : parse host argv = .options o) (hm : o.mode = .execute) :
    wp (script host o) (fun _ => Leaves host touches below argv o)
      (fun _ => Leaves host touches below argv o) ({ vars := {} } : Shell) := by
  rw [script_eq, wp_bind]
  have hchecks := checking_script hhonest hown hm { vars := {} } unmounted_init fun e he => by
    simp at he
  have hasked : ∀ s : Shell, Within (fun _ => Tame host (Spared touches) .dryRun)
      (Unmounted host (Spared touches) .dryRun) ({ vars := {} } : Shell) s →
      AllCalls (AsksIfShown host touches below argv) s.history := fun s hs =>
    ((hs unmounted_init).1.mono fun _ _ => asks_of_tame hown).all (allCalls_nil _)
  refine wp_mono hchecks (fun r s h => ?_) fun _ s h =>
    ⟨hasked s h, Or.inl (h unmounted_init).2⟩
  obtain ⟨hwithin, hagreed, hmode⟩ := h
  have hcalls : Makes (fun _ _ => True) (Unmounted host (Spared touches) r.1.mode) (do
      let b ← before host r.1 r.2.1 r.2.2
      install host r.1 r.2.1 r.2.2 b.1 b.2.1 b.2.2) :=
    Makes.bind ((Tamed.before.makes).mono fun _ _ _ => trivial) fun b => install_calls hmode _ _
  have hallowed : ∀ l c, Agreed o below l → AsksIfShown host touches below argv l c := fun _ _ hl =>
    asks_of_agreed hparse hm hl
  have hrest := Learns.of_allowed (lasting_agreed o below) hallowed hcalls s
    (fun hd => nomatch hmode.symm.trans hd) hagreed
  have hJ : Unmounted host (Spared touches) r.1.mode s.vars := fun hd => nomatch hmode.symm.trans hd
  have hleaves : ∀ s' : Shell, Within (AsksIfShown host touches below argv)
      (Unmounted host (Spared touches) r.1.mode) s s' → Leaves host touches below argv o s' := by
    intro s' hs'
    obtain ⟨hadds, -⟩ := hs' hJ
    refine ⟨hadds.all (hasked s hwithin), Or.inr ?_⟩
    obtain ⟨es, hes, -⟩ := hadds
    rw [hes]
    exact lasting_agreed o below _ es hagreed
  exact wp_mono hrest (fun _ s' h => hleaves s' h.1) fun _ s' h => hleaves s' h

/-- A run that executes. -/
theorem execute_asks (hhonest : HonestListing host touches below) (hown : OwnFiles host (Spared touches))
    (hparse : parse host argv = .options o) (hm : o.mode = .execute) :
    AllCalls (AsksIfShown host touches below argv) (history host argv) := by
  have hrun : wp (engine host argv) (fun _ => Leaves host touches below argv o)
      (fun _ => Leaves host touches below argv o) ({ vars := {} } : Shell) := by
    rw [engine, hparse]
    show wp (withTraps host o.mountpoint (script host o)) _ _ _
    rw [withTraps, wp_bind, wp_attempt]
    have hcleanup := fun status => leaves_of_tamed below hown hparse hm
      fun _ => Tamed.cleanup o.mountpoint status
    have hcancel := fun status => leaves_of_tamed below hown hparse hm
      fun _ => (Tamed.handleCancel status).bind fun _ => Tamed.cleanup o.mountpoint status
    refine wp_mono (leaves_script hhonest hown hparse hm) (fun _ s h => hcleanup 0 s h) fun e s h => ?_
    cases e with
    | status n => exact hcleanup n s h
    | signal sig =>
      cases sig with
      | int => exact hcancel 130 s h
      | term => exact hcancel 143 s h
  exact (wp_state hrun).1

/-- A run that does not execute. -/
theorem idle_asks (hown : OwnFiles host (Spared touches))
    (h : Tamed host (Spared touches) .dryRun (engine host argv)) :
    AllCalls (AsksIfShown host touches below argv) (history host argv) :=
  (history_all h).mono fun _ _ => asks_of_tame hown

/-- **Nothing is written without the token, and nothing to a disk in use**: a call that touches the
target belongs to a run that executes and was given the target's token, and nothing below the target
was in use, in every run in which the listings showed what was. -/
theorem nothing_without_consent (hhonest : HonestListing host touches below)
    (hown : OwnFiles host (Spared touches)) (hshown : Shown below (history host argv)) :
    AllCalls (Asks host touches below argv) (history host argv) := by
  have hrun : AllCalls (AsksIfShown host touches below argv) (history host argv) := by
    cases hparse : parse host argv with
    | options o =>
      cases hm : o.mode with
      | execute => exact execute_asks hhonest hown hparse hm
      | dryRun =>
        have hengine : Makes (fun _ => Tame host (Spared touches) o.mode)
            (Unmounted host (Spared touches) o.mode) (engine host argv) := by
          refine engine_makes hparse (fun _ _ h => h)
            (script_makes (fun _ _ h => h) fun s p c w selected cache hs hw => ?_)
          obtain ⟨target, lock, hs⟩ := hs
          have hmode : s.mode = o.mode := by rw [Settings.mode, hs]
          rw [← hmode] at hw ⊢
          exact Tamed.install (hmode.trans hm) selected cache hw
        rw [hm] at hengine
        exact idle_asks hown hengine
    | usage =>
      refine idle_asks hown ?_
      rw [engine, hparse]
      exact Tamed.withTraps _ (Tamed.pure ())
    | missing =>
      refine idle_asks hown ?_
      rw [engine, hparse]
      exact Tamed.withTraps _ (Tamed.fail _)
    | unknown word =>
      refine idle_asks hown ?_
      rw [engine, hparse]
      exact Tamed.withTraps _ (Tamed.die _)
  intro before call after hsplit
  exact hrun before call after hsplit (Shown.of_append (call :: after) (hsplit ▸ hshown))

/-! ## A machine with one disk -/

/-- A device nothing is mounted from. -/
def sampleDevice (name : Bytes) (type : String) (stacked : Bool) (hname : IsWord name)
    (htype : IsWord (text type)) : Device where
  name := name
  type := text type
  mounts := []
  swap := false
  stacked := stacked
  name_word := hname
  type_word := htype
  mounts_absolute := by simp

theorem isWord_sda : IsWord (text "/dev/sda") := by decide +kernel

theorem isWord_disk : IsWord (text "disk") := by decide +kernel

theorem isWord_md127 : IsWord (text "/dev/md127") := by decide +kernel

theorem isWord_raid0 : IsWord (text "raid0") := by decide +kernel

/-- The disk alone. -/
def bareDisk (_ : Bytes) : List Device :=
  [sampleDevice (text "/dev/sda") "disk" false isWord_sda isWord_disk]

/-- The disk with an array on it. -/
def arrayDisk (_ : Bytes) : List Device :=
  [sampleDevice (text "/dev/sda") "disk" false isWord_sda isWord_disk,
    sampleDevice (text "/dev/md127") "raid0" true isWord_md127 isWord_raid0]

/-- A machine on which `lsblk` lists these devices. -/
def listingHost (ds : List Device) : Host where
  reply _ call :=
    match call with
    | .query (.lsblk .mounts _) => { lines := ds.map Device.name }
    | .query (.lsblk .types _) => { lines := ds.map fun d => d.name ++ 32 :: d.type }
    | call => calmReply call

theorem listingHost_honest {ds : List Device} (hbare : ∀ d ∈ ds, d.mountCells = [])
    (touches : Place → Prop) : HonestListing (listingHost ds) touches fun _ => ds where
  mounts before target _ _ d hd := by
    refine ⟨d.name, List.mem_map_of_mem hd, 0, ?_, ?_⟩
    · simp [hbare d hd]
    · simp [hbare d hd]
  types before target _ _ d hd := ⟨_, List.mem_map_of_mem hd, 1, rfl, fun _ => Nat.one_pos⟩

/-- What is on the disk, and what is under `/mnt`. -/
def sampleTouches (p : Place) : Prop :=
  p = .device (text "/dev/sda") ∨ ∃ q, p = .path q ∧ q.take 4 = text "/mnt"

theorem spared_of_take (dir : Bytes) {p : Bytes} (hp : Under dir p) (h : dir.take 4 ≠ text "/mnt")
    (hlen : 4 ≤ dir.length) : Spared sampleTouches p := by
  have htake : p.take 4 = dir.take 4 := by
    rcases hp with rfl | ⟨t, rfl⟩
    · rfl
    · exact List.take_append_of_le_length hlen
  intro htouch
  rcases htouch with htouch | ⟨q, hq, hmnt⟩
  · exact nomatch htouch
  · obtain rfl := Place.path.inj hq
    exact h (htake.symm.trans hmnt)

theorem listingHost_ownFiles (ds : List Device) : OwnFiles (listingHost ds) (Spared sampleTouches) where
  journal := spared_of_take (text "/run/aurade-install/journal.jsonl") (Or.inl rfl) (by decide) (by decide)
  raw := spared_of_take (text "/run/aurade-install/install.log") (Or.inl rfl) (by decide) (by decide)
  failures h := absurd rfl h
  workDir _ hp := spared_of_take (text "/var/tmp") hp (by decide) (by decide)
  tmp _ hp := spared_of_take (text "/tmp") hp (by decide) (by decide)
  made before dir name hdir _ p hp := by
    refine hdir p (Or.inr ?_)
    rcases hp with rfl | ⟨t, rfl⟩
    · exact ⟨name, rfl⟩
    · exact ⟨name ++ 47 :: t, List.append_assoc _ _ _⟩

/-- An install that wipes the disk, with its token. -/
def wipeArgs : List Bytes := calmArgs ["--execute", "--confirm", "ERASE:/dev/sda"]

/-- A bare disk is wiped with consent. -/
theorem nothing_without_consent_bareDisk :
    AllCalls (Asks (listingHost (bareDisk [])) sampleTouches bareDisk wipeArgs)
      (history (listingHost (bareDisk [])) wipeArgs) ∧
    (history (listingHost (bareDisk [])) wipeArgs).any
      (fun e => decide (e.1 = .command (.wipefs (text "/dev/sda")))) = true := by
  constructor
  · refine nothing_without_consent (listingHost_honest ?_ _) (listingHost_ownFiles _) ?_
    · intro d hd
      obtain rfl := List.mem_singleton.1 hd
      rfl
    · intro target hused
      obtain ⟨d, hd, hbusy⟩ := hused
      obtain rfl := List.mem_singleton.1 hd
      exact absurd ⟨rfl, rfl, rfl⟩ hbusy
  · decide +kernel

/-- A disk with an array on it is wiped too, and the array is in use. -/
theorem wipes_array :
    ∃ (host : Host) (touches : Place → Prop) (below : Bytes → List Device) (argv : List Bytes),
      HonestListing host touches below ∧ OwnFiles host (Spared touches) ∧
      ¬ AllCalls (Asks host touches below argv) (history host argv) := by
  refine ⟨listingHost (arrayDisk []), sampleTouches, arrayDisk, wipeArgs,
    listingHost_honest ?_ _, listingHost_ownFiles _, fun h => ?_⟩
  · intro d hd
    rcases List.mem_pair.1 hd with rfl | rfl <;> rfl
  have hcall : (history (listingHost (arrayDisk [])) wipeArgs).any
      (fun e => decide (e.1 = .command (.wipefs (text "/dev/sda")))) = true := by decide +kernel
  obtain ⟨e, he, hwipe⟩ := List.any_eq_true.1 hcall
  obtain ⟨before, after, hsplit⟩ := List.append_of_mem he
  have hasks := h before e after hsplit
  rw [of_decide_eq_true hwipe] at hasks
  have htouch : ∃ p ∈ (Call.command (.wipefs (text "/dev/sda"))).places (listingHost (arrayDisk [])),
      sampleTouches p := ⟨.device (text "/dev/sda"), List.mem_singleton.2 rfl, Or.inl rfl⟩
  obtain ⟨o, target, -, -, -, -, hidle⟩ := hasks htouch
  have harray := hidle _ (List.mem_cons_of_mem _ List.mem_cons_self)
  exact absurd harray.2.2 (by decide)

end Aurade.Installer
