import Aurade.Installer.Tame

/-!
# Installing alongside what is there

With `--layout alongside` the engine has `sgdisk` add one partition and finds it again by its label,
in the list `lsblk` prints. `Disk` is a partition table, and `Honest` what the two programs are
trusted for: `sgdisk` puts the new partition at the first free number and changes no other, and
`lsblk` lists the partitions in the order of the table.

Then every partition the engine formats, and the one it mounts as the new root, is the new one
(`alongside_only_new`), if no partition in front of the new one bears the same label: the engine
takes the first with the label, and an earlier install has left one (`alongside_formats_old`).
-/

namespace Aurade.Installer

open Act

/-! ## Partition tables -/

/-- A partition, as `lsblk` calls it and labels it. -/
structure Partition where
  name : Bytes
  label : Bytes
  deriving DecidableEq

/-- A disk with its partition table. -/
structure Disk where
  /-- The labels of the partitions by number, `none` where a number is free. -/
  slots : List (Option Bytes)
  /-- The device of the partition with this number. -/
  device : ℕ → Bytes
  device_word : ∀ n, IsWord (device n)
  device_injective : Function.Injective device

/-- `AURADE_ROOT`, the label of every root the engine makes. -/
def rootLabel : Bytes := text "AURADE_ROOT"

/-- The partitions of a table, whose first number is `n`. -/
def listed (device : ℕ → Bytes) : ℕ → List (Option Bytes) → List Partition
  | _, [] => []
  | n, none :: slots => listed device (n + 1) slots
  | n, some label :: slots => ⟨device n, label⟩ :: listed device (n + 1) slots

theorem listed_append (device : ℕ → Bytes) (n : ℕ) (xs ys : List (Option Bytes)) :
    listed device n (xs ++ ys) = listed device n xs ++ listed device (n + xs.length) ys := by
  induction xs generalizing n with
  | nil => rfl
  | cons x xs ih =>
    have hlen : n + 1 + xs.length = n + (x :: xs).length := by simp only [List.length_cons]; omega
    cases x with
    | none => simp only [List.cons_append, listed, ih, hlen]
    | some label => simp only [List.cons_append, listed, ih, hlen]

theorem mem_listed {device : ℕ → Bytes} {n : ℕ} {slots : List (Option Bytes)} {p : Partition}
    (h : p ∈ listed device n slots) : ∃ k, n ≤ k ∧ p.name = device k ∧ slots[k - n]? = some (some p.label) := by
  induction slots generalizing n with
  | nil => simp [listed] at h
  | cons x xs ih =>
    have hlater : p ∈ listed device (n + 1) xs →
        ∃ k, n ≤ k ∧ p.name = device k ∧ (x :: xs)[k - n]? = some (some p.label) := by
      intro h
      obtain ⟨k, hk, hname, hx⟩ := ih h
      refine ⟨k, by omega, hname, ?_⟩
      rwa [show k - n = k - (n + 1) + 1 by omega, List.getElem?_cons_succ]
    cases x with
    | none => exact hlater h
    | some label =>
      rcases List.mem_cons.1 h with rfl | h
      · exact ⟨n, le_refl n, rfl, by simp⟩
      · exact hlater h

namespace Disk

variable (d : Disk)

/-- The partitions that are there, in the order of the table. The numbers count from one. -/
def partitions : List Partition := listed d.device 1 d.slots

/-- The slots in front of the first free one. -/
def front : List (Option Bytes) := d.slots.takeWhile (·.isSome)

/-- The device of the partition that `sgdisk --largest-new=0` adds: the first free number. -/
def fresh : Bytes := d.device (d.front.length + 1)

/-- The partitions once the new one is there. -/
def grown : List Partition :=
  listed d.device 1 (d.front ++ some rootLabel :: d.slots.drop (d.front.length + 1))

/-- No partition in front of the new one bears the label. -/
def Clear : Prop := ∀ p ∈ listed d.device 1 d.front, (fields p.label).headD [] ≠ rootLabel

/-- The new partition is none of those that were there. -/
theorem fresh_new : ∀ p ∈ d.partitions, p.name ≠ d.fresh := by
  intro p hp heq
  obtain ⟨k, hk, hname, hslot⟩ := mem_listed hp
  obtain rfl : k = d.front.length + 1 := d.device_injective (hname.symm.trans heq)
  have hfree : ∀ slots : List (Option Bytes),
      slots[(slots.takeWhile (·.isSome)).length]? ≠ some (some p.label) := by
    intro slots
    induction slots with
    | nil => simp
    | cons x xs ih => cases x <;> simp_all
  exact hfree d.slots hslot

theorem grown_eq : d.grown = listed d.device 1 d.front ++
    ⟨d.fresh, rootLabel⟩ :: listed d.device (d.front.length + 2) (d.slots.drop (d.front.length + 1)) := by
  have h₁ : 1 + d.front.length = d.front.length + 1 := by omega
  rw [grown, listed_append, listed, fresh, h₁]

end Disk

/-! ## Listings -/

/-- The line of a partition: its name, filled up with blanks, and its label. -/
def IsRow (p : Partition) (line : Bytes) : Prop :=
  ∃ n, line = p.name ++ (List.replicate (n + 1) 32 ++ p.label)

/-- The lines with a label are those of the partitions with a label, in order. -/
def Lists (ps : List Partition) (lines : List Bytes) : Prop :=
  List.Forall₂ IsRow (ps.filter fun p => fields p.label ≠ [])
    (lines.filter fun line => 2 ≤ (fields line).length)

theorem fields_row {p : Partition} (hname : IsWord p.name) {line : Bytes} (h : IsRow p line) :
    fields line = p.name :: fields p.label := by
  obtain ⟨n, rfl⟩ := h
  exact fields_padded hname n p.label

/-- A partition the engine takes for the new one. -/
def Partition.labelled (p : Partition) : Bool := (fields p.label).headD [] = rootLabel

theorem rootLabel_ne : rootLabel ≠ [] := by decide

/-- A line that names such a partition. -/
def rowLabelled (line : Bytes) : Bool := (fields line).getD 1 [] = rootLabel

theorem rootOf_eq (lines : List Bytes) :
    rootOf lines = ((lines.find? rowLabelled).map fields).elim [] (·.headD []) := by
  rw [rootOf, List.find?_map]
  rfl

theorem rowLabelled_row {p : Partition} (hname : IsWord p.name) {line : Bytes} (h : IsRow p line) :
    rowLabelled line = p.labelled := by
  rw [rowLabelled, Partition.labelled, fields_row hname h]
  cases fields p.label <;> rfl

/-- A search passes over what is no match. -/
theorem find_filter {α : Type} {p q : α → Bool} (h : ∀ a, p a = true → q a = true) (xs : List α) :
    xs.find? p = (xs.filter q).find? p := by
  rw [List.find?_filter]
  congr 1
  funext a
  by_cases hp : p a = true
  · simp [hp, h a hp]
  · simp [hp]

theorem two_le_of_rowLabelled {line : Bytes} (h : rowLabelled line = true) :
    2 ≤ (fields line).length := by
  by_contra hlen
  have hnil : (fields line).getD 1 [] = [] := by
    rw [List.getD_eq_getElem?_getD, List.getElem?_eq_none (by omega), Option.getD_none]
  rw [rowLabelled, hnil, decide_eq_true_iff] at h
  exact rootLabel_ne h.symm

theorem label_of_labelled {p : Partition} (h : p.labelled = true) : fields p.label ≠ [] := by
  intro hnil
  rw [Partition.labelled, hnil, decide_eq_true_iff] at h
  exact rootLabel_ne h.symm

/-- What the engine makes of a list: the first partition whose label begins with the word. -/
theorem rootOf_lists {ps : List Partition} (hword : ∀ p ∈ ps, IsWord p.name) {lines : List Bytes}
    (h : Lists ps lines) : rootOf lines = (ps.find? Partition.labelled).elim [] (·.name) := by
  -- lines and partitions without a label are passed over
  rw [rootOf_eq, find_filter (q := fun line => decide (2 ≤ (fields line).length))
      (fun _ hl => decide_eq_true (two_le_of_rowLabelled hl)),
    find_filter (q := fun p : Partition => decide (fields p.label ≠ []))
      (fun _ hp => decide_eq_true (label_of_labelled hp)) ps]
  have hsub : ∀ p ∈ ps.filter (fun p => fields p.label ≠ []), IsWord p.name := fun p hp =>
    hword p (List.mem_of_mem_filter hp)
  unfold Lists at h
  generalize ps.filter (fun p => fields p.label ≠ []) = ps at h hsub
  generalize lines.filter (fun line => 2 ≤ (fields line).length) = lines at h
  induction h with
  | nil => rfl
  | @cons p line ps lines hrow _ ih =>
    have hname : IsWord p.name := hsub p List.mem_cons_self
    have hlabel : rowLabelled line = p.labelled := rowLabelled_row hname hrow
    by_cases hl : p.labelled = true
    · rw [List.find?_cons_of_pos (hlabel.trans hl), List.find?_cons_of_pos hl, Option.map_some,
        fields_row hname hrow]
      rfl
    · rw [List.find?_cons_of_neg (by rwa [hlabel]), List.find?_cons_of_neg hl]
      exact ih fun q hq => hsub q (List.mem_cons_of_mem _ hq)

theorem labelled_fresh (name : Bytes) : (Partition.mk name rootLabel).labelled = true := by
  rw [Partition.labelled, fields_word (show IsWord rootLabel by decide +kernel)]
  rfl

/-- Where the label stands on no partition in front, the new partition is the one that is found. -/
theorem rootOf_grown {d : Disk} (hclear : d.Clear) {lines : List Bytes} (h : Lists d.grown lines) :
    rootOf lines = d.fresh := by
  have hword : ∀ p ∈ d.grown, IsWord p.name := by
    intro p hp
    obtain ⟨k, -, hname, -⟩ := mem_listed hp
    rw [hname]
    exact d.device_word k
  have hfront : (listed d.device 1 d.front).find? Partition.labelled = none := by
    rw [List.find?_eq_none]
    intro p hp
    simpa [Partition.labelled] using hclear p hp
  rw [rootOf_lists hword h, Disk.grown_eq, List.find?_append, hfront, Option.none_or,
    List.find?_cons, labelled_fresh]
  rfl

/-! ## What the programs are trusted for -/

/-- The new partition was made on this disk. -/
def Created (before : History) (disk : Bytes) : Prop :=
  ∃ type r, (.command (.largestNew type disk), r) ∈ before ∧ r.ok = true

/-- Once the partition was made, `lsblk` lists the table with it. -/
def Honest (host : Host) (disks : Bytes → Disk) : Prop :=
  ∀ before disk, Created before disk →
    (host.reply before (.query (.lsblk .partLabels disk))).ok = true →
    Lists (disks disk).grown (host.reply before (.query (.lsblk .partLabels disk))).lines

/-- The device is the partition, or a mapping that was opened on it. -/
def RestsOn (before : History) (device partition : Bytes) : Prop :=
  device = partition ∨ ∃ keyFile name r, (.command (.luksOpen keyFile partition name), r) ∈ before ∧
    r.ok = true ∧ device = text "/dev/mapper/" ++ name

/-- The device is the partition this run made. -/
def IsNew (disks : Bytes → Disk) (before : History) (device : Bytes) : Prop :=
  ∃ disk, Created before disk ∧ RestsOn before device (disks disk).fresh

/-- The call formats the new partition alone, leaves the table as it is, and mounts nothing else as
the new root. -/
def OnlyNew (disks : Bytes → Disk) (mountpoint : Bytes) (before : History) : Call → Prop
  | .command (.wipefs d) | .command (.mkfsFat d) | .command (.mkfs _ d) | .command (.luksFormat _ d) =>
    IsNew disks before d
  | .command (.zapAll _) | .command (.newTable _ _) => False
  | .command (.mount _ d dir) => dir = mountpoint → IsNew disks before d
  | _ => True

variable {disks : Bytes → Disk}

theorem lasting_created (disk : Bytes) : Lasting fun before => Created before disk := by
  intro h es hc
  obtain ⟨type, r, hmem, hok⟩ := hc
  exact ⟨type, r, List.mem_append_left es hmem, hok⟩

/-- Every disk that was partitioned was clear in front of the new partition. -/
def ClearIn (disks : Bytes → Disk) (before : History) : Prop :=
  ∀ type disk r, (.command (.largestNew type disk), r) ∈ before → (disks disk).Clear

theorem ClearIn.of_append {l es : History} (h : ClearIn disks (l ++ es)) : ClearIn disks l :=
  fun type disk r hr => h type disk r (List.mem_append_left es hr)

theorem lasting_isNew (disks : Bytes → Disk) (device : Bytes) :
    Lasting fun before => ClearIn disks before → IsNew disks before device := by
  intro h es hnew hclear
  obtain ⟨disk, hc, hrests⟩ := hnew hclear.of_append
  refine ⟨disk, lasting_created disk h es hc, ?_⟩
  rcases hrests with heq | ⟨keyFile, name, r, hmem, hok⟩
  · exact Or.inl heq
  · exact Or.inr ⟨keyFile, name, r, List.mem_append_left es hmem, hok⟩

/-! ## The stages -/

variable {host : Host} {own : Bytes → Prop} {mode : Mode} {mountpoint : Bytes} {s : Settings}
  {p : Packages} {w : Work} {c : Checked} {α : Type}

/-- `OnlyNew`, where the disks that were partitioned were clear. -/
def OnlyNewIfClear (disks : Bytes → Disk) (mountpoint : Bytes) (before : History) (call : Call) : Prop :=
  ClearIn disks before → OnlyNew disks mountpoint before call

/-- A call that does not shape the disk is not in question. -/
theorem onlyNew_of_tame {before : History} {call : Call} (h : Tame host own mode call) :
    OnlyNewIfClear disks mountpoint before call := by
  intro _
  cases call with
  | command cmd =>
    have hs := h.1 cmd rfl
    cases cmd <;> trivial
  | _ => trivial

theorem Tamed.onlyNew {m : Engine α} (h : Tamed host own mode m) :
    Makes (OnlyNewIfClear disks mountpoint) (Unmounted host own mode) m :=
  Makes.mono h fun _ _ hc => onlyNew_of_tame hc

/-- A part that does not shape the disk, where something lasting is known. -/
theorem Tamed.keeps {m : Engine α} (h : Tamed host own mode m) {K : History → Prop} (hK : Lasting K) :
    Learns (OnlyNewIfClear disks mountpoint) (Unmounted host own mode) K (fun _ l => K l) m :=
  Learns.of_makes hK h.onlyNew

/-- The partition found by its label is the one that was made. -/
theorem addPartition_learns (hhonest : Honest host disks) (hm : s.mode = .execute) :
    Learns (OnlyNewIfClear disks mountpoint) (Unmounted host own s.mode) (fun _ => True)
      (fun parts l => Created l s.target ∧ ((disks s.target).Clear → parts.root = (disks s.target).fresh))
      (addPartition host s c) := by
  have hlast := lasting_created s.target
  have hmade : ∀ l r, Asked host (fun _ => True)
      (.command (.largestNew s.rootPartitionType s.target)) r l ∧ r.ok = true → Created l s.target :=
    fun l r h => ⟨_, r, h.1.mem, h.2⟩
  refine Learns.bind (T := fun _ l => Created l s.target) ((run_learns hm fun _ _ _ => trivial).mono
    fun _ l h => h.elim (hmade l)) fun _ => ?_
  refine Learns.bind ((Tamed.run rfl).keeps hlast) fun _ =>
    Learns.bind ((Tamed.run rfl).keeps hlast) fun _ => ?_
  split
  · refine Learns.bind (must_learns fun _ _ _ => trivial) fun labels => ?_
    -- the list was printed once the partition was there
    have hroot : ∀ l, Asked host (fun l => Created l s.target)
        (.query (.lsblk .partLabels s.target)) labels l ∧ labels.ok = true → Created l s.target ∧
          ((disks s.target).Clear → rootOf labels.lines = (disks s.target).fresh) := by
      intro l h
      refine ⟨h.1.lasts hlast, fun hclear => ?_⟩
      obtain ⟨⟨before, hb, rfl, -⟩, hok⟩ := h
      exact rootOf_grown hclear (hhonest before s.target hb hok)
    refine Learns.weaken (Learns.given fun h => Learns.bind ((Tamed.asks _).keeps hlast) fun _ =>
      Learns.bind ((Tamed.orDie _ _).keeps hlast) fun _ => Learns.pure fun l hl => ⟨hl, h⟩) hroot
  · next hd => exact nomatch hm.symm.trans hd

theorem partitionStage_learns (hhonest : Honest host disks) (hm : s.mode = .execute)
    (hl : s.layout = .alongside) :
    Learns (OnlyNewIfClear disks mountpoint) (Unmounted host own s.mode) (fun _ => True)
      (fun parts l => Created l s.target ∧ ((disks s.target).Clear → parts.root = (disks s.target).fresh))
      (partitionStage host s c) := by
  refine Learns.bind ((Tamed.journalBegin _ _).keeps fun _ _ h => h) fun _ => Learns.bind
    (T := fun parts l => Created l s.target ∧
      ((disks s.target).Clear → parts.root = (disks s.target).fresh)) ?_ fun parts =>
    Learns.bind ((Tamed.journalOk _ _).keeps ?_) fun _ => Learns.pure fun _ h => h
  · split
    · exact addPartition_learns hhonest hm
    · next hw => exact nomatch hl.symm.trans hw
  · exact (lasting_created s.target).and fun _ _ h => h

/-- What is formatted is the new partition, or the mapping opened on it. -/
theorem formatStage_learns (hm : s.mode = .execute) (hl : s.layout = .alongside) {parts : Parts}
    (hroot : (disks s.target).Clear → parts.root = (disks s.target).fresh) :
    Learns (OnlyNewIfClear disks mountpoint) (Unmounted host own s.mode) (fun l => Created l s.target)
      (fun _ l => ClearIn disks l → IsNew disks l (rootDevice s parts)) (formatStage host s parts) := by
  have hlast := lasting_created s.target
  have hfresh : ∀ l, Created l s.target → ClearIn disks l → parts.root = (disks s.target).fresh := by
    intro l h hclear
    obtain ⟨type, r, hmem, -⟩ := h
    exact hroot (hclear type s.target r hmem)
  have hnew : ∀ l, Created l s.target → ClearIn disks l → IsNew disks l parts.root :=
    fun l h hclear => ⟨s.target, h, Or.inl (hfresh l h hclear)⟩
  refine Learns.bind ((Tamed.journalBegin _ _).keeps hlast) fun _ => Learns.bind
    (T := fun _ l => Created l s.target) (Learns.ite (fun hw => nomatch hl.symm.trans hw)
      fun _ => Learns.pure fun _ h => h) fun _ => ?_
  refine Learns.bind (T := fun _ l => ClearIn disks l → IsNew disks l (rootDevice s parts)) ?_ fun _ =>
    Learns.bind (run_keeps (lasting_isNew _ _) fun _ h => h) fun _ =>
    (Tamed.journalOk _ _).keeps (lasting_isNew _ _)
  refine Learns.ite (fun hluks => ?_) fun hluks => Learns.pure fun l h => ?_
  · have hopened : ∀ l r, Asked host (fun l => Created l s.target)
        (.command (.luksOpen s.opts.luksPassphraseFile parts.root cryptName)) r l ∧ r.ok = true →
        ClearIn disks l → IsNew disks l (rootDevice s parts) := by
      intro l r h hclear
      have hmade := h.1.lasts hlast
      refine ⟨s.target, hmade, Or.inr ⟨_, cryptName, r, hfresh l hmade hclear ▸ h.1.mem, h.2, ?_⟩⟩
      rw [rootDevice, if_pos hluks, mapper]
    refine Learns.bind (run_keeps hlast fun l h hclear => hnew l h hclear) fun _ =>
      Learns.bind ((run_learns hm fun _ _ _ => trivial).mono fun _ l h => h.elim (hopened l)) fun _ =>
      Learns.ite (fun _ => Learns.assign fun v hv hd => nomatch hm.symm.trans hd)
        fun _ => Learns.pure fun _ h => h
  · rw [rootDevice, if_neg hluks]
    exact hnew l h

theorem inside_ne {path : String} (hpath : text path ≠ []) : inside s path ≠ s.mountpoint := by
  intro h
  exact hpath (List.append_right_eq_self.1 h)

/-- What is mounted as the new root is the new partition; what is mounted elsewhere is under it. -/
theorem mountStage_learns (hm : s.mode = .execute) {parts : Parts} :
    Learns (OnlyNewIfClear disks s.mountpoint) (Unmounted host own s.mode)
      (fun l => ClearIn disks l → IsNew disks l (rootDevice s parts))
      (fun _ l => ClearIn disks l → IsNew disks l (rootDevice s parts)) (mountStage host s parts) := by
  have hlast := lasting_isNew disks (rootDevice s parts)
  have hmount : ∀ options, Learns (OnlyNewIfClear disks s.mountpoint) (Unmounted host own s.mode)
      (fun l => ClearIn disks l → IsNew disks l (rootDevice s parts))
      (fun _ l => ClearIn disks l → IsNew disks l (rootDevice s parts))
      (run host s (.mount options (rootDevice s parts) s.mountpoint)) := fun options =>
    run_keeps hlast fun _ h hclear _ => h hclear
  have hunder : ∀ options device path, text path ≠ [] →
      Learns (OnlyNewIfClear disks s.mountpoint) (Unmounted host own s.mode)
        (fun l => ClearIn disks l → IsNew disks l (rootDevice s parts))
        (fun _ l => ClearIn disks l → IsNew disks l (rootDevice s parts))
        (run host s (.mount options device (inside s path))) := fun options device path hpath =>
    run_keeps hlast fun _ _ _ h => absurd h (inside_ne hpath)
  have hset : ∀ b, Learns (OnlyNewIfClear disks s.mountpoint) (Unmounted host own s.mode)
      (fun l => ClearIn disks l → IsNew disks l (rootDevice s parts))
      (fun _ l => ClearIn disks l → IsNew disks l (rootDevice s parts)) (setMounted s b) := fun b =>
    Learns.ite (fun _ => Learns.assign fun v hv hd => nomatch hm.symm.trans hd)
      fun _ => Learns.pure fun _ h => h
  refine Learns.bind ((Tamed.journalBegin _ _).keeps hlast) fun _ =>
    Learns.bind ((Tamed.run rfl).keeps hlast) fun _ =>
    Learns.bind (T := fun _ l => ClearIn disks l → IsNew disks l (rootDevice s parts)) ?_ fun _ =>
    (Tamed.journalOk _ _).keeps hlast
  split
  · refine Learns.bind (hmount _) fun _ => Learns.bind (hset _) fun _ =>
      Learns.bind ((Tamed.forEach fun _ => Tamed.run rfl).keeps hlast) fun _ =>
      Learns.bind ((Tamed.run rfl).keeps hlast) fun _ => Learns.bind (hset _) fun _ =>
      Learns.bind (hmount _) fun _ => Learns.bind (hset _) fun _ =>
      Learns.bind ((Tamed.run rfl).keeps hlast) fun _ => ?_
    exact Learns.bind (hunder _ _ _ (by decide)) fun _ =>
      Learns.bind (hunder _ _ _ (by decide)) fun _ =>
      Learns.bind (hunder _ _ _ (by decide)) fun _ => hunder _ _ _ (by decide)
  · exact Learns.bind (hmount _) fun _ => Learns.bind (hset _) fun _ =>
      Learns.bind ((Tamed.run rfl).keeps hlast) fun _ => hunder _ _ _ (by decide)

/-! ## The run -/

theorem install_onlyNew (hhonest : Honest host disks) (hl : s.layout = .alongside)
    (selected : Staging) (cache : Cache) (hw : Tamed.OwnWork host own s.mode w.dir) :
    Makes (OnlyNewIfClear disks s.mountpoint) (Unmounted host own s.mode)
      (install host s p c w selected cache) := by
  cases hm : s.mode with
  | dryRun => exact hm ▸ (Tamed.install hm selected cache hw).onlyNew
  | execute =>
    rw [← hm, install_eq]
    refine Learns.makes (T := fun _ _ => True) (Learns.bind
      (partitionStage_learns hhonest hm hl) fun parts => Learns.given fun hroot => ?_)
    exact Learns.bind (formatStage_learns hm hl hroot) fun _ =>
      Learns.bind (mountStage_learns hm) fun _ =>
      ((Tamed.afterMount _ _ _ hw).keeps (lasting_isNew _ _)).mono fun _ _ _ => trivial

/-- **Alongside, only the new partition is formatted, and it alone is mounted as the root**, in every
run that partitions disks whose label stands on no partition in front. -/
theorem alongside_only_new {argv : List Bytes} {o : Options} (hparse : parse host argv = .options o)
    (hl : o.layout = text "alongside") (hhonest : Honest host disks)
    (hclear : ClearIn disks (history host argv)) :
    AllCalls (OnlyNew disks o.mountpoint) (history host argv) := by
  have hrun : Makes (OnlyNewIfClear disks o.mountpoint) (Unmounted host (fun _ => True) o.mode)
      (engine host argv) := by
    refine engine_makes hparse (fun _ _ => onlyNew_of_tame)
      (script_makes (fun _ _ => onlyNew_of_tame) fun s p c w selected cache hs hw => ?_)
    obtain ⟨target, lock, hs⟩ := hs
    have hmode : s.mode = o.mode := by rw [Settings.mode, hs]
    have hmount : s.mountpoint = o.mountpoint := by rw [Settings.mountpoint, hs]
    have hlayout : s.layout = .alongside := by
      have hword := s.layout_word
      rw [hs, show ({ o with target := target, packageLock := lock } : Options).layout = o.layout from rfl,
        hl] at hword
      cases h : s.layout with
      | alongside => rfl
      | wipe => exact absurd (h ▸ hword) (by decide)
    rw [← hmode, ← hmount]
    exact install_onlyNew hhonest hlayout selected cache (hmode ▸ hw)
  intro before call after hsplit
  refine history_all hrun before call after hsplit fun type disk r hr => ?_
  exact hclear type disk r (hsplit ▸ List.mem_append_left _ hr)

/-! ## A machine with one disk -/

theorem isWord_numbered {start : Bytes} (h : IsWord start) (n : ℕ) : IsWord (start ++ decimal n) := by
  refine ⟨by simp [h.1], fun b hb => ?_⟩
  rcases List.mem_append.1 hb with hb | hb
  · exact h.2 b hb
  · have hdigit := List.all_eq_true.1 (all_isDigit_decimal n) b hb
    simp only [isDigit, Bool.and_eq_true, decide_eq_true_eq] at hdigit
    simp only [isBlank, Bool.or_eq_false_iff, decide_eq_false_iff_not]
    exact ⟨fun h => absurd hdigit.1 (by simp [h]), fun h => absurd hdigit.1 (by simp [h])⟩

/-- A disk `/dev/sda` with this table. -/
def sampleDisk (slots : List (Option Bytes)) : Disk where
  slots := slots
  device n := text "/dev/sda" ++ decimal n
  device_word := isWord_numbered (by decide +kernel)
  device_injective m n h := by
    have hd : decimal m = decimal n := List.append_cancel_left h
    rw [← parseDecimal_decimal m, hd, parseDecimal_decimal]

/-- The line of a partition, with one blank behind the name. -/
def rowOf (p : Partition) : Bytes := p.name ++ 32 :: p.label

theorem lists_rows {ps : List Partition} (hword : ∀ p ∈ ps, IsWord p.name) :
    Lists ps (text "/dev/sda" :: ps.map rowOf) := by
  have hdisk : fields (text "/dev/sda") = [text "/dev/sda"] := fields_word (by decide +kernel)
  rw [Lists, List.filter_cons_of_neg (by simp [hdisk])]
  induction ps with
  | nil => exact .nil
  | cons p ps ih =>
    have hrow : IsRow p (rowOf p) := ⟨0, rfl⟩
    have hf := fields_row (hword p List.mem_cons_self) hrow
    have ih := ih fun q hq => hword q (List.mem_cons_of_mem _ hq)
    cases hl : fields p.label with
    | nil =>
      rw [List.filter_cons_of_neg (by simp [hl]), List.map_cons,
        List.filter_cons_of_neg (by simp [hf, hl])]
      exact ih
    | cons f fs =>
      rw [List.filter_cons_of_pos (by simp [hl]), List.map_cons,
        List.filter_cons_of_pos (by simp [hf, hl])]
      exact .cons hrow ih

/-- A machine with that disk. -/
def sampleHost (slots : List (Option Bytes)) : Host where
  reply _ call :=
    match call with
    | .query (.lsblk .partLabels _) => { lines := text "/dev/sda" :: (sampleDisk slots).grown.map rowOf }
    | call => calmReply call

theorem sampleHost_honest (slots : List (Option Bytes)) :
    Honest (sampleHost slots) fun _ => sampleDisk slots := by
  intro before disk _ _
  refine lists_rows fun p hp => ?_
  obtain ⟨k, -, hname, -⟩ := mem_listed hp
  exact hname ▸ (sampleDisk slots).device_word k

/-- An install alongside, without a question. -/
def alongsideArgs : List Bytes :=
  calmArgs ["--layout", "alongside", "--execute", "--confirm", "INSTALL:/dev/sda"]

theorem alongsideArgs_parse (slots : List (Option Bytes)) :
    ∃ o, parse (sampleHost slots) alongsideArgs = .options o ∧ o.layout = text "alongside" ∧
      o.mountpoint = text "/mnt/aurade-target" :=
  ⟨_, rfl, rfl, rfl⟩

/-- A disk with room between another system and an earlier install. -/
def roomBetween : List (Option Bytes) := [some (text "EFI"), none, some (text "AURADE_ROOT")]

/-- With room in front of an earlier install, the new partition is the one that is formatted. -/
theorem alongside_only_new_roomBetween :
    AllCalls (OnlyNew (fun _ => sampleDisk roomBetween) (text "/mnt/aurade-target"))
      (history (sampleHost roomBetween) alongsideArgs) ∧
    (history (sampleHost roomBetween) alongsideArgs).any
      (fun e => decide (e.1 = .command (.mkfs .btrfs (text "/dev/sda2")))) = true := by
  constructor
  · obtain ⟨o, hparse, hl, hm⟩ := alongsideArgs_parse roomBetween
    have hclear : (sampleDisk roomBetween).Clear := by
      intro p hp
      obtain rfl : p = ⟨text "/dev/sda1", text "EFI"⟩ := List.mem_singleton.1 hp
      decide
    have h := alongside_only_new hparse hl (sampleHost_honest roomBetween) fun _ _ _ _ => hclear
    rwa [hm] at h
  · decide +kernel

/-- A disk with an earlier install and room behind it. -/
def roomBehind : List (Option Bytes) := [some (text "EFI"), some (text "AURADE_ROOT")]

/-- With room behind an earlier install, it is the earlier install that is formatted. -/
theorem alongside_formats_old :
    ∃ (host : Host) (argv : List Bytes) (o : Options) (disks : Bytes → Disk),
      parse host argv = .options o ∧ o.layout = text "alongside" ∧ Honest host disks ∧
      ¬ AllCalls (OnlyNew disks o.mountpoint) (history host argv) := by
  obtain ⟨o, hparse, hl, -⟩ := alongsideArgs_parse roomBehind
  refine ⟨sampleHost roomBehind, alongsideArgs, o, fun _ => sampleDisk roomBehind, hparse, hl,
    sampleHost_honest roomBehind, fun h => ?_⟩
  have hcall : (history (sampleHost roomBehind) alongsideArgs).any
      (fun e => decide (e.1 = .command (.mkfs .btrfs (text "/dev/sda2")))) = true := by decide +kernel
  obtain ⟨e, he, hmkfs⟩ := List.any_eq_true.1 hcall
  obtain ⟨before, after, hsplit⟩ := List.append_of_mem he
  have hnew := h before e after hsplit
  rw [of_decide_eq_true hmkfs] at hnew
  have hfresh : text "/dev/sda2" ≠ (sampleDisk roomBehind).fresh := by decide
  obtain ⟨disk, -, heq | ⟨keyFile, name, r, -, -, heq⟩⟩ := hnew
  · exact hfresh heq
  · have htake := congrArg (List.take 8) heq
    rw [List.take_append_of_le_length (by decide)] at htake
    exact absurd htake (by decide)

end Aurade.Installer
