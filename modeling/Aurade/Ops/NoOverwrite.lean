import Aurade.Ops.Effects

/-!
# Nothing but replace overwrites

`Command` is a call of one of the operations that put something into a directory, and `Command.exec`
runs it; it may fail, and what it did by then stays done. `Command.moved` are the places of the
sources a command moves or renames. A source is looked up when its turn comes, and what an earlier
source of the batch did may have changed the directory its path leads to, so these places are
those found at the turns (`Act.turns`).

**`nothing_overwrites`**: over any sequence of commands without `Conflict::Replace`, a node that is
not at or below such a place is where it was, with the contents and the kind it had. It rests on two
facts of `Aurade.Ops.Effects`: a copy makes every node exclusively, and the rename, which would
replace silently, goes to a name that `exists` found free.
-/

namespace Aurade.Ops

open Fs

/-- A call of an operation that puts something into a directory. -/
inductive Command
  | copy (sources : List PathBuf) (names : List (Option Bytes)) (destDir : PathBuf)
      (conflict : Conflict)
  | move (sources : List PathBuf) (names : List (Option Bytes)) (destDir : PathBuf)
      (conflict : Conflict)
  | rename (path : PathBuf) (newName : Bytes) (conflict : Conflict)
  | duplicate (paths : List PathBuf)
  | create (dir : PathBuf) (name : Bytes) (kind : NewItem)
  | makeShortcut (target : Bytes) (destDir : PathBuf) (name : Option Bytes)
  | folderWithSelection (sources : List PathBuf) (destDir : PathBuf) (name : Bytes)

namespace Command

/-- Whether the command was not asked to replace. -/
def Gentle : Command → Prop
  | copy _ _ _ conflict | move _ _ _ conflict | rename _ _ conflict => conflict ≠ .replace
  | _ => True

variable (k : Kernel) (rep : Reporter)

/-- Run the command; the caller here has no use for its value. -/
def exec : Command → Act World Error Unit
  | copy sources names destDir conflict => do
    let _ ← copyAs k rep sources names destDir conflict
    pure ()
  | move sources names destDir conflict => do
    let _ ← moveAs k rep sources names destDir conflict
    pure ()
  | rename path newName conflict => do
    let _ ← Ops.rename k path newName conflict
    pure ()
  | duplicate paths => do
    let _ ← Ops.duplicate k rep paths
    pure ()
  | create dir name kind => do
    let _ ← Ops.create k dir name kind
    pure ()
  | makeShortcut target destDir name => do
    let _ ← Ops.makeShortcut k target destDir name
    pure ()
  | folderWithSelection sources destDir name => do
    let _ ← Ops.folderWithSelection k rep sources destDir name
    pure ()

/-- The places of the sources of a move, each found when its turn came. -/
def movedBy (sources : List PathBuf) (names : List (Option Bytes)) (destDir : PathBuf)
    (conflict : Conflict) (w : World) : List Path :=
  match prepare k sources names destDir w with
  | (.ok (dest, items), w') =>
    (Act.turns .continue (runItem k rep dest destDir conflict true) items w').filterMap
      fun turn => k.place turn.2.fs turn.1.1
  | (.error _, _) => []

/-- The places of the sources that a command moves or renames. -/
def moved : Command → World → List Path
  | move sources names destDir conflict, w => movedBy k rep sources names destDir conflict w
  | rename path _ _, w => (k.place w.fs path).toList
  | folderWithSelection sources destDir name, w =>
    match Ops.create k destDir name .folder w with
    | (.ok folder, w') => movedBy k rep sources [] folder .keepBoth w'
    | (.error _, _) => []
  | _, _ => []

end Command

/-- The state after a sequence of commands, each with its reporter. -/
def after (k : Kernel) : List (Reporter × Command) → World → World
  | [], w => w
  | (rep, c) :: steps, w => after k steps (c.exec k rep w).2

/-- The places of all the sources that a sequence of commands moves or renames. -/
def movedIn (k : Kernel) : List (Reporter × Command) → World → List Path
  | [], _ => []
  | (rep, c) :: steps, w => c.moved k rep w ++ movedIn k steps (c.exec k rep w).2

/-! ## One source, one command -/

/-- There is the node `nd` at `x`. -/
def Holds (x : Path) (nd : Node) (w : World) : Prop := w.fs.get x = some nd

section Keeps

variable {k : Kernel} {rep : Reporter} {x : Path} {nd : Node} {w w' : World}

theorem Holds.of_fs (h : Holds x nd w) (hfs : w'.fs = w.fs) : Holds x nd w' := by
  rwa [Holds, hfs]

theorem Holds.of_looks (h : Holds x nd w) (hl : Looks w w') : Holds x nd w' := h.of_fs hl.1

theorem Holds.of_adds {p : Path} (h : Holds x nd w) (ha : Adds p w w') : Holds x nd w' :=
  ha.keeps x nd h

/-- A node outside the place that is deleted stays. -/
theorem Holds.of_deletes {p : Path} (h : Holds x nd w) (hd : Deletes p w w') (hp : ¬ p <+: x) :
    Holds x nd w' := by
  rw [Holds, hd.1.outside x hp]
  exact h

theorem wp_of_looks {α : Type} {m : Act World Error α} (hm : Act.Stays Looks m)
    (h : Holds x nd w) : m.wp (fun _ w' => Holds x nd w') (fun _ w' => Holds x nd w') w :=
  Act.wp_mono (hm.wp w) (fun _ _ hl => h.of_looks hl) (fun _ _ hl => h.of_looks hl)

theorem wp_of_adds {α : Type} {p : Path} {m : Act World Error α} (hm : Act.Stays (Adds p) m)
    (h : Holds x nd w) : m.wp (fun _ w' => Holds x nd w') (fun _ w' => Holds x nd w') w :=
  Act.wp_mono (hm.wp w) (fun _ _ ha => h.of_adds ha) (fun _ _ ha => h.of_adds ha)

/-- A copy keeps every node, and the deletion after it every node outside its source. -/
theorem copyOver_keeps (srcRoot : Root) (name : Name) (dest : Root) (target : Name)
    (removeSource : Bool) (hx : removeSource = true → ¬ srcRoot.dir ++ [name] <+: x)
    (h : Holds x nd w) :
    (copyOver k rep srcRoot name dest target removeSource).wp
      (fun _ w' => Holds x nd w') (fun _ w' => Holds x nd w') w := by
  simp only [copyOver, Act.wp_bind, Act.wp_ite, Act.wp_pure, wp_setOut]
  refine Act.wp_mono (wp_of_adds (copyNode_adds _ _ _ _ _) h) (fun flow w' h => ?_)
    (fun _ _ h => h)
  refine ⟨fun _ => h, fun _ => ⟨fun hr => ?_, fun _ => h⟩⟩
  exact Act.wp_mono ((removeTree_deletes _ _ _).wp _)
    (fun _ _ hd => Holds.of_deletes (by exact h) hd (hx hr))
    (fun _ _ hd => Holds.of_deletes (by exact h) hd (hx hr))

/-- A rename to a place that was found free keeps every node outside its source. -/
theorem renameTo_keeps (hk : k.Honest) (root dest : Root) (n m : Name)
    (hfree : k.Free w.fs (dest.dir ++ [m])) (hx : ¬ root.dir ++ [n] <+: x) (h : Holds x nd w) :
    (root.renameTo k n.rel dest m.rel).wp
      (fun _ w' => Holds x nd w') (fun _ w' => Holds x nd w') w :=
  Act.wp_mono (renameTo_free hk root dest n m hfree)
    (fun _ _ hm => hm.1.get_of_outside h hx) (fun _ _ hl => h.of_looks hl.1)

theorem transfer_keeps (hk : k.Honest) (srcRoot : Root) (name : Name) (dest : Root)
    (target : Name) (removeSource : Bool) (hfree : k.Free w.fs (dest.dir ++ [target]))
    (hx : removeSource = true → ¬ srcRoot.dir ++ [name] <+: x) (h : Holds x nd w) :
    (transfer k rep srcRoot name dest target removeSource).wp
      (fun _ w' => Holds x nd w') (fun _ w' => Holds x nd w') w := by
  simp only [transfer, Act.wp_ite, Act.wp_bind, Act.wp_attempt]
  refine ⟨fun hr => ?_, fun hr => copyOver_keeps srcRoot name dest target _ hx h⟩
  refine Act.wp_mono (renameTo_keeps hk srcRoot dest name target hfree (hx hr) h) ?_ ?_
  · rintro ⟨⟩ w' h
    simp only [countMoved, Act.wp_bind]
    exact Act.wp_mono (wp_of_looks (looks_measure _) h) (fun _ _ h => h) (fun _ _ h => h)
  · intro e w' h
    split
    · next heq => cases heq
    · exact copyOver_keeps srcRoot name dest target _ hx h
    · exact h

/-- **One source of a copy or a move**: a node outside the place that a moved source names stays,
however the turn ends. -/
theorem runItem_keeps (hk : k.Honest) (dest : Root) (destDir : PathBuf) {conflict : Conflict}
    (hc : conflict ≠ .replace) (removeSource : Bool) (item : PathBuf × Option Name)
    (hx : removeSource = true → ∀ p, k.place w.fs item.1 = some p → ¬ p <+: x)
    (h : Holds x nd w) :
    (runItem k rep dest destDir conflict removeSource item).wp
      (fun _ w' => Holds x nd w') (fun _ w' => Holds x nd w') w := by
  simp only [runItem, Act.wp_bind, Act.wp_ite, Act.wp_fail]
  refine Act.wp_mono (split_spec item.1 w) ?_ (fun _ _ hl => h.of_looks hl)
  rintro ⟨srcRoot, name⟩ w₁ ⟨h₁, hplace, -⟩
  refine Act.wp_mono ((looks_metadata srcRoot name).wp w₁) (fun st w₂ h₂ => ?_)
    (fun _ _ hl => h.of_looks (h₁.trans hl))
  refine Act.wp_mono ((looks_holdsDest st destDir item.1).wp w₂) (fun inside w₃ h₃ => ?_)
    (fun _ _ hl => h.of_looks ((h₁.trans h₂).trans hl))
  have h₀ : Holds x nd w₃ := h.of_looks ((h₁.trans h₂).trans h₃)
  refine ⟨fun _ => h₀, fun _ => ?_⟩
  refine Act.wp_mono (resolveConflict_spec dest _ item.1 hc w₃) ?_ (fun _ _ hl => h₀.of_looks hl)
  rintro (_ | target) w₄ ⟨hfs, -, -, htarget⟩
  · exact h₀.of_fs hfs
  have hfree : k.Free w₄.fs (dest.dir ++ [target]) := hfs ▸ htarget.1
  simp only [Act.wp_bind, wp_noteRenamed]
  exact transfer_keeps hk srcRoot name dest target removeSource hfree
    (fun hr => hx hr _ hplace) (h₀.of_fs hfs)

/-! ## The commands -/

/-- Each command ends in a state that holds the node. -/
abbrev KeepsNode (x : Path) (nd : Node) {α : Type} (m : Act World Error α) (w : World) : Prop :=
  m.wp (fun _ w' => Holds x nd w') (fun _ w' => Holds x nd w') w

theorem keepsNode_exec {α : Type} {m : Act World Error α} (h : KeepsNode x nd m w) :
    KeepsNode x nd (do let _ ← m; pure ()) w := by
  simp only [KeepsNode, Act.wp_bind, Act.wp_pure]
  exact h

theorem endJob_keeps (flow : Flow) (h : Holds x nd w) : KeepsNode x nd (endJob flow) w := by
  simp only [KeepsNode, endJob, Act.wp_bind, Act.wp_ite, Act.wp_get, Act.wp_pure, wp_setOut]
  exact ⟨fun _ => h, fun _ => h⟩

/-- The whole batch of a copy. -/
theorem run_keeps_copy (hk : k.Honest) (sources : List PathBuf) (names : List (Option Bytes))
    (destDir : PathBuf) {conflict : Conflict} (hc : conflict ≠ .replace) (h : Holds x nd w) :
    KeepsNode x nd (run k rep sources names destDir conflict false) w := by
  simp only [KeepsNode, run, Act.wp_ite, Act.wp_bind, Act.wp_pure]
  refine ⟨fun _ => h, fun _ => ?_⟩
  refine Act.wp_mono (prepare_spec sources names destDir w) ?_ (fun _ _ hl => h.of_looks hl)
  rintro ⟨dest, items⟩ w₁ ⟨hfs, -⟩
  refine Act.each_wp (fun _ w' => Holds x nd w') ?_ (fun item items w' h' => ?_) items w₁
    (h.of_fs hfs)
  · exact fun _ h => endJob_keeps _ h
  refine Act.wp_mono (runItem_keeps hk dest destDir hc false item (by simp) h') ?_ (fun _ _ h => h)
  intro flow w'' h''
  split
  · exact h''
  · exact endJob_keeps _ h''

variable (rep) in
/-- The whole batch of a move, by its turns. -/
theorem run_keeps_move (hk : k.Honest) (sources : List PathBuf) (names : List (Option Bytes))
    (destDir : PathBuf) {conflict : Conflict} (hc : conflict ≠ .replace) (h : Holds x nd w) :
    (∃ p ∈ Command.movedBy k rep sources names destDir conflict w, p <+: x) ∨
      KeepsNode x nd (run k rep sources names destDir conflict true) w := by
  have hrun : ∀ r w₁, prepare k sources names destDir w = (r, w₁) → Holds x nd w₁ := by
    intro r w₁ hp
    have hw : w₁ = (prepare k sources names destDir w).2 := by rw [hp]
    rw [hw]
    exact Act.wp_state (P := Holds x nd) (Act.wp_mono (prepare_spec sources names destDir w)
      (fun _ _ hr => h.of_fs hr.1) (fun _ _ hl => h.of_looks hl))
  unfold run
  split
  · exact Or.inr h
  simp only [KeepsNode, Act.wp_bind]
  rcases hp : prepare k sources names destDir w with ⟨e | ⟨dest, items⟩, w₁⟩
  · exact Or.inr (Act.wp_of_error hp (hrun _ _ hp))
  have hturn : ∀ item w', Holds x nd w' → (∃ p, k.place w'.fs item.1 = some p ∧ p <+: x) ∨
      Holds x nd (runItem k rep dest destDir conflict true item w').2 := by
    intro item w' h'
    refine or_iff_not_imp_left.2 fun hX => Act.wp_state ?_
    exact runItem_keeps hk dest destDir hc true item (fun _ p hp hpx => hX ⟨p, hp, hpx⟩) h'
  rcases Act.each_turns (ρ := Flow) hturn items w₁ (hrun _ _ hp) with ⟨turn, hmem, p, hplace, hpx⟩ | hF
  · refine Or.inl ⟨p, ?_, hpx⟩
    rw [Command.movedBy, hp]
    exact List.mem_filterMap.2 ⟨turn, hmem, hplace⟩
  · refine Or.inr (Act.wp_of_ok hp ?_)
    exact Act.wp_mono (Act.wp_of_state hF) (fun flow _ h => endJob_keeps flow h) (fun _ _ h => h)

/-! ## The single items -/

theorem rename_keeps (hk : k.Honest) (path : PathBuf) (newName : Bytes) {conflict : Conflict}
    (hc : conflict ≠ .replace) (hx : ∀ p, k.place w.fs path = some p → ¬ p <+: x)
    (h : Holds x nd w) : KeepsNode x nd (Ops.rename k path newName conflict) w := by
  cases hn : validateName newName with
  | error e => simpa only [KeepsNode, Ops.rename, hn, Act.lift_error, Act.wp_bind, Act.wp_fail] using h
  | ok new =>
    simp only [KeepsNode, Ops.rename, hn, Act.lift_ok, pure_bind, Act.wp_bind, Act.wp_ite, Act.wp_pure]
    refine Act.wp_mono (split_spec path w) ?_ (fun _ _ hl => h.of_looks hl)
    rintro ⟨root, name⟩ w₁ ⟨h₁, hplace, -⟩
    refine ⟨fun _ => h.of_looks h₁, fun _ => ?_⟩
    refine Act.wp_mono (renameTarget_spec root new hc w₁) ?_
      (fun _ _ hl => h.of_looks (h₁.trans hl))
    rintro target w₂ ⟨h₂, hfree⟩
    exact renameTo_keeps hk root root name target (h₂.1 ▸ hfree) (hx _ hplace)
      (h.of_looks (h₁.trans h₂))

theorem createItem_keeps (root : Root) (target : Name) (kind : NewItem) (h : Holds x nd w) :
    KeepsNode x nd (createItem k root target kind) w := by
  cases kind with
  | folder => exact wp_of_adds (adds_mkdir root target _ false) h
  | file =>
    refine keepsNode_exec (Act.wp_mono (Root.createFile_spec root target _ w) ?_ ?_)
    · rintro _ w' ⟨-, t, rfl, -, hfree, hx⟩
      exact Holds.of_adds h (Tree.Grows.of_touches (Tree.touches_of_ite hx) hfree)
    · rintro _ w' rfl
      exact h
  | fromTemplate template =>
    simp only [KeepsNode, createItem, Act.wp_bind, startJob, wp_setJob]
    refine Act.wp_mono (wp_of_looks (looks_split template) h) (fun r w₁ h₁ => ?_) (fun _ _ h => h)
    refine Act.wp_mono (wp_of_looks (looks_metadata r.1 r.2) h₁) (fun _ w₂ h₂ => ?_)
      (fun _ _ h => h)
    exact Act.wp_mono (wp_of_adds (copyNode_adds _ _ _ _ _) (by exact h₂)) (fun _ _ h => h)
      (fun _ _ h => h)

theorem create_keeps (dir : PathBuf) (name : Bytes) (kind : NewItem) (h : Holds x nd w) :
    KeepsNode x nd (Ops.create k dir name kind) w := by
  cases hn : validateName name with
  | error e => simpa only [KeepsNode, Ops.create, hn, Act.lift_error, Act.wp_bind, Act.wp_fail] using h
  | ok new =>
    simp only [KeepsNode, Ops.create, hn, Act.lift_ok, pure_bind, Act.wp_bind, Act.wp_pure]
    refine Act.wp_mono (wp_of_looks (looks_open dir) h) (fun root w₁ h₁ => ?_) (fun _ _ h => h)
    refine Act.wp_mono (wp_of_looks (looks_uniqueName root new) h₁) (fun target w₂ h₂ => ?_)
      (fun _ _ h => h)
    exact createItem_keeps root target kind h₂

theorem duplicateItem_keeps (path : PathBuf) (h : Holds x nd w) :
    KeepsNode x nd (duplicateItem k rep path) w := by
  simp only [KeepsNode, duplicateItem, Act.wp_bind, wp_setOut, Act.wp_pure]
  refine Act.wp_mono (wp_of_looks (looks_split path) h) (fun r w₁ h₁ => ?_) (fun _ _ h => h)
  refine Act.wp_mono (wp_of_looks (looks_uniqueName r.1 _) h₁) (fun target w₂ h₂ => ?_)
    (fun _ _ h => h)
  exact Act.wp_mono (wp_of_adds (copyNode_adds _ _ _ _ _) h₂) (fun _ _ h => h) (fun _ _ h => h)

theorem duplicate_keeps (paths : List PathBuf) (h : Holds x nd w) :
    KeepsNode x nd (Ops.duplicate k rep paths) w := by
  simp only [KeepsNode, Ops.duplicate, Act.wp_bind, startJob, wp_setJob]
  refine Act.wp_mono (wp_of_looks (looks_measure paths) h) (fun total w₁ h₁ => ?_) (fun _ _ h => h)
  refine Act.each_wp (fun _ w' => Holds x nd w') ?_ (fun path paths w' h' => ?_) paths _ h₁
  · exact fun _ h => endJob_keeps _ h
  refine Act.wp_mono (duplicateItem_keeps path h') ?_ (fun _ _ h => h)
  intro flow w'' h''
  split
  · exact h''
  · exact endJob_keeps _ h''

theorem makeShortcut_keeps (target : Bytes) (destDir : PathBuf) (name : Option Bytes)
    (h : Holds x nd w) : KeepsNode x nd (Ops.makeShortcut k target destDir name) w := by
  simp only [KeepsNode, Ops.makeShortcut, Act.wp_bind, Act.wp_pure]
  refine Act.wp_mono (wp_of_looks (looks_open destDir) h) (fun dest w₁ h₁ => ?_) (fun _ _ h => h)
  cases validateName (name.getD (shortcutName target)) with
  | error e => exact h₁
  | ok base =>
    simp only [Act.lift_ok, Act.wp_pure]
    refine Act.wp_mono (wp_of_looks (looks_uniqueName dest base) h₁) (fun leaf w₂ h₂ => ?_)
      (fun _ _ h => h)
    exact wp_of_adds (adds_symlink dest leaf target) h₂

/-! ## A new folder with the selection

When the move fails, the folder is looked up again by its path and removed if it is empty. The move
has put nodes into the folder only, so the path leads to the folder or nowhere. -/

/-- No node came to a place that is not at or below `F`. -/
def Outside (F : Path) (w w' : World) : Prop :=
  ∀ x, ¬ F <+: x → w'.fs.get x = none ∨ w'.fs.get x = w.fs.get x

theorem Outside.of_fs {F : Path} (h : w'.fs = w.fs) : Outside F w w' := fun _ _ => Or.inr (by rw [h])

theorem Outside.trans {F : Path} {w'' : World} (h : Outside F w w') (h' : Outside F w' w'') :
    Outside F w w'' := fun x hx => by
  rcases h' x hx with hnone | heq
  · exact Or.inl hnone
  · rw [heq]
    exact h x hx

theorem Outside.of_adds {F p : Path} (h : Adds p w w') (hF : F <+: p) : Outside F w w' :=
  fun x hx => Or.inr (h.outside x fun hp => hx (hF.trans hp))

theorem Outside.of_deletes {F p : Path} (h : Deletes p w w') : Outside F w w' := fun x _ => by
  cases hx : w'.fs.get x with
  | none => exact Or.inl rfl
  | some nd => exact Or.inr (h.1.subset x nd hx).symm

theorem Outside.of_moved {F p q : Path} (h : w.fs.Moved p q w'.fs) (hF : F <+: q) :
    Outside F w w' := fun x hx => by
  rw [h.get x, if_neg fun hq => hx (hF.trans hq)]
  split
  · exact Or.inl rfl
  · exact Or.inr rfl

/-- Then a node that was there and is there is the same, where `F` was free. -/
theorem Outside.agree {F : Path} (h : Outside F w w') (hF : w.fs.get F = none) :
    w.fs.Agree w'.fs := by
  intro y nd nd' hnd hnd'
  have hout : ¬ F <+: y := fun hpre => by
    rw [w.fs.get_of_prefix_of_none hF hpre] at hnd
    simp at hnd
  rcases h y hout with hnone | heq
  · simp [hnone] at hnd'
  · exact Option.some.inj (hnd'.symm.trans (heq.trans hnd))

section Outside

variable {F : Path}

theorem outside_bind {α β : Type} {m : Act World Error α} {f : α → Act World Error β}
    (hm : Act.Stays (Outside F) m) (hf : ∀ a, Act.Stays (Outside F) (f a)) :
    Act.Stays (Outside F) (m >>= f) :=
  Act.Stays.bind (R := Outside F) (fun _ _ _ => Outside.trans) hm hf

theorem outside_looks {α : Type} {m : Act World Error α} (h : Act.Stays Looks m) :
    Act.Stays (Outside F) m := h.mono fun _ _ h => Outside.of_fs h.1

theorem outside_pure {α : Type} (a : α) : Act.Stays (Outside F) (pure a : Act World Error α) :=
  fun _ => Outside.of_fs rfl

theorem outside_setOut (f : Outcome → Outcome) : Act.Stays (Outside F) (setOut f) :=
  fun _ => Outside.of_fs rfl

theorem outside_copyOver (srcRoot : Root) (name : Name) (dest : Root) (target : Name)
    (removeSource : Bool) :
    Act.Stays (Outside dest.dir) (copyOver k rep srcRoot name dest target removeSource) := by
  refine outside_bind ((copyNode_adds _ _ _ _ _).mono fun _ _ h =>
    Outside.of_adds h (List.prefix_append _ _)) fun flow => ?_
  refine Act.Stays.ite (fun _ => outside_pure _) fun _ => outside_bind (outside_setOut _) fun _ => ?_
  refine Act.Stays.ite (fun _ => ?_) fun _ => outside_pure _
  exact outside_bind ((removeTree_deletes _ _ _).mono fun _ _ h => Outside.of_deletes h)
    fun _ => outside_pure _

theorem outside_transfer (hk : k.Honest) (srcRoot : Root) (name : Name) (dest : Root)
    (target : Name) (removeSource : Bool) (hfree : k.Free w.fs (dest.dir ++ [target])) :
    (transfer k rep srcRoot name dest target removeSource).wp
      (fun _ w' => Outside dest.dir w w') (fun _ w' => Outside dest.dir w w') w := by
  simp only [transfer, Act.wp_ite, Act.wp_bind, Act.wp_attempt]
  refine ⟨fun _ => ?_, fun _ => (outside_copyOver _ _ _ _ _).wp w⟩
  refine Act.wp_mono (renameTo_free hk srcRoot dest name target hfree) ?_ ?_
  · rintro ⟨⟩ w' ⟨hm, -, -⟩
    have ho := Outside.of_moved hm (List.prefix_append dest.dir [target])
    simp only [countMoved, Act.wp_bind]
    exact Act.wp_mono ((looks_measure _).wp w') (fun _ _ h => ho.trans (Outside.of_fs h.1))
      (fun _ _ h => ho.trans (Outside.of_fs h.1))
  · rintro e w' ⟨hl, -⟩
    have ho : Outside dest.dir w w' := Outside.of_fs hl.1
    split
    · next heq => cases heq
    · exact Act.wp_mono ((outside_copyOver _ _ _ _ _).wp w') (fun _ _ h => ho.trans h)
        (fun _ _ h => ho.trans h)
    · exact ho

theorem outside_runItem (hk : k.Honest) (dest : Root) (destDir : PathBuf) {conflict : Conflict}
    (hc : conflict ≠ .replace) (removeSource : Bool) (item : PathBuf × Option Name) :
    Act.Stays (Outside dest.dir) (runItem k rep dest destDir conflict removeSource item) := by
  refine outside_bind (outside_looks (looks_split _)) fun r => ?_
  refine outside_bind (outside_looks (looks_metadata _ _)) fun st => ?_
  refine outside_bind (outside_looks (looks_holdsDest _ _ _)) fun inside => ?_
  refine Act.Stays.ite (fun _ _ => Outside.of_fs rfl) fun _ => Act.Stays.of_wp fun w => ?_
  simp only [Act.wp_bind]
  refine Act.wp_mono (resolveConflict_spec dest _ item.1 hc w) ?_ (fun _ _ hl => Outside.of_fs hl.1)
  rintro (_ | target) w₁ ⟨hfs, -, -, htarget⟩
  · exact Outside.of_fs hfs
  · simp only [Act.wp_bind, wp_noteRenamed]
    have ho : Outside dest.dir w w₁ := Outside.of_fs hfs
    exact Act.wp_mono (outside_transfer hk r.1 r.2 dest target removeSource
      (by rw [hfs]; exact htarget.1)) (fun _ _ h => ho.trans h) (fun _ _ h => ho.trans h)

variable (rep) in
theorem outside_run (hk : k.Honest) (sources : List PathBuf) (names : List (Option Bytes))
    (destDir : PathBuf) {conflict : Conflict} (hc : conflict ≠ .replace) (removeSource : Bool)
    (hF : ∀ d, k.resolve w.fs destDir = .ok d → d = F) :
    (run k rep sources names destDir conflict removeSource).wp
      (fun _ w' => Outside F w w') (fun _ w' => Outside F w w') w := by
  simp only [run, Act.wp_ite, Act.wp_bind, Act.wp_pure]
  refine ⟨fun _ => Outside.of_fs rfl, fun _ => ?_⟩
  refine Act.wp_mono (prepare_spec sources names destDir w) ?_ (fun _ _ hl => Outside.of_fs hl.1)
  rintro ⟨dest, items⟩ w₁ ⟨hfs, -, -, hres, -⟩
  obtain rfl := hF _ hres
  have ho : Outside dest.dir w w₁ := Outside.of_fs hfs
  have hloop : Act.Stays (Outside dest.dir)
      (Act.each .continue (runItem k rep dest destDir conflict removeSource) items) :=
    Act.Stays.each (R := Outside dest.dir) (fun _ => Outside.of_fs rfl)
      (fun _ _ _ => Outside.trans) (outside_runItem hk dest destDir hc removeSource) items
  refine Act.wp_mono (hloop.wp w₁) (fun flow w₂ h₂ => ?_) (fun _ _ h => ho.trans h)
  simp only [endJob, Act.wp_bind, Act.wp_ite, Act.wp_get, Act.wp_pure, wp_setOut]
  exact ⟨fun _ => ho.trans h₂, fun _ => ho.trans h₂⟩

end Outside

/-- The new folder: its path, and the place it was made at, which was free. -/
theorem createFolder_spec (dir : PathBuf) (name : Bytes) :
    (Ops.create k dir name .folder).wp
      (fun folder w' => ∃ d target mode, k.resolve w.fs dir = .ok d ∧ folder = dir.join target ∧
        w.fs.get (d ++ [target]) = none ∧ w'.fs.get (d ++ [target]) = some (.dir mode .owner) ∧
        Adds (d ++ [target]) w w')
      (fun _ _ => True) w := by
  cases hn : validateName name with
  | error e => simp only [Ops.create, hn, Act.lift_error, Act.wp_bind, Act.wp_fail]
  | ok new =>
    simp only [Ops.create, hn, Act.lift_ok, pure_bind, Act.wp_bind, Act.wp_pure, createItem]
    refine Act.wp_mono (Root.open_spec dir w) ?_ (fun _ _ _ => trivial)
    rintro root w₁ ⟨rfl, hpath, hres, -⟩
    refine Act.wp_mono (uniqueName_spec root new w.tick) ?_ (fun _ _ _ => trivial)
    rintro target w₂ ⟨h₂, -, -⟩
    refine Act.wp_mono (Root.mkdir_spec root target _ false w₂) ?_ (fun _ _ _ => trivial)
    rintro _ w₃ (⟨t, rfl, -, hfree, hx⟩ | ⟨h, -⟩)
    · have hfs : w₂.fs = w.fs := h₂.1
      rw [hfs] at hfree
      refine ⟨root.dir, target, k.dirMode 0o755, hres, by rw [Root.displayPath, hpath]; rfl, hfree, ?_, ?_⟩
      · exact (hx _).trans (if_pos rfl)
      · refine Tree.Grows.of_touches (fun x hne => ?_) hfree
        rw [World.turn_fs, hx x, if_neg hne, hfs]
    · simp at h

theorem folderWithSelection_keeps (hk : k.Honest) (sources : List PathBuf) (destDir : PathBuf)
    (name : Bytes) (h : Holds x nd w) :
    (∃ p ∈ (Command.folderWithSelection sources destDir name).moved k rep w, p <+: x) ∨
      KeepsNode x nd (Ops.folderWithSelection k rep sources destDir name) w := by
  unfold folderWithSelection
  split
  · exact Or.inr h
  have hkeep := create_keeps (k := k) destDir name .folder h
  rcases hc : Ops.create k destDir name .folder w with ⟨e | folder, w₁⟩
  · simp only [KeepsNode, Act.wp_bind]
    exact Or.inr (Act.wp_of_error hc (Act.wp_error hkeep hc))
  have hkb : Conflict.keepBoth ≠ .replace := by simp
  rcases run_keeps_move rep hk sources [] folder hkb (Act.wp_ok hkeep hc) with hmoved | hmove
  · left
    simpa only [Command.moved, hc] using hmoved
  right
  obtain ⟨d, target, mode, hres, rfl, hfree, hdir, hadds⟩ := Act.wp_ok (createFolder_spec destDir name) hc
  have ho₁ : Outside (d ++ [target]) w w₁ := Outside.of_adds hadds List.prefix_rfl
  -- the folder's path leads to the folder, in the state after the move as well
  have hopen : ∀ e, k.resolve w₁.fs (destDir.join target) = .ok e → e = d ++ [target] := by
    intro e he
    obtain ⟨d', hd', hjoin⟩ := Kernel.resolve_join (Kernel.resolve_ne_nil hres) he
    obtain rfl := (Kernel.resolve_agree (ho₁.agree hfree) (fun _ _ h _ => h) hres hd').1
    exact hjoin (by simp [hdir])
  have hout := outside_run rep hk sources [] (destDir.join target) hkb true hopen
  simp only [KeepsNode, Act.wp_bind, Act.wp_attempt]
  refine Act.wp_of_ok hc (Act.wp_mono (Act.wp_and hmove hout) (fun _ _ h => h.1) ?_)
  rintro e w₂ ⟨h₂, ho₂⟩
  refine Act.wp_mono (split_spec _ w₂) ?_ (fun _ _ hl => h₂.of_looks hl)
  rintro ⟨root, leaf⟩ w₃ ⟨h₃, hplace, -⟩
  obtain ⟨d', hd', hF⟩ := Kernel.place_join hplace
  obtain rfl := (Kernel.resolve_agree ((ho₁.trans ho₂).agree hfree) (fun _ _ h _ => h) hres hd').1
  have hx : x ≠ root.dir ++ [leaf] := by
    rintro rfl
    rw [Holds, hF, hfree] at h
    simp at h
  have h₃ := h₂.of_looks h₃
  refine Act.wp_mono (Root.remove_spec root leaf true w₃) ?_ ?_
  · rintro _ w' ⟨t, rfl, -, -, hget⟩
    exact (hget x).trans ((if_neg hx).trans h₃)
  · rintro _ w' rfl
    exact h₃

/-! ## Any sequence of commands -/

variable (rep) in
/-- **One command without replace** keeps every node that is not at or below the place of a source
it moves, however it ends. -/
theorem exec_keeps (hk : k.Honest) (c : Command) (hc : c.Gentle) (h : Holds x nd w) :
    (∃ p ∈ c.moved k rep w, p <+: x) ∨ Holds x nd (c.exec k rep w).2 := by
  cases c with
  | copy sources names destDir conflict =>
    exact Or.inr (Act.wp_state (keepsNode_exec (run_keeps_copy hk sources names destDir hc h)))
  | move sources names destDir conflict =>
    exact (run_keeps_move rep hk sources names destDir hc h).imp_right fun h =>
      Act.wp_state (keepsNode_exec h)
  | rename path newName conflict =>
    refine or_iff_not_imp_left.2 fun hx => Act.wp_state (keepsNode_exec ?_)
    exact rename_keeps hk path newName hc
      (fun p hp hpx => hx ⟨p, Option.mem_toList.2 hp, hpx⟩) h
  | duplicate paths => exact Or.inr (Act.wp_state (keepsNode_exec (duplicate_keeps paths h)))
  | create dir name kind => exact Or.inr (Act.wp_state (keepsNode_exec (create_keeps dir name kind h)))
  | makeShortcut target destDir name =>
    exact Or.inr (Act.wp_state (keepsNode_exec (makeShortcut_keeps target destDir name h)))
  | folderWithSelection sources destDir name =>
    exact (folderWithSelection_keeps hk sources destDir name h).imp_right fun h =>
      Act.wp_state (keepsNode_exec h)

end Keeps

/-- **Nothing but replace overwrites.** Over any sequence of commands that were not asked to
replace, each ending well or with an error, a node stays at its path with its contents and kind,
unless it is at or below the place of a source that one of the commands moves or renames. -/
theorem nothing_overwrites {k : Kernel} (hk : k.Honest) (steps : List (Reporter × Command))
    (hgentle : ∀ step ∈ steps, step.2.Gentle) (w : World) (x : Path) (nd : Node)
    (hx : w.fs.get x = some nd) :
    (∃ p ∈ movedIn k steps w, p <+: x) ∨ (after k steps w).fs.get x = some nd := by
  induction steps generalizing w with
  | nil => exact Or.inr hx
  | cons step steps ih =>
    obtain ⟨rep, c⟩ := step
    rcases exec_keeps rep hk c (hgentle _ List.mem_cons_self) hx with ⟨p, hp, hpx⟩ | h
    · exact Or.inl ⟨p, List.mem_append_left _ hp, hpx⟩
    · rcases ih (fun step hstep => hgentle step (List.mem_cons_of_mem _ hstep)) _ h with
        ⟨p, hp, hpx⟩ | h
      · exact Or.inl ⟨p, List.mem_append_right _ hp, hpx⟩
      · exact Or.inr h

/-- Two folders that hold a file of one name each. -/
def twoFolders : World := .ofList
  [(Path.of ["from"], .dir 0o755 .owner), (Path.of ["from", "a.txt"], .file 0o644 .owner [1]),
    (Path.of ["to"], .dir 0o755 .owner), (Path.of ["to", "a.txt"], .file 0o644 .owner [2])]

/-- One file is moved over, and a new one is made, under names that are taken. -/
def takenNames : List (Reporter × Command) :=
  [(silent, .move [PathBuf.ofPath (Path.of ["from", "a.txt"])] []
      (PathBuf.ofPath (Path.of ["to"])) .keepBoth),
    (silent, .create (PathBuf.ofPath (Path.of ["to"])) (text "a.txt") .file)]

set_option maxRecDepth 4000 in
theorem nothing_overwrites_takenNames :
    (after (Kernel.calm 4) takenNames twoFolders).fs.get (Path.of ["to", "a.txt"]) =
      some (.file 0o644 .owner [2]) :=
  (nothing_overwrites (Kernel.honest_calm 4) takenNames (by simp [takenNames, Command.Gentle])
    twoFolders _ _ (by decide)).resolve_left (by decide)

end Aurade.Ops
