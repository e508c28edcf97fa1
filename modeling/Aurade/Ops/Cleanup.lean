import Aurade.Ops.Compress
import Mathlib.Data.List.Nodup
import Mathlib.Data.List.Infix

/-!
# What is left of a compress that fails

`compress` removes the archive it was making, and `split_file` the parts. Until the first removal a
run has changed only what it made itself (`Whole`); each removal then takes one of the files that
are left, or is refused (`Sweep`). What the two functions miss is the removal of the archive behind
the parts: when it is refused the parts stay, and nobody asks for theirs.
-/

namespace Aurade.Ops.Compress

open Fs

/-- The run made the file. -/
def Made (h : List (Call × Answer)) (x : Path) : Prop := ∃ a, (Call.create x, a) ∈ h ∧ a.refusal = none

/-- Every node is as it was, and no other is there. -/
def Same (t t' : Tree) : Prop := ∀ x, t'.get x = t.get x

/-- The parts are there and new, and nothing else has changed. -/
def OnlyParts (t : Tree) (parts : List Path) (t' : Tree) : Prop :=
  (∀ x ∈ parts, t.get x = none ∧ (t'.get x).isSome) ∧ ∀ x ∉ parts, t'.get x = t.get x

/-- A compress that fails or is cancelled leaves the tree as it was, and one that writes parts leaves
only the parts. -/
def Keeps (t : Tree) (r : Except Error Done) (t' : Tree) : Prop :=
  match r with
  | .error _ => Same t t'
  | .ok done => (done.cancelled = true → Same t t') ∧
      (done.parts ≠ [] → OnlyParts t done.parts t')

/-- A removal of a file that the run made is let through. -/
def Lets (env : Surroundings Call Answer) (before : List (Call × Answer)) (c : Call) : Prop :=
  ∀ p, c = .remove p → Made before p → (env before c).refusal = none

/-- All such removals are. -/
def Clears (env : Surroundings Call Answer) (s : State) : Prop := AllCalls (Lets env) s.history

/-- What keeps a name from being looked up keeps it from being made or removed. -/
def Honest (env : Surroundings Call Answer) : Prop :=
  ∀ h h' p, (env h (.lookup p)).refusal ≠ none → h <+: h' →
    (env h' (.create p)).refusal ≠ none ∧ (env h' (.remove p)).refusal ≠ none

/-- A run starts with nothing asked and nothing reported. -/
def start (t : Tree) : State := { vars := { tree := t } }

variable {m : Setup} {t₀ : Tree} {s s' : State} {h h' : List (Call × Answer)} {x : Path}
  {W O : Path → Prop} {α β : Type} {ε : Type}

theorem Made.mono (hx : Made h x) (hp : h <+: h') : Made h' x := by
  obtain ⟨a, ha, hr⟩ := hx
  exact ⟨a, hp.subset ha, hr⟩

theorem made_concat {c : Call} {a : Answer} :
    Made (h ++ [(c, a)]) x ↔ Made h x ∨ c = .create x ∧ a.refusal = none := by
  constructor
  · rintro ⟨b, hb, hr⟩
    obtain hb | hb := List.mem_append.1 hb
    · exact .inl ⟨b, hb, hr⟩
    · obtain ⟨rfl, rfl⟩ := Prod.mk.inj (List.mem_singleton.1 hb)
      exact .inr ⟨rfl, hr⟩
  · rintro (⟨b, hb, hr⟩ | ⟨rfl, hr⟩)
    · exact ⟨b, List.mem_append_left _ hb, hr⟩
    · exact ⟨a, List.mem_append_right _ (List.mem_singleton.2 rfl), hr⟩

/-! ## Until something is removed -/

variable (m t₀) in
/-- The name was free, or nothing can be done under it. -/
def Vacant (h : List (Call × Answer)) (x : Path) : Prop :=
  t₀.get x = none ∨ ∀ h', h <+: h' →
    (m.env h' (.create x)).refusal ≠ none ∧ (m.env h' (.remove x)).refusal ≠ none

theorem Vacant.mono (hx : Vacant m t₀ h x) (hp : h <+: h') : Vacant m t₀ h' x :=
  hx.imp id fun hx h'' hp' => hx h'' (hp.trans hp')

variable (t₀ W) in
/-- Nothing but what the run made is other than it was, and all of that is there: files of `W`. -/
structure Whole (s : State) : Prop where
  kept : ∀ x, ¬ Made s.history x → s.vars.tree.get x = t₀.get x
  free : ∀ x, Made s.history x → t₀.get x = none
  there : ∀ x, Made s.history x → ∃ nd, s.vars.tree.get x = some nd ∧ nd.isDir = false
  only : ∀ x, Made s.history x → W x
  unremoved : ∀ e ∈ s.history, ∀ p, e.1 ≠ .remove p

theorem Whole.widen {W' : Path → Prop} (hs : Whole t₀ W s) (hW : ∀ x, W x → W' x) :
    Whole t₀ W' s := { hs with only := fun x hx => hW x (hs.only x hx) }

/-- Where nothing was removed no removal was refused. -/
theorem Whole.clears (hs : Whole t₀ W s) : Clears m.env s := fun before call after hsplit p hp _ =>
  absurd hp (hs.unremoved call (hsplit ▸ by simp) p)

theorem whole_start (t : Tree) : Whole t W (start t) where
  kept x _ := rfl
  free x hx := by obtain ⟨a, ha, -⟩ := hx; cases ha
  there x hx := by obtain ⟨a, ha, -⟩ := hx; cases ha
  only x hx := by obtain ⟨a, ha, -⟩ := hx; cases ha
  unremoved e he := by cases he

variable (t₀ W O) in
/-- What is done to the tree and the files of `O`, which the run has made. -/
def Goes (s s' : State) : Prop := (∀ x, O x → Made s.history x) → Whole t₀ W s →
  s.history <+: s'.history ∧ Whole t₀ W s'

theorem Goes.refl (s : State) : Goes t₀ W O s s := fun _ hs => ⟨List.prefix_rfl, hs⟩

theorem Goes.trans {a b c : State} (hab : Goes t₀ W O a b) (hbc : Goes t₀ W O b c) :
    Goes t₀ W O a c := fun hO ha =>
  have hb := hab hO ha
  have hc := hbc (fun x hx => (hO x hx).mono hb.1) hb.2
  ⟨hb.1.trans hc.1, hc.2⟩

/-- A part of a run that goes on so. -/
abbrev Going (t₀ : Tree) (W O : Path → Prop) (act : Act State ε α) : Prop :=
  Act.Stays (Goes t₀ W O) act

theorem going_bind {act : Act State ε α} {f : α → Act State ε β} (ha : Going t₀ W O act)
    (hf : ∀ a, Going t₀ W O (f a)) : Going t₀ W O (act >>= f) :=
  Act.Stays.bind (R := Goes t₀ W O) (fun _ _ _ => Goes.trans) ha hf

theorem going_pure (a : α) : Going t₀ W O (pure a : Act State ε α) := Act.Stays.pure Goes.refl a

theorem going_fail (e : ε) : Going t₀ W O (Act.fail e : Act State ε α) := Act.Stays.fail Goes.refl e

theorem going_lift (r : Except ε α) : Going t₀ W O (Act.lift r : Act State ε α) := Goes.refl

theorem going_vars : Going t₀ W O (Act.vars : Act State ε Vars) := Goes.refl

/-- A call that makes nothing and removes nothing. -/
def Call.harmless : Call → Bool
  | .create _ | .remove _ => false
  | _ => true

theorem Whole.ask (hs : Whole t₀ W s) {c : Call} {a : Answer} (hc : c.harmless = true) :
    Whole t₀ W { s with history := s.history ++ [(c, a)] } := by
  have hmade : ∀ x, Made (s.history ++ [(c, a)]) x ↔ Made s.history x := fun x => by
    rw [made_concat]
    refine or_iff_left fun ⟨hx, _⟩ => ?_
    rw [hx] at hc
    cases hc
  exact {
    kept := fun x hx => hs.kept x fun h => hx ((hmade x).2 h)
    free := fun x hx => hs.free x ((hmade x).1 hx)
    there := fun x hx => hs.there x ((hmade x).1 hx)
    only := fun x hx => hs.only x ((hmade x).1 hx)
    unremoved := fun e he p hp => by
      obtain he | he := List.mem_append.1 he
      · exact hs.unremoved e he p hp
      · rw [List.mem_singleton.1 he] at hp
        rw [show c = .remove p from hp] at hc
        cases hc }

theorem going_ask {c : Call} (hc : c.harmless = true) :
    Going t₀ W O (Act.ask m.env c : Act State ε Answer) := fun _ _ hs =>
  ⟨List.prefix_append _ _, hs.ask hc⟩

theorem going_query {c : Call} (hc : c.harmless = true) (f : Answer → Tree → Except Errno α) :
    Going t₀ W O (query m c f) := by
  refine going_bind going_vars fun v => going_bind (going_ask hc) fun a => ?_
  cases a.refusal with
  | some e => exact going_fail e
  | none => exact going_lift _

theorem going_lookup (p : Path) : Going t₀ W O (lookup m p) := going_query rfl _

theorem going_at {p : Path} {act : Act State Errno α} (h : Going t₀ W O act) :
    Going t₀ W O (at_ p act) := h.mapErr _

theorem going_isDir (p : Path) : Going t₀ W O (isDir m p) := by
  refine going_bind (going_query rfl _).attempt fun r => ?_
  cases r <;> exact going_pure _

theorem going_size (p : Path) : Going t₀ W O (size m p) := by
  refine going_bind (going_lookup p).attempt fun r => ?_
  cases r <;> exact going_pure _

/-- What a file that the run made holds has changed. -/
theorem Whole.update (hs : Whole t₀ W s) {p : Path} (hp : Made s.history p) (bytes : Bytes) :
    Whole t₀ W { s with vars := { s.vars with
      tree := s.vars.tree.update p (Node.setBytes bytes) (Node.isDir_setBytes bytes) } } where
  kept x hx := by
    refine (PathTree.get_update s.vars.tree p _ (Node.isDir_setBytes bytes) x).trans ?_
    have hne : x ≠ p := fun h => hx (by rw [h]; exact hp)
    rw [if_neg hne]
    exact hs.kept x hx
  free := hs.free
  there x hx := by
    have hget := PathTree.get_update s.vars.tree p _ (Node.isDir_setBytes bytes) x
    obtain ⟨nd, hnd, hdir⟩ := hs.there x hx
    rw [hnd] at hget
    split_ifs at hget
    · exact ⟨_, hget, (Node.isDir_setBytes bytes nd).trans hdir⟩
    · exact ⟨nd, hget, hdir⟩
  only := hs.only
  unremoved := hs.unremoved

theorem going_write {p : Path} (hp : O p) (content : Bytes) : Going t₀ W O (write m p content) := by
  refine Act.Stays.of_wp fun s => ?_
  simp only [write, Act.wp_bind, Act.wp_ask]
  have hasked : ∀ {a}, Whole t₀ W s → Whole t₀ W { s with history := s.history ++ [(.write p, a)] } :=
    fun hs => hs.ask rfl
  have hmade : ∀ {a}, (∀ x, O x → Made s.history x) → Made (s.history ++ [(Call.write p, a)]) p :=
    fun hO => (hO p hp).mono (List.prefix_append _ _)
  split
  · exact fun hO hs => ⟨List.prefix_append _ _, (hasked hs).update (hmade hO) _⟩
  · exact fun hO hs => ⟨List.prefix_append _ _, (hasked hs).update (hmade hO) _⟩

/-! ## The parts of the run -/

theorem going_report (rep : Reporter) (progress : Progress) :
    Going t₀ W O (report rep progress) := by
  refine going_bind (fun s _ hs => ⟨List.prefix_rfl, ?_⟩) fun _ => going_bind going_vars fun v =>
    going_pure _
  exact ⟨hs.kept, hs.free, hs.there, hs.only, hs.unremoved⟩

theorem going_collect {f : α → Act State Error (List β)} (h : ∀ x, Going t₀ W O (f x))
    (xs : List α) : Going t₀ W O (collect f xs) := by
  induction xs with
  | nil => exact going_pure _
  | cons x xs ih => exact going_bind (h x) fun ys => going_bind ih fun rest => going_pure _

theorem going_visit {below : Option (Path → Act State Error (List Path))}
    (h : ∀ f, below = some f → ∀ p, Going t₀ W O (f p)) (path : Path) :
    Going t₀ W O (visit m below path) := by
  refine going_bind (going_at (going_lookup path)) fun st => ?_
  split
  · cases below with
    | none => exact going_fail _
    | some f =>
      refine going_bind (going_at (going_query rfl _)) fun names => ?_
      exact going_bind (going_collect (fun n => h f rfl _) names) fun inside => going_pure _
  · exact going_pure _
  · exact going_pure _

theorem going_walk (n : ℕ) (path : Path) : Going t₀ W O (walk m n path) := by
  induction n generalizing path with
  | zero => exact going_visit (fun f hf => (by cases hf)) path
  | succ n ih =>
    refine going_visit (fun f hf p => ?_) path
    obtain rfl := Option.some.inj hf
    exact ih p

theorem going_total (ps : List Path) : Going t₀ W O (total m ps) := by
  induction ps with
  | nil => exact going_pure _
  | cons p ps ih => exact going_bind (going_size p) fun _ => going_bind ih fun _ => going_pure _

theorem going_plan (sources : List Path) : Going t₀ W O (plan m sources) :=
  going_bind (going_collect (going_walk _) sources) fun paths =>
    going_bind (going_total paths) fun _ => going_pure _

theorem going_counted (rep : Reporter) (progress : Progress) (done : Done) (path : Path) :
    Going t₀ W O (counted m rep progress done path) :=
  going_bind (going_size path) fun _ => going_bind (going_report rep _) fun _ => going_pure _

theorem going_entries {base : Path} {rep : Reporter}
    {entry : Path → Bytes → List Item → Act State Error (List Item)}
    (h : ∀ p name items, Going t₀ W O (entry p name items)) (paths : List Path)
    (progress : Progress) (done : Done) (items : List Item) :
    Going t₀ W O (entries m base rep entry paths progress done items) := by
  induction paths generalizing progress done items with
  | nil => exact going_pure _
  | cons path paths ih =>
    refine Act.Stays.ite (fun _ => ih _ _ _) fun _ => going_bind (going_report rep _) fun flow => ?_
    refine Act.Stays.ite (fun _ => going_pure _) fun _ => going_bind (h _ _ _) fun items => ?_
    exact going_bind (going_counted rep _ _ _) fun r => ih _ _ _

section

variable {format : Format} {options : Options} {out : Path}

theorem going_save (hout : O out) (items : List Item) (finish : Bool) :
    Going t₀ W O (save m format options out items finish) := by
  rw [save]
  split
  · exact going_fail _
  · exact (going_write hout _).mapErr _

theorem going_openFile (p : Path) : Going t₀ W O (openFile m p) := going_query rfl _

theorem going_read (p : Path) (pos : ℕ) (len : Option ℕ) : Going t₀ W O (read m p pos len) :=
  going_query rfl _

theorem going_zipEntry (hout : O out) (path : Path) (name : Bytes) (items : List Item) :
    Going t₀ W O (zipEntry m format options out path name items) := by
  refine going_bind (going_isDir path) fun dir => Act.Stays.ite (fun _ => ?_) fun _ => ?_
  · exact going_bind ((going_save hout _ _).mapErr _) fun _ => going_pure _
  · refine going_bind ((going_save hout _ _).mapErr _) fun _ => ?_
    refine going_bind (going_at (going_openFile path)) fun _ => ?_
    refine going_bind (going_at (going_read path _ _)) fun content => ?_
    exact going_bind ((going_save hout _ _).mapErr _) fun _ => going_pure _

theorem going_sevenZipEntry (hout : O out) (path : Path) (name : Bytes) (items : List Item) :
    Going t₀ W O (sevenZipEntry m format options out path name items) := by
  refine going_bind (going_isDir path) fun dir => Act.Stays.ite (fun _ => ?_) fun _ => ?_
  · exact going_bind ((going_save hout _ _).mapErr _) fun _ => going_pure _
  · refine going_bind (going_at (going_openFile path)) fun _ => ?_
    refine going_bind ((going_read path _ _).mapErr _) fun content => ?_
    exact going_bind ((going_save hout _ _).mapErr _) fun _ => going_pure _

theorem going_tarEntry (hout : O out) (path : Path) (name : Bytes) (items : List Item) :
    Going t₀ W O (tarEntry m format options out path name items) := by
  refine going_bind (going_isDir path) fun dir => Act.Stays.ite (fun _ => ?_) fun _ => ?_
  · exact going_bind ((going_save hout _ _).mapErr _) fun _ => going_pure _
  · refine going_bind (going_at (going_openFile path)) fun _ => ?_
    refine going_bind (going_at (going_read path _ _)) fun content => ?_
    exact going_bind ((going_save hout _ _).mapErr _) fun _ => going_pure _

end

/-! ## Making a file -/

/-- The state goes on from `s`, with files of `W` only. -/
abbrev On (t₀ : Tree) (W : Path → Prop) (s s' : State) : Prop :=
  s.history <+: s'.history ∧ Whole t₀ W s'

theorem Going.wp {act : Act State ε α} (h : Going t₀ W O act) (hO : ∀ x, O x → Made s.history x)
    (hs : Whole t₀ W s) : act.wp (fun _ s' => On t₀ W s s') (fun _ s' => On t₀ W s s') s :=
  Act.wp_mono (Act.Stays.wp h s) (fun _ _ h => h hO hs) fun _ _ h => h hO hs

variable {dir : Path} {name : Name}

theorem wp_change {c : Call} {f : Tree → Except Errno Tree} {Q : Unit → State → Prop}
    {E : Errno → State → Prop} (herr : ∀ e, f s.vars.tree = .error e → E e s)
    (hrefused : ∀ e t, f s.vars.tree = .ok t → (m.env s.history c).refusal = some e →
      E e { s with history := s.history ++ [(c, m.env s.history c)] })
    (hok : ∀ t, f s.vars.tree = .ok t → (m.env s.history c).refusal = none →
      Q () { history := s.history ++ [(c, m.env s.history c)], vars := { s.vars with tree := t } }) :
    (change m c f).wp Q E s := by
  rw [change, Act.wp_bind]
  show ((Act.lift (f s.vars.tree)) >>= _ : Act State Errno Unit).wp Q E s
  cases hf : f s.vars.tree with
  | error e => exact herr e hf
  | ok t =>
    rw [Act.lift_ok, pure_bind, Act.wp_bind, Act.wp_ask]
    cases ha : (m.env s.history c).refusal with
    | some e => exact hrefused e t hf ha
    | none => exact hok t hf ha

/-- A file is made only where none was. -/
theorem create_wp (hs : Whole t₀ W s) (hW : W (dir ++ [name]))
    (hvacant : Vacant m t₀ s.history (dir ++ [name])) :
    (create m dir name).wp (fun _ s' => On t₀ W s s' ∧ Made s'.history (dir ++ [name]))
      (fun _ s' => On t₀ W s s') s := by
  have hmade : ∀ x, Made (s.history ++
      [(Call.create (dir ++ [name]), m.env s.history (.create (dir ++ [name])))]) x →
      (m.env s.history (.create (dir ++ [name]))).refusal ≠ none → Made s.history x := fun x hx hr =>
    (made_concat.1 hx).resolve_right fun h => hr h.2
  have hunremoved : ∀ e ∈ s.history ++
      [(Call.create (dir ++ [name]), m.env s.history (.create (dir ++ [name])))],
      ∀ p, e.1 ≠ .remove p := fun e he p hp => by
    obtain he | he := List.mem_append.1 he
    · exact hs.unremoved e he p hp
    · rw [List.mem_singleton.1 he] at hp
      cases hp
  refine wp_change (fun e _ => ⟨List.prefix_rfl, hs⟩) (fun e t _ hr => ?_) fun t ht hr => ?_
  · have hne : (m.env s.history (.create (dir ++ [name]))).refusal ≠ none := by rw [hr]; exact nofun
    exact ⟨List.prefix_append _ _, {
      kept := fun x hx => hs.kept x fun h => hx (h.mono (List.prefix_append _ _))
      free := fun x hx => hs.free x (hmade x hx hne)
      there := fun x hx => hs.there x (hmade x hx hne)
      only := fun x hx => hs.only x (hmade x hx hne)
      unremoved := hunremoved }⟩
  · have hfree : t₀.get (dir ++ [name]) = none :=
      hvacant.resolve_right fun h => (h s.history List.prefix_rfl).1 hr
    obtain ⟨hsome, hget⟩ : (∃ nd, t.get (dir ++ [name]) = some nd ∧ nd.isDir = false) ∧
        ∀ x, x ≠ dir ++ [name] → t.get x = s.vars.tree.get x := by
      split at ht
      · cases ht
      · cases ht
      · obtain ⟨-, -, hx⟩ := Tree.add_ok ht
        exact ⟨⟨_, by rw [hx, if_pos rfl], rfl⟩, fun x hne => by rw [hx, if_neg hne]⟩
      next nd _ hnotdir hnd =>
        obtain ⟨-, hx⟩ := Tree.modify_ok ht
        refine ⟨⟨nd.setBytes [], by rw [hx, if_pos rfl, hnd]; rfl, ?_⟩,
          fun x hne => by rw [hx, if_neg hne]⟩
        cases nd with
        | dir mode who => exact absurd rfl (hnotdir mode who)
        | _ => rfl
    have hiff : ∀ x, Made (s.history ++
        [(Call.create (dir ++ [name]), m.env s.history (.create (dir ++ [name])))]) x →
        x ≠ dir ++ [name] → Made s.history x := fun x hx hne =>
      (made_concat.1 hx).resolve_right fun h => hne (Call.create.inj h.1).symm
    refine ⟨⟨List.prefix_append _ _, ?_⟩, made_concat.2 (.inr ⟨rfl, hr⟩)⟩
    refine {
      kept := fun x hx => ?_
      free := fun x hx => ?_
      there := fun x hx => ?_
      only := fun x hx => ?_
      unremoved := hunremoved }
    · have hne : x ≠ dir ++ [name] := by
        rintro rfl
        exact hx (made_concat.2 (.inr ⟨rfl, hr⟩))
      exact (hget x hne).trans (hs.kept x fun h => hx (h.mono (List.prefix_append _ _)))
    · by_cases hne : x = dir ++ [name]
      · rw [hne]
        exact hfree
      · exact hs.free x (hiff x hx hne)
    · by_cases hne : x = dir ++ [name]
      · rw [hne]
        exact hsome
      · obtain ⟨nd, hnd, hdir⟩ := hs.there x (hiff x hx hne)
        exact ⟨nd, (hget x hne).trans hnd, hdir⟩
    · by_cases hne : x = dir ++ [name]
      · rw [hne]
        exact hW
      · exact hs.only x (hiff x hx hne)

/-- The path and no other. -/
def Just (p x : Path) : Prop := x = p

/-- What follows the making of the archive writes to no other file. -/
theorem create_then (hs : Whole t₀ W s) (hW : W (dir ++ [name]))
    (hvacant : Vacant m t₀ s.history (dir ++ [name])) (f : Errno → Error)
    {rest : Act State Error α} (hrest : Going t₀ W (Just (dir ++ [name])) rest) :
    ((create m dir name).mapErr f >>= fun _ => rest).wp
      (fun _ s' => On t₀ W s s' ∧ Made s'.history (dir ++ [name]))
      (fun _ s' => On t₀ W s s') s := by
  rw [Act.wp_bind, Act.wp_mapErr]
  refine Act.wp_mono (create_wp hs hW hvacant) (fun _ s₁ h₁ => ?_) fun _ _ h => h
  obtain ⟨⟨hp, hs₁⟩, hmade⟩ := h₁
  refine Act.wp_mono (Going.wp hrest (fun x hx => by rw [show x = _ from hx]; exact hmade) hs₁) (fun _ _ h => ?_) fun _ _ h => ?_
  · exact ⟨⟨hp.trans h.1, h.2⟩, hmade.mono h.1⟩
  · exact ⟨hp.trans h.1, h.2⟩

theorem writeArchive_wp {format : Format} {options : Options} {base : Path} {p : Plan} {rep : Reporter}
    (hs : Whole t₀ W s) (hW : W (dir ++ [name])) (hvacant : Vacant m t₀ s.history (dir ++ [name])) :
    (writeArchive m format options base dir name p rep).wp
      (fun _ s' => On t₀ W s s' ∧ Made s'.history (dir ++ [name]))
      (fun _ s' => On t₀ W s s') s := by
  have hout : Just (dir ++ [name]) (dir ++ [name]) := rfl
  have hsave : ∀ f o items finish (g : Complaint → Error),
      Going t₀ W (Just (dir ++ [name])) ((save m f o (dir ++ [name]) items finish).mapErr g) :=
    fun f o items finish g => (going_save hout items finish).mapErr g
  have hzip : ∀ f o, (compressZip m f o base dir name p rep).wp
      (fun _ s' => On t₀ W s s' ∧ Made s'.history (dir ++ [name]))
      (fun _ s' => On t₀ W s s') s := fun f o =>
    create_then hs hW hvacant _ <| going_bind (going_entries (going_zipEntry hout) _ _ _ _) fun _ =>
      going_bind (hsave _ _ _ _ _) fun _ => going_pure _
  have hseven : ∀ f o, (compress7z m f o base dir name p rep).wp
      (fun _ s' => On t₀ W s s' ∧ Made s'.history (dir ++ [name]))
      (fun _ s' => On t₀ W s s') s := fun f o =>
    create_then hs hW hvacant _ <| going_bind (hsave _ _ _ _ _) fun _ =>
      going_bind (going_entries (going_sevenZipEntry hout) _ _ _ _) fun _ =>
      going_bind (hsave _ _ _ _ _) fun _ => going_pure _
  have htar : ∀ f o, (compressTar m f o base dir name p rep).wp
      (fun _ s' => On t₀ W s s' ∧ Made s'.history (dir ++ [name]))
      (fun _ s' => On t₀ W s s') s := fun f o =>
    create_then hs hW hvacant _ <| going_bind (hsave _ _ _ _ _) fun _ =>
      going_bind (going_entries (going_tarEntry hout) _ _ _ _) fun _ =>
      going_bind (hsave _ _ _ _ _) fun _ => going_pure _
  cases format with
  | zip => exact hzip _ _
  | sevenZip => exact hseven _ _
  | _ => exact htar _ _

/-! ## Removing -/

variable (m t₀) in
/-- The files of `rest` may still be there; of the others the run made, those are whose removal was
refused. -/
structure Sweep (rest : List Path) (s : State) : Prop where
  kept : ∀ x, ¬ Made s.history x → s.vars.tree.get x = t₀.get x
  free : ∀ x, Made s.history x → t₀.get x = none
  file : ∀ x, Made s.history x → ∀ nd, s.vars.tree.get x = some nd → nd.isDir = false
  gone : Clears m.env s → ∀ x, Made s.history x → x ∉ rest → s.vars.tree.get x = none
  stuck : ¬ Clears m.env s → ∃ x, Made s.history x ∧ x ∉ rest ∧ (s.vars.tree.get x).isSome

theorem Whole.sweep (hs : Whole t₀ W s) {rest : List Path} (hW : ∀ x, W x → x ∈ rest) :
    Sweep m t₀ rest s where
  kept := hs.kept
  free := hs.free
  file x hx nd hnd := by
    obtain ⟨nd', hnd', hdir⟩ := hs.there x hx
    rw [hnd] at hnd'
    rw [Option.some.inj hnd']
    exact hdir
  gone _ x hx hnot := absurd (hW x (hs.only x hx)) hnot
  stuck h := absurd hs.clears h

/-- Nothing more is removed: the tree is as it was exactly if no removal was refused. -/
theorem Sweep.same_iff (hs : Sweep m t₀ [] s) : Same t₀ s.vars.tree ↔ Clears m.env s := by
  constructor
  · intro hsame
    by_contra hclears
    obtain ⟨x, hmade, -, hthere⟩ := hs.stuck hclears
    rw [hsame x, hs.free x hmade] at hthere
    cases hthere
  · intro hclears x
    by_cases hx : Made s.history x
    · rw [hs.gone hclears x hx List.not_mem_nil, hs.free x hx]
    · exact hs.kept x hx

theorem made_remove {p : Path} {a : Answer} : Made (h ++ [(.remove p, a)]) x ↔ Made h x := by
  rw [made_concat]
  exact or_iff_left fun hx => by cases hx.1

/-- One more removal that was asked for. -/
theorem clears_remove {p : Path} {v : Vars} :
    Clears m.env ⟨h ++ [(.remove p, m.env h (.remove p))], v⟩ ↔
      AllCalls (Lets m.env) h ∧ (Made h p → (m.env h (.remove p)).refusal = none) := by
  rw [Clears, allCalls_append, allCalls_singleton]
  refine and_congr_right fun _ => ?_
  dsimp only
  rw [List.append_nil]
  exact ⟨fun hl hm => hl p rfl hm, fun hl q hq hm => by cases hq; exact hl hm⟩

/-- Nothing is below a file. -/
theorem names_of_file {t : Tree} {p : Path} {nd : Node} (hnd : t.get p = some nd)
    (hdir : nd.isDir = false) : t.names p = [] := by
  refine t.names_eq_nil_iff.2 fun r hr => ?_
  by_contra hthere
  have hbranch := t.isBranch_of_append hr (Option.isSome_iff_ne_none.2 hthere)
  obtain ⟨nd', hnd', hdir'⟩ := t.isBranch_iff.1 hbranch
  rw [hnd] at hnd'
  rw [← Option.some.inj hnd', hdir] at hdir'
  cases hdir'

/-- A removal that is asked for: the file is gone, or is one of those whose removal was refused. -/
theorem remove_wp {rest : List Path} (hs : Sweep m t₀ ((dir ++ [name]) :: rest) s)
    (hnot : dir ++ [name] ∉ rest) (hvacant : Vacant m t₀ s.history (dir ++ [name])) :
    (remove m dir name).wp (fun _ s' => s.history <+: s'.history ∧ Sweep m t₀ rest s')
      (fun _ s' => s.history <+: s'.history ∧ Sweep m t₀ rest s') s := by
  have hcons : ∀ {x}, x ∉ rest → x ≠ dir ++ [name] → x ∉ (dir ++ [name]) :: rest := fun hx hne =>
    List.not_mem_cons_of_ne_of_not_mem hne hx
  refine wp_change (fun e he => ⟨List.prefix_rfl, ?_⟩)
    (fun e t ht hr => ⟨List.prefix_append _ _, ?_⟩) fun t ht hr => ⟨List.prefix_append _ _, ?_⟩
  · -- the tree has no such file, or the run did not make it
    refine { hs with
      gone := fun hclears x hx hnotin => ?_
      stuck := fun hclears => ?_ }
    · by_cases hne : x = dir ++ [name]
      · subst hne
        by_contra hthere
        obtain ⟨nd, hnd⟩ := Option.ne_none_iff_exists'.1 hthere
        have hdir := hs.file _ hx nd hnd
        obtain ⟨t, ht⟩ := Tree.remove_eq_ok hnd (names_of_file hnd hdir)
        rw [hdir] at ht
        rw [ht] at he
        cases he
      · exact hs.gone hclears x hx (hcons hnotin hne)
    · obtain ⟨x, hx, hnotin, hthere⟩ := hs.stuck hclears
      exact ⟨x, hx, fun h => hnotin (List.mem_cons_of_mem _ h), hthere⟩
  · obtain ⟨⟨nd, hnd, -⟩, -, -⟩ := Tree.remove_ok ht
    refine {
      kept := fun x hx => hs.kept x fun h => hx (made_remove.2 h)
      free := fun x hx => hs.free x (made_remove.1 hx)
      file := fun x hx => hs.file x (made_remove.1 hx)
      gone := fun hclears x hx hnotin => ?_
      stuck := fun hclears => ?_ }
    · obtain ⟨hbefore, hgranted⟩ := clears_remove.1 hclears
      have hne : x ≠ dir ++ [name] := by
        rintro rfl
        rw [hgranted (made_remove.1 hx)] at hr
        cases hr
      exact hs.gone hbefore x (made_remove.1 hx) (hcons hnotin hne)
    · by_cases hmade : Made s.history (dir ++ [name])
      · exact ⟨_, made_remove.2 hmade, hnot, by rw [show s.vars.tree.get _ = _ from hnd]; rfl⟩
      · have hbefore : ¬ Clears m.env s := fun h =>
          hclears (clears_remove.2 ⟨h, fun hm => absurd hm hmade⟩)
        obtain ⟨x, hx, hnotin, hthere⟩ := hs.stuck hbefore
        exact ⟨x, made_remove.2 hx, fun h => hnotin (List.mem_cons_of_mem _ h), hthere⟩
  · obtain ⟨-, -, hget⟩ := Tree.remove_ok ht
    have hfree : t₀.get (dir ++ [name]) = none :=
      hvacant.resolve_right fun h => (h s.history List.prefix_rfl).2 hr
    have hother : ∀ x, x ≠ dir ++ [name] → t.get x = s.vars.tree.get x := fun x hne => by
      rw [hget, if_neg hne]
    refine {
      kept := fun x hx => ?_
      free := fun x hx => hs.free x (made_remove.1 hx)
      file := fun x hx nd hnd => ?_
      gone := fun hclears x hx hnotin => ?_
      stuck := fun hclears => ?_ }
    · by_cases hne : x = dir ++ [name]
      · rw [hne, hfree]
        exact (hget _).trans (if_pos rfl)
      · exact (hother x hne).trans (hs.kept x fun h => hx (made_remove.2 h))
    · by_cases hne : x = dir ++ [name]
      · rw [hne] at hnd
        cases ((hget _).trans (if_pos rfl)).symm.trans hnd
      · exact hs.file x (made_remove.1 hx) nd ((hother x hne).symm.trans hnd)
    · by_cases hne : x = dir ++ [name]
      · rw [hne]
        exact (hget _).trans (if_pos rfl)
      · have hbefore := (clears_remove.1 hclears).1
        exact (hother x hne).trans (hs.gone hbefore x (made_remove.1 hx) (hcons hnotin hne))
    · have hbefore : ¬ Clears m.env s := fun h => hclears (clears_remove.2 ⟨h, fun _ => hr⟩)
      obtain ⟨x, hx, hnotin, hthere⟩ := hs.stuck hbefore
      have hne : x ≠ dir ++ [name] := fun h => hnotin (h ▸ List.mem_cons_self)
      exact ⟨x, made_remove.2 hx, fun h => hnotin (List.mem_cons_of_mem _ h),
        (congrArg Option.isSome (hother x hne)).trans hthere⟩

theorem drop_wp {rest : List Path} (hs : Sweep m t₀ ((dir ++ [name]) :: rest) s)
    (hnot : dir ++ [name] ∉ rest) (hvacant : Vacant m t₀ s.history (dir ++ [name])) :
    (drop m dir name).wp (fun _ s' => s.history <+: s'.history ∧ Sweep m t₀ rest s')
      (fun _ _ => False) s := by
  rw [drop, Act.wp_map, Act.wp_attempt]
  exact remove_wp hs hnot hvacant

theorem dropAll_wp {rest : List Path} (names : List Name)
    (hs : Sweep m t₀ (names.map (dir ++ [·]) ++ rest) s)
    (hnodup : (names.map (dir ++ [·]) ++ rest).Nodup)
    (hvacant : ∀ n ∈ names, Vacant m t₀ s.history (dir ++ [n])) :
    (dropAll m dir names).wp (fun _ s' => s.history <+: s'.history ∧ Sweep m t₀ rest s')
      (fun _ _ => False) s := by
  induction names generalizing s with
  | nil => exact ⟨List.prefix_rfl, hs⟩
  | cons n names ih =>
    obtain ⟨hnot, hnodup⟩ := List.nodup_cons.1 hnodup
    rw [dropAll, Act.wp_bind]
    refine Act.wp_mono (drop_wp hs hnot (hvacant n List.mem_cons_self)) (fun _ s₁ h₁ => ?_)
      fun _ _ h => h
    refine Act.wp_mono (ih h₁.2 hnodup fun n' hn' =>
      (hvacant n' (List.mem_cons_of_mem _ hn')).mono h₁.1) (fun _ s₂ h₂ => ?_) fun _ _ h => h
    exact ⟨h₁.1.trans h₂.1, h₂.2⟩

/-! ## The parts -/

theorem wp_query {c : Call} {f : Answer → Tree → Except Errno α} {Q : α → State → Prop}
    {E : Errno → State → Prop}
    (hrefused : ∀ e, (m.env s.history c).refusal = some e →
      E e { s with history := s.history ++ [(c, m.env s.history c)] })
    (herr : ∀ e, f (m.env s.history c) s.vars.tree = .error e →
      E e { s with history := s.history ++ [(c, m.env s.history c)] })
    (hok : ∀ a, f (m.env s.history c) s.vars.tree = .ok a →
      Q a { s with history := s.history ++ [(c, m.env s.history c)] }) :
    (query m c f).wp Q E s := by
  rw [query, Act.wp_bind]
  show ((Act.ask m.env c : Act State Errno Answer) >>= _).wp Q E s
  rw [Act.wp_bind, Act.wp_ask]
  cases ha : (m.env s.history c).refusal with
  | some e => exact hrefused e ha
  | none =>
    dsimp only
    cases hf : f (m.env s.history c) s.vars.tree with
    | error e => exact herr e hf
    | ok a => exact hok a hf

/-- A name that is not found was free, or nothing can be done under it. -/
theorem lookup_wp (honest : Honest m.env) (hs : Whole t₀ W s) {p : Path} (hp : ¬ Made s.history p) :
    (lookup m p).wp (fun _ s' => On t₀ W s s')
      (fun _ s' => On t₀ W s s' ∧ Vacant m t₀ s'.history p) s := by
  have hasked : On t₀ W s { s with history := s.history ++ [(.lookup p, m.env s.history (.lookup p))] } :=
    ⟨List.prefix_append _ _, hs.ask rfl⟩
  refine wp_query (fun e he => ⟨hasked, .inr fun h' hh' => ?_⟩) (fun e he => ⟨hasked, .inl ?_⟩)
    fun _ _ => hasked
  · refine honest s.history h' p ?_ ((List.prefix_append _ _).trans hh')
    rw [he]
    exact nofun
  · refine (hs.kept p hp).symm.trans ?_
    cases hget : s.vars.tree.get p with
    | none => rfl
    | some nd =>
      rw [node, hget] at he
      cases he

theorem free_wp (honest : Honest m.env) {names : List Name} (hnot : ∀ n ∈ names, ¬ W (dir ++ [n]))
    (hs : Whole t₀ W s) : (free m dir names).wp
      (fun _ s' => On t₀ W s s' ∧ ∀ n ∈ names, Vacant m t₀ s'.history (dir ++ [n]))
      (fun _ s' => On t₀ W s s') s := by
  induction names generalizing s with
  | nil => exact ⟨⟨List.prefix_rfl, hs⟩, fun n hn => absurd hn List.not_mem_nil⟩
  | cons n names ih =>
    have hn : ¬ Made s.history (dir ++ [n]) := fun h => hnot n List.mem_cons_self (hs.only _ h)
    rw [free, Act.wp_bind, Act.wp_attempt]
    refine Act.wp_mono (lookup_wp honest hs hn) (fun _ _ h => h) fun _ s₁ h₁ => ?_
    obtain ⟨⟨hp, hs₁⟩, hvacant⟩ := h₁
    refine Act.wp_mono (ih (fun n' hn' => hnot n' (List.mem_cons_of_mem _ hn')) hs₁)
      (fun _ s₂ h₂ => ?_) fun _ _ h => ⟨hp.trans h.1, h.2⟩
    exact ⟨⟨hp.trans h₂.1.1, h₂.1.2⟩, List.forall_mem_cons.2 ⟨hvacant.mono h₂.1.1, h₂.2⟩⟩

theorem partsFrom_wp {part : ℕ} {names : List Name} (index : ℕ)
    (hW : ∀ n ∈ names, W (dir ++ [n])) (hs : Whole t₀ W s)
    (hvacant : ∀ n ∈ names, Vacant m t₀ s.history (dir ++ [n])) :
    (partsFrom m dir name part index names).wp
      (fun _ s' => On t₀ W s s' ∧ ∀ n ∈ names, Made s'.history (dir ++ [n]))
      (fun _ s' => On t₀ W s s') s := by
  induction names generalizing s index with
  | nil => exact ⟨⟨List.prefix_rfl, hs⟩, fun n hn => absurd hn List.not_mem_nil⟩
  | cons n names ih =>
    have hself : Just (dir ++ [n]) (dir ++ [n]) := rfl
    have hwrite : Going t₀ W (Just (dir ++ [n])) (at_ (dir ++ [n])
        (read m (dir ++ [name]) (index * part) (some part)) >>= fun content =>
          at_ (dir ++ [n]) (write m (dir ++ [n]) content)) :=
      going_bind (going_at (going_read _ _ _)) fun _ => going_at (going_write hself _)
    rw [partsFrom, Act.wp_bind, at_, Act.wp_mapErr]
    refine Act.wp_mono (create_wp hs (hW n List.mem_cons_self) (hvacant n List.mem_cons_self))
      (fun _ s₁ h₁ => ?_) fun _ _ h => h
    obtain ⟨⟨hp, hs₁⟩, hmade⟩ := h₁
    rw [← bind_assoc, Act.wp_bind]
    refine Act.wp_mono (Going.wp hwrite (fun x hx => by rw [show x = _ from hx]; exact hmade) hs₁)
      (fun _ s₂ h₂ => ?_) fun _ _ h => ⟨hp.trans h.1, h.2⟩
    have hp₂ := hp.trans h₂.1
    refine Act.wp_mono (ih (index + 1) (fun n' hn' => hW n' (List.mem_cons_of_mem _ hn')) h₂.2
      fun n' hn' => (hvacant n' (List.mem_cons_of_mem _ hn')).mono hp₂) (fun _ s₃ h₃ => ?_)
      fun _ _ h => ⟨hp₂.trans h.1, h.2⟩
    exact ⟨⟨hp₂.trans h₃.1.1, h₃.1.2⟩,
      List.forall_mem_cons.2 ⟨(hmade.mono h₂.1).mono h₃.1.1, h₃.2⟩⟩

theorem padded_injective (width : ℕ) : Function.Injective (padded width) := fun a b h => by
  rw [← parseDecimal_padded width a, h, parseDecimal_padded]

theorem partName_injective (n : Name) : Function.Injective (partName n) := fun a b h => by
  have hval := congrArg Subtype.val h
  exact padded_injective 3 (List.cons.inj (List.append_cancel_left hval)).2

theorem partName_ne (n : Name) (index : ℕ) : partName n index ≠ n := fun h => by
  have hlen := congrArg List.length (congrArg Subtype.val h)
  simp only [partName, List.length_append, List.length_cons] at hlen
  omega

theorem nodup_partNames (n : Name) (count : ℕ) : (partNames n count).Nodup :=
  List.nodup_range.map fun _ _ h => Nat.succ_injective (partName_injective n h)

theorem not_mem_partNames (n : Name) (count : ℕ) : n ∉ partNames n count := fun h => by
  obtain ⟨index, -, h⟩ := List.mem_map.1 h
  exact partName_ne n _ h

/-- The archive and the parts of it. -/
def Ours (dir : Path) (name : Name) (names : List Name) (x : Path) : Prop :=
  x ∈ names.map (dir ++ [·]) ++ [dir ++ [name]]

theorem place_injective (dir : Path) : Function.Injective fun n : Name => dir ++ [n] := fun a b h => by
  simpa using h

theorem nodup_ours {names : List Name} (hnodup : names.Nodup) (hnot : name ∉ names) :
    (names.map (dir ++ [·]) ++ [dir ++ [name]]).Nodup := by
  rw [List.nodup_append]
  refine ⟨hnodup.map (place_injective dir), List.nodup_singleton _, fun x hx y hy hxy => ?_⟩
  obtain ⟨n, hn, rfl⟩ := List.mem_map.1 hx
  rw [List.mem_singleton.1 hy] at hxy
  exact hnot (place_injective dir hxy ▸ hn)

/-- After the parts are written only they are left, once the archive is gone. -/
theorem onlyParts_of_removed {names : List Name} {t : Tree} (hs : Whole t₀ (Ours dir name names) s)
    (hmade : ∀ n ∈ names, Made s.history (dir ++ [n])) (hnot : name ∉ names)
    (hout : t₀.get (dir ++ [name]) = none)
    (ht : ∀ x, t.get x = if x = dir ++ [name] then none else s.vars.tree.get x) :
    OnlyParts t₀ (names.map (dir ++ [·])) t := by
  constructor
  · rintro x hx
    obtain ⟨n, hn, rfl⟩ := List.mem_map.1 hx
    have hne : dir ++ [n] ≠ dir ++ [name] := fun h => hnot (place_injective dir h ▸ hn)
    obtain ⟨nd, hnd, -⟩ := hs.there _ (hmade n hn)
    exact ⟨hs.free _ (hmade n hn), by rw [ht, if_neg hne, hnd]; rfl⟩
  · intro x hx
    rw [ht]
    split_ifs with hne
    · rw [hne, hout]
    · refine hs.kept x fun h => ?_
      obtain h | h := List.mem_append.1 (hs.only x h)
      · exact hx h
      · exact hne (List.mem_singleton.1 h)

theorem writeParts_wp {part : ℕ} {names : List Name} (hW : ∀ n ∈ names, W (dir ++ [n]))
    (hs : Whole t₀ W s) (hvacant : ∀ n ∈ names, Vacant m t₀ s.history (dir ++ [n])) :
    (writeParts m dir name part names).wp
      (fun _ s' => On t₀ W s s' ∧ ∀ n ∈ names, Made s'.history (dir ++ [n]))
      (fun _ s' => On t₀ W s s') s := by
  have hopen : Going t₀ W (fun _ => False) (at_ (dir ++ [name]) (openFile m (dir ++ [name]))) :=
    going_at (going_openFile _)
  rw [writeParts, Act.wp_bind]
  refine Act.wp_mono (Going.wp hopen (fun x hx => hx.elim) hs) (fun _ s₁ h₁ => ?_) fun _ _ h => h
  refine Act.wp_mono (partsFrom_wp 0 hW h₁.2 fun n hn => (hvacant n hn).mono h₁.1)
    (fun _ s₂ h₂ => ?_) fun _ _ h => ⟨h₁.1.trans h.1, h.2⟩
  exact ⟨⟨h₁.1.trans h₂.1.1, h₂.1.2⟩, h₂.2⟩

/-- The archive is removed behind its parts. Where that is refused they all stay. -/
theorem remove_behind_wp {names : List Name} (hs : Whole t₀ (Ours dir name names) s)
    (hmade : ∀ n ∈ names, Made s.history (dir ++ [n])) (hout : Made s.history (dir ++ [name]))
    (hnot : name ∉ names) (hsome : names ≠ []) :
    (remove m dir name).wp
      (fun _ s' => OnlyParts t₀ (names.map (dir ++ [·])) s'.vars.tree ∧ Clears m.env s')
      (fun _ s' => s.history <+: s'.history ∧ Sweep m t₀ [dir ++ [name]] s') s := by
  obtain ⟨nd, hnd, hdir⟩ := hs.there _ hout
  obtain ⟨t', ht'⟩ := Tree.remove_eq_ok hnd (names_of_file hnd hdir)
  rw [hdir] at ht'
  refine wp_change (fun e he => ?_) (fun e t ht hr => ⟨List.prefix_append _ _, ?_⟩) fun t ht hr => ?_
  · rw [ht'] at he
    cases he
  · have hclears : ¬ Clears m.env { s with
        history := s.history ++ [(.remove (dir ++ [name]), m.env s.history (.remove (dir ++ [name])))] } :=
      fun h => by
        rw [(clears_remove.1 h).2 hout] at hr
        cases hr
    refine {
      kept := fun x hx => hs.kept x fun h => hx (made_remove.2 h)
      free := fun x hx => hs.free x (made_remove.1 hx)
      file := fun x hx nd hnd => ?_
      gone := fun h => absurd h hclears
      stuck := fun _ => ?_ }
    · obtain ⟨nd', hnd', hdir'⟩ := hs.there x (made_remove.1 hx)
      rw [show s.vars.tree.get x = some nd from hnd] at hnd'
      rw [Option.some.inj hnd']
      exact hdir'
    · obtain ⟨n, hn⟩ := List.exists_mem_of_ne_nil names hsome
      obtain ⟨nd', hnd', -⟩ := hs.there _ (hmade n hn)
      refine ⟨dir ++ [n], made_remove.2 (hmade n hn), fun h => ?_, by
        rw [show s.vars.tree.get (dir ++ [n]) = _ from hnd']; rfl⟩
      exact hnot (place_injective dir (List.mem_singleton.1 h) ▸ hn)
  · obtain ⟨-, -, hget⟩ := Tree.remove_ok ht
    exact ⟨onlyParts_of_removed hs hmade hnot (hs.free _ hout) hget,
      clears_remove.2 ⟨hs.clears, fun _ => hr⟩⟩

/-- `split_file` leaves the parts or, where it fails, the archive and what it could not remove. -/
theorem splitFile_wp (honest : Honest m.env) (part : ℕ) (hs : Whole t₀ (Just (dir ++ [name])) s)
    (hout : Made s.history (dir ++ [name])) :
    (splitFile m dir name part).wp
      (fun names s' => OnlyParts t₀ (names.map (dir ++ [·])) s'.vars.tree ∧ Clears m.env s')
      (fun _ s' => s.history <+: s'.history ∧ Sweep m t₀ [dir ++ [name]] s') s := by
  have hsweep : ∀ {s'}, On t₀ (Just (dir ++ [name])) s s' →
      s.history <+: s'.history ∧ Sweep m t₀ [dir ++ [name]] s' := fun h =>
    ⟨h.1, h.2.sweep fun x hx => List.mem_singleton.2 hx⟩
  rw [splitFile]
  refine (Act.wp_ite _ _).2 ⟨fun _ => hsweep ⟨List.prefix_rfl, hs⟩, fun _ => ?_⟩
  rw [Act.wp_bind]
  have hmeta : Going t₀ (Just (dir ++ [name])) (fun _ => False)
      (at_ (dir ++ [name]) (metadata m (dir ++ [name]))) := going_at (going_query rfl _)
  refine Act.wp_mono (Going.wp hmeta (fun x hx => hx.elim) hs) (fun st s₁ h₁ => ?_) fun _ _ h => hsweep h
  have hnodup := nodup_partNames name (max ((st.size + part - 1) / part) 1)
  have hnot := not_mem_partNames name (max ((st.size + part - 1) / part) 1)
  have hsome : partNames name (max ((st.size + part - 1) / part) 1) ≠ [] := fun h => by
    have := congrArg List.length h
    simp [partNames] at this
  generalize partNames name (max ((st.size + part - 1) / part) 1) = names at hnodup hnot hsome
  have hother : ∀ n ∈ names, ¬ Just (dir ++ [name]) (dir ++ [n]) := fun n hn h =>
    hnot (place_injective dir h ▸ hn)
  dsimp only
  rw [Act.wp_bind]
  refine Act.wp_mono (free_wp honest hother h₁.2) (fun _ s₂ h₂ => ?_) fun _ _ h =>
    hsweep ⟨h₁.1.trans h.1, h.2⟩
  obtain ⟨⟨hp₂, hs₂⟩, hvacant₂⟩ := h₂
  have hwide : Whole t₀ (Ours dir name names) s₂ := hs₂.widen fun x hx =>
    List.mem_append_right _ (List.mem_singleton.2 hx)
  have hours : ∀ n ∈ names, Ours dir name names (dir ++ [n]) := fun n hn =>
    List.mem_append_left _ (List.mem_map_of_mem hn)
  have hp := h₁.1.trans hp₂
  rw [Act.wp_bind, Act.wp_attempt]
  refine Act.wp_mono (writeParts_wp hours hwide hvacant₂) (fun _ s₃ h₃ => ?_) fun e s₃ h₃ => ?_
  · obtain ⟨⟨hp₃, hs₃⟩, hmade⟩ := h₃
    dsimp only
    rw [Act.wp_bind, at_, Act.wp_mapErr]
    refine Act.wp_mono (remove_behind_wp hs₃ hmade (hout.mono (hp.trans hp₃)) hnot hsome)
      (fun _ _ h => h) fun _ _ h => ⟨(hp.trans hp₃).trans h.1, h.2⟩
  · obtain ⟨hp₃, hs₃⟩ := h₃
    dsimp only
    rw [Act.wp_bind]
    refine Act.wp_mono (dropAll_wp names (hs₃.sweep fun x hx => hx) (nodup_ours hnodup hnot)
      fun n hn => (hvacant₂ n hn).mono hp₃) (fun _ s₄ h₄ => ?_) fun _ _ h => h.elim
    exact ⟨(hp.trans hp₃).trans h₄.1, h₄.2⟩

/-! ## What the writers answer -/

/-- A value that is returned satisfies `P`. -/
def Gives (P : α → Prop) (act : Act State ε α) : Prop :=
  ∀ s, act.wp (fun a _ => P a) (fun _ _ => True) s

theorem gives_pure {P : α → Prop} {a : α} (h : P a) : Gives P (pure a : Act State ε α) := fun _ => h

theorem gives_bind {P : β → Prop} {Q : α → Prop} {act : Act State ε α} {f : α → Act State ε β}
    (ha : Gives Q act) (hf : ∀ a, Q a → Gives P (f a)) : Gives P (act >>= f) := fun s => by
  rw [Act.wp_bind]
  exact Act.wp_mono (ha s) (fun a s' h => hf a h s') fun _ _ h => h

theorem gives_any (act : Act State ε α) : Gives (fun _ => True) act := fun s =>
  Act.wp_mono (Act.wp_run act s) (fun _ _ _ => trivial) fun _ _ _ => trivial

theorem gives_then {P : β → Prop} {act : Act State ε α} {f : α → Act State ε β}
    (hf : ∀ a, Gives P (f a)) : Gives P (act >>= f) := gives_bind (gives_any act) fun a _ => hf a

theorem gives_ite {P : α → Prop} {c : Prop} [Decidable c] {act act' : Act State ε α}
    (h : Gives P act) (h' : Gives P act') : Gives P (if c then act else act') := by
  split
  · exact h
  · exact h'

theorem gives_counted (rep : Reporter) (progress : Progress) {done : Done} (hdone : done.parts = [])
    (path : Path) : Gives (fun r => r.2.parts = []) (counted m rep progress done path) :=
  gives_then fun _ => gives_then fun _ => gives_pure hdone

theorem gives_entries {base : Path} {rep : Reporter}
    {entry : Path → Bytes → List Item → Act State Error (List Item)} (paths : List Path)
    (progress : Progress) {done : Done} (hdone : done.parts = []) (items : List Item) :
    Gives (fun r => r.1.parts = []) (entries m base rep entry paths progress done items) := by
  induction paths generalizing progress done items with
  | nil => exact gives_pure hdone
  | cons path paths ih =>
    refine gives_ite (ih _ hdone _) (gives_then fun flow => ?_)
    refine gives_ite (gives_pure hdone) (gives_then fun items => ?_)
    exact gives_bind (gives_counted rep _ hdone path) fun r hr => ih _ hr _

/-- The parts are named by the split alone. -/
theorem gives_writeArchive (format : Format) (options : Options) (base dir : Path) (name : Name)
    (p : Plan) (rep : Reporter) :
    Gives (fun done => done.parts = []) (writeArchive m format options base dir name p rep) := by
  have hrest : ∀ {entry} {f : Done × List Item → Act State Error Done},
      (∀ done items, done.parts = [] → Gives (fun done => done.parts = []) (f (done, items))) →
      Gives (fun done => done.parts = [])
        (entries m base rep entry p.paths (starting p) {} [] >>= f) := fun hf =>
    gives_bind (gives_entries _ _ rfl _) fun r hr => hf r.1 r.2 hr
  cases format with
  | zip => exact gives_then fun _ => hrest fun _ _ h => gives_then fun _ => gives_pure h
  | sevenZip =>
    exact gives_then fun _ => gives_then fun _ => hrest fun _ _ h => gives_then fun _ => gives_pure h
  | _ =>
    exact gives_then fun _ => gives_then fun _ => hrest fun _ _ h => gives_then fun _ => gives_pure h

/-! ## The whole of it -/

/-- What is left when the archive has been taken away. -/
theorem drop_archive_wp (hs : Sweep m t₀ [dir ++ [name]] s)
    (hvacant : Vacant m t₀ s.history (dir ++ [name])) :
    (drop m dir name).wp (fun _ s' => Same t₀ s'.vars.tree ↔ Clears m.env s') (fun _ _ => False) s :=
  Act.wp_mono (drop_wp hs List.not_mem_nil hvacant) (fun _ _ h => h.2.same_iff) fun _ _ h => h

/-- **A compress that fails or is cancelled leaves the folder as it was, and one that writes parts
leaves only the parts, exactly if no removal of a file it made is refused.** -/
theorem compress_keeps_iff (m : Setup) (honest : Honest m.env) (format : Format) (options : Options)
    (base dir : Path) (name : Name) (rep : Reporter) (sources : List Path) (t : Tree) :
    Keeps t (compress m format options base dir name rep sources (start t)).1
        (compress m format options base dir name rep sources (start t)).2.vars.tree ↔
      Clears m.env (compress m format options base dir name rep sources (start t)).2 := by
  suffices h : (compress m format options base dir name rep sources).wp
      (fun done s' => Keeps t (.ok done) s'.vars.tree ↔ Clears m.env s')
      (fun e s' => Keeps t (.error e) s'.vars.tree ↔ Clears m.env s') (start t) by
    rcases hrun : compress m format options base dir name rep sources (start t) with ⟨e | done, s'⟩
    · exact Act.wp_error h hrun
    · exact Act.wp_ok h hrun
  -- nothing has been made yet
  have hnone : ∀ {s' : State}, Whole t (fun _ => False) s' → (Same t s'.vars.tree ↔ Clears m.env s') :=
    fun h => (h.sweep fun x hx => hx.elim).same_iff
  have hstart : Whole t (fun _ => False) (start t) := whole_start t
  rw [compress]
  refine (Act.wp_ite _ _).2 ⟨fun _ => hnone hstart, fun _ => ?_⟩
  rw [Act.wp_bind]
  refine Act.wp_mono (Going.wp (going_lift (O := fun _ => False) _) (fun x hx => hx.elim) hstart)
    (fun _ s₁ h₁ => ?_) fun _ _ h => hnone h.2
  have hunmade : ¬ Made s₁.history (dir ++ [name]) := fun h => h₁.2.only _ h
  rw [Act.wp_bind, Act.wp_attempt]
  refine Act.wp_mono (lookup_wp honest h₁.2 hunmade) (fun _ _ h => hnone h.2) fun _ s₂ h₂ => ?_
  obtain ⟨⟨-, hs₂⟩, hvacant⟩ := h₂
  dsimp only
  rw [Act.wp_bind]
  refine Act.wp_mono (Going.wp (going_plan (O := fun _ => False) sources) (fun x hx => hx.elim) hs₂)
    (fun p s₃ h₃ => ?_) fun _ _ h => hnone h.2
  have hs₃ : Whole t (Just (dir ++ [name])) s₃ := h₃.2.widen fun x hx => hx.elim
  rw [Act.wp_bind, Act.wp_attempt]
  refine Act.wp_mono (Act.wp_and (writeArchive_wp hs₃ rfl (hvacant.mono h₃.1))
    (gives_writeArchive format options base dir name p rep s₃)) (fun done s₄ h₄ => ?_)
    fun e s₄ h₄ => ?_
  · obtain ⟨⟨⟨hp₄, hs₄⟩, hmade⟩, hparts⟩ := h₄
    have hvacant₄ := (hvacant.mono h₃.1).mono hp₄
    have hsweep : Sweep m t [dir ++ [name]] s₄ := hs₄.sweep fun x hx => List.mem_singleton.2 hx
    dsimp only
    refine (Act.wp_ite _ _).2 ⟨fun hcancelled => ?_, fun hcancelled => ?_⟩
    · rw [Act.wp_bind]
      refine Act.wp_mono (drop_archive_wp hsweep hvacant₄) (fun _ _ h => ?_) fun _ _ h => h.elim
      rw [Act.wp_pure, ← h]
      exact ⟨fun hk => hk.1 hcancelled, fun hk => ⟨fun _ => hk, fun hne => absurd hparts hne⟩⟩
    · split
      · refine iff_of_true ⟨fun h => absurd h hcancelled, fun hne => absurd hparts hne⟩ hs₄.clears
      next part _ =>
        rw [Act.wp_bind, Act.wp_attempt]
        refine Act.wp_mono (splitFile_wp honest part hs₄ hmade) (fun names s₅ h₅ => ?_)
          fun e s₅ h₅ => ?_
        · exact iff_of_true ⟨fun h => absurd h hcancelled, fun _ => h₅.1⟩ h₅.2
        · dsimp only
          rw [Act.wp_bind]
          exact Act.wp_mono (drop_archive_wp h₅.2 (hvacant₄.mono h₅.1)) (fun _ _ h => h)
            fun _ _ h => h.elim
  · obtain ⟨⟨hp₄, hs₄⟩, -⟩ := h₄
    dsimp only
    rw [Act.wp_bind]
    exact Act.wp_mono (drop_archive_wp (hs₄.sweep fun x hx => List.mem_singleton.2 hx)
      ((hvacant.mono h₃.1).mono hp₄)) (fun _ _ h => h) fun _ _ h => h.elim

/-- Everything goes well but the calls that are refused. -/
def obliging (refuses : List (Call × Answer) → Call → Bool) : Setup where
  env h c := ⟨if refuses h c then some .io else none, [], fun _ => true⟩
  codec _ _ _ _ := .ok (text "7z")
  lzma2 _ := ⟨2 ^ 20, 1, none⟩
  availableMemory := none
  humanSize _ := []
  strerror _ := []
  mode := 0o644
  levels := 4

theorem obliging_honest {refuses : List (Call × Answer) → Call → Bool}
    (h : ∀ l p, refuses l (.lookup p) = false) : Honest (obliging refuses).env := by
  intro l l' p hp
  have hnone : ((obliging refuses).env l (.lookup p)).refusal = none :=
    if_neg (by rw [h]; exact Bool.false_ne_true)
  exact absurd hnone hp

/-- A 7z in parts. -/
def inParts : Options where
  level := .store
  password := none
  split := some ⟨smallestPart, le_rfl⟩
  dictionary := none
  wordSize := none
  threads := 1

/-- A folder with one file. -/
def folder : Tree := Tree.ofList [(Path.of ["f"], .file 0o644 .owner (text "hi"))]

def theName : Name := ⟨text "a.7z", by decide⟩

theorem compress_keeps_iff_obliging :
    Honest (obliging fun _ _ => false).env ∧
    (Keeps folder
        (compress (obliging fun _ _ => false) .sevenZip inParts [] [] theName silent [Path.of ["f"]]
          (start folder)).1
        (compress (obliging fun _ _ => false) .sevenZip inParts [] [] theName silent [Path.of ["f"]]
          (start folder)).2.vars.tree ↔
      Clears (obliging fun _ _ => false).env
        (compress (obliging fun _ _ => false) .sevenZip inParts [] [] theName silent [Path.of ["f"]]
          (start folder)).2) :=
  ⟨obliging_honest fun _ _ => rfl, compress_keeps_iff _ (obliging_honest fun _ _ => rfl) _ _ _ _ _ _ _ _⟩

/-- The first removal of the archive is refused, and nothing else. -/
def stubborn : Setup := obliging fun h c =>
  c = .remove [theName] && h.all fun e => e.1 ≠ .remove [theName]

/-- The compress fails, its archive is removed after all, and the part stays. -/
theorem part_left : Honest stubborn.env ∧
    ¬ Keeps folder
        (compress stubborn .sevenZip inParts [] [] theName silent [Path.of ["f"]] (start folder)).1
        (compress stubborn .sevenZip inParts [] [] theName silent [Path.of ["f"]]
          (start folder)).2.vars.tree := by
  refine ⟨obliging_honest fun l p => rfl, fun h => ?_⟩
  have herr : (compress stubborn .sevenZip inParts [] [] theName silent [Path.of ["f"]]
      (start folder)).1 = .error (.io [.path (PathBuf.ofPath [theName])] .io) := by decide
  rw [herr] at h
  have hpart := h [partName theName 1]
  revert hpart
  decide

end Aurade.Ops.Compress
