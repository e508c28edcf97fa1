import Aurade.Stores.Defaults

/-!
# What opens a type, in order

`handlersFor` walks over the lists of a type and its ancestry, the defaults first, and takes each
application at its first turn that is not removed. What it shows of them is what runs and is meant to
be shown, while `defaultFor` asks only for what runs: the default heads the list where it is shown
(`handlersFor_spec`).
-/

namespace Aurade.Desktop

open Stores

/-! ## Taking each thing once -/

section

variable {α β γ : Type} [DecidableEq β]

/-- Of things that come in turns, those not yet taken. `skip` is a turn that takes nothing. -/
def takeOnce (skip : α → Bool) (key : α → β) (taken : List β) (turn : α) : List β :=
  if skip turn || taken.contains (key turn) then taken else taken ++ [key turn]

variable {skip : α → Bool} {key : α → β} {taken : List β} {turns : List α}

theorem nodup_foldl_takeOnce (h : taken.Nodup) : (turns.foldl (takeOnce skip key) taken).Nodup := by
  induction turns generalizing taken with
  | nil => exact h
  | cons turn turns ih =>
    rw [List.foldl_cons]
    apply ih
    rw [takeOnce]
    split
    · exact h
    · next hnew =>
      have hout : key turn ∉ taken := fun hmem => hnew (by simp [hmem])
      exact List.nodup_append.2 ⟨h, List.nodup_singleton _, fun x hx y hy hxy =>
        hout (by rwa [← List.mem_singleton.1 hy, ← hxy])⟩

theorem mem_foldl_takeOnce {x : β} : x ∈ turns.foldl (takeOnce skip key) taken ↔
    x ∈ taken ∨ ∃ turn ∈ turns, skip turn = false ∧ key turn = x := by
  induction turns generalizing taken with
  | nil => simp
  | cons turn turns ih =>
    have hstep : x ∈ takeOnce skip key taken turn ↔ x ∈ taken ∨ (skip turn = false ∧ key turn = x) := by
      rw [takeOnce]
      split
      · next hold =>
        rw [Bool.or_eq_true, List.contains_iff_mem] at hold
        constructor
        · exact Or.inl
        · rintro (hx | ⟨hskip, rfl⟩)
          · exact hx
          · exact hold.resolve_left (by rw [hskip]; exact Bool.false_ne_true)
      · next hnew =>
        rw [Bool.or_eq_true, not_or, Bool.not_eq_true] at hnew
        rw [List.mem_append, List.mem_singleton, and_iff_right hnew.1, eq_comm (a := x)]
    rw [List.foldl_cons, ih, hstep, List.exists_mem_cons_iff, or_assoc]

/-- What is found first among the things taken is found at the first turn that has it. -/
theorem findSome_foldl_takeOnce (f : β → Option γ) :
    (turns.foldl (takeOnce skip key) taken).findSome? f =
      (taken.findSome? f).or (turns.findSome? fun turn => if skip turn then none else f (key turn)) := by
  induction turns generalizing taken with
  | nil => rw [List.foldl_nil, List.findSome?_nil, Option.or_none]
  | cons turn turns ih =>
    rw [List.foldl_cons, ih, takeOnce, List.findSome?_cons]
    by_cases hskip : skip turn = true
    · simp [hskip]
    · rw [Bool.not_eq_true] at hskip
      simp only [hskip, Bool.false_or, List.contains_iff_mem, Bool.false_eq_true, if_false]
      by_cases hmem : key turn ∈ taken
      · rw [if_pos hmem]
        cases htaken : taken.findSome? f with
        | some found => simp
        | none =>
          -- it was taken before, and had nothing to find
          rw [List.findSome?_eq_none_iff.1 htaken _ hmem]
      · rw [if_neg hmem, List.findSome?_append, List.findSome?_singleton, Option.or_assoc]
        congr 1
        cases f (key turn) <;> rfl

end

/-! ## The registry -/

/-- What of a desktop entry decides whether it is offered for a file. -/
structure Application where
  exec : Option Bytes
  tryExec : Option Bytes
  hidden : Bool
  noDisplay : Bool
  mimeTypes : List Bytes

/-- `is_runnable`. `which` says whether a program is found. -/
def Application.isRunnable (which : Bytes → Bool) (a : Application) : Bool :=
  if a.hidden || a.exec.isNone then false else a.tryExec.all which

/-- The registry with the associations that only `handlers_for` reads. -/
structure Associated extends Registry Application where
  added : Std.ExtTreeMap Bytes (List Bytes)
  cached : Std.ExtTreeMap Bytes (List Bytes)

namespace Associated

variable (r : Associated) (which : Bytes → Bool) (mime : Bytes) (also : List Bytes)

/-- The turns over the lists, each a type and an application: the defaults, then the explicit
associations, then the package manager's cache, each over the whole ancestry. -/
def listed : List (Bytes × Bytes) :=
  [r.defaults, r.added, r.cached].flatMap fun source =>
    (mime :: also).flatMap fun t => (idsOf source t).map fun id => (t, id)

/-- The turns over what declares a type. -/
def declared : List (Bytes × Bytes) :=
  (mime :: also).flatMap fun t =>
    (r.entries.toList.filter fun e => e.2.mimeTypes.contains t).map fun e => (t, e.1)

/-- The ids in their order. What was seen is what is in it. -/
def order : List Bytes :=
  (r.listed mime also ++ r.declared mime also).foldl
    (takeOnce (fun turn => r.isRemoved turn.1 turn.2) Prod.snd) []

/-- An application that is shown. -/
def shown (id : Bytes) : Option (Bytes × Application) :=
  (r.entries[id]?.filter fun a => a.isRunnable which && !a.noDisplay).map fun a => (id, a)

/-- `handlers_for`, each application with its id. -/
def handlersFor : List (Bytes × Application) := (r.order mime also).filterMap (r.shown which)

/-- An application declares a type or is associated with it. -/
def Handles (t id : Bytes) : Prop :=
  id ∈ idsOf r.defaults t ∨ id ∈ idsOf r.added t ∨ id ∈ idsOf r.cached t ∨
    ∃ a, r.entries[id]? = some a ∧ t ∈ a.mimeTypes

/-! ## What is shown -/

variable {r which mime also} {id t : Bytes}

theorem mem_turns : (t, id) ∈ r.listed mime also ++ r.declared mime also ↔
    t ∈ mime :: also ∧ r.Handles t id := by
  have hlisted : (t, id) ∈ r.listed mime also ↔ t ∈ mime :: also ∧
      (id ∈ idsOf r.defaults t ∨ id ∈ idsOf r.added t ∨ id ∈ idsOf r.cached t) := by
    have hsource : ∀ source : Std.ExtTreeMap Bytes (List Bytes),
        ((t, id) ∈ (mime :: also).flatMap fun t => (idsOf source t).map fun id => (t, id)) ↔
          t ∈ mime :: also ∧ id ∈ idsOf source t := by
      intro source
      rw [List.mem_flatMap]
      constructor
      · rintro ⟨t', ht', hmem⟩
        obtain ⟨id', hid', heq⟩ := List.mem_map.1 hmem
        obtain ⟨rfl, rfl⟩ := Prod.mk.inj heq
        exact ⟨ht', hid'⟩
      · intro h
        exact ⟨t, h.1, List.mem_map_of_mem h.2⟩
    have hthree : ∀ f : Std.ExtTreeMap Bytes (List Bytes) → List (Bytes × Bytes),
        [r.defaults, r.added, r.cached].flatMap f = f r.defaults ++ (f r.added ++ (f r.cached ++ [])) :=
      fun _ => rfl
    rw [listed, hthree, List.mem_append, List.mem_append, List.mem_append, hsource, hsource, hsource]
    simp only [List.not_mem_nil, or_false]
    tauto
  have hdeclared : (t, id) ∈ r.declared mime also ↔ t ∈ mime :: also ∧
      ∃ a, r.entries[id]? = some a ∧ t ∈ a.mimeTypes := by
    rw [declared, List.mem_flatMap]
    constructor
    · rintro ⟨t', ht', hmem⟩
      obtain ⟨⟨id', a⟩, ha, heq⟩ := List.mem_map.1 hmem
      obtain ⟨rfl, rfl⟩ := Prod.mk.inj heq
      obtain ⟨hin, htype⟩ := List.mem_filter.1 ha
      exact ⟨ht', a, Std.ExtTreeMap.mem_toList_iff_getElem?_eq_some.1 hin, by simpa using htype⟩
    · rintro ⟨ht, a, ha, htype⟩
      refine ⟨t, ht, List.mem_map.2 ⟨(id, a), List.mem_filter.2 ⟨?_, by simpa using htype⟩, rfl⟩⟩
      exact Std.ExtTreeMap.mem_toList_iff_getElem?_eq_some.2 ha
  rw [List.mem_append, hlisted, hdeclared, Handles, ← and_or_left, or_assoc, or_assoc]

theorem mem_order : id ∈ r.order mime also ↔
    ∃ t ∈ mime :: also, r.Handles t id ∧ r.isRemoved t id = false := by
  rw [order, mem_foldl_takeOnce]
  simp only [List.not_mem_nil, false_or]
  constructor
  · rintro ⟨⟨t, id'⟩, hturn, hremoved, rfl⟩
    obtain ⟨ht, hhandles⟩ := mem_turns.1 hturn
    exact ⟨t, ht, hhandles, hremoved⟩
  · rintro ⟨t, ht, hhandles, hremoved⟩
    exact ⟨(t, id), mem_turns.2 ⟨ht, hhandles⟩, hremoved, rfl⟩

theorem shown_eq_some {q : Bytes × Application} : r.shown which id = some q ↔
    q.1 = id ∧ r.entries[id]? = some q.2 ∧ q.2.isRunnable which = true ∧ q.2.noDisplay = false := by
  rw [shown]
  constructor
  · intro h
    obtain ⟨a, ha, rfl⟩ := Option.map_eq_some_iff.1 h
    obtain ⟨hentry, hboth⟩ := Option.filter_eq_some_iff.1 ha
    rw [Bool.and_eq_true, Bool.not_eq_true'] at hboth
    exact ⟨rfl, hentry, hboth⟩
  · rintro ⟨rfl, hentry, hruns, hdisplay⟩
    rw [hentry, Option.filter_some, if_pos (by simp [hruns, hdisplay])]
    rfl

/-- What is shown is what is offered, less what is not to be displayed. -/
theorem shown_eq_offers : (if r.isRemoved t id then none else r.shown which id) =
    (r.offers (Application.isRunnable which) t id).filter fun q => !q.2.noDisplay := by
  rw [Registry.offers, shown]
  split
  · rfl
  · cases r.entries[id]? with
    | none => rfl
    | some a =>
      by_cases hruns : a.isRunnable which = true
      · rw [Option.filter_some, Option.filter_some, if_pos hruns, Option.map_some, Option.filter_some,
          hruns, Bool.true_and]
        split <;> rfl
      · rw [Option.filter_some, Option.filter_some, if_neg hruns, if_neg (by simp [hruns])]
        rfl

theorem findSome_filter {α β : Type} (f : α → Option β) {p : β → Bool} {xs : List α} {y : β}
    (h : xs.findSome? f = some y) (hp : p y = true) : xs.findSome? (fun x => (f x).filter p) = some y := by
  induction xs with
  | nil => cases h
  | cons x xs ih =>
    rw [List.findSome?_cons] at h ⊢
    cases hx : f x with
    | none =>
      rw [hx] at h
      exact ih h
    | some found =>
      rw [hx] at h
      obtain rfl := Option.some.inj h
      rw [Option.filter_some, if_pos hp]

/-- A default that is displayed heads what is shown. -/
theorem head_handlersFor {q : Bytes × Application}
    (h : r.defaultFor (Application.isRunnable which) mime = some q) (hdisplay : q.2.noDisplay = false) :
    (r.handlersFor which mime also).head? = some q := by
  obtain ⟨more, hmore⟩ : ∃ more, r.listed mime also ++ r.declared mime also =
      (idsOf r.defaults mime).map (fun id => (mime, id)) ++ more := by
    rw [listed]
    simp only [List.flatMap_cons, List.append_assoc]
    exact ⟨_, rfl⟩
  have hfirst : ((idsOf r.defaults mime).map fun id => (mime, id)).findSome?
      (fun turn => if r.isRemoved turn.1 turn.2 then none else r.shown which turn.2) = some q := by
    rw [List.findSome?_map]
    simp only [Function.comp_def, shown_eq_offers]
    exact findSome_filter _ h (by rw [hdisplay]; rfl)
  rw [handlersFor, List.head?_filterMap, order, hmore, findSome_foldl_takeOnce, List.findSome?_nil,
    Option.none_or, List.findSome?_append, hfirst, Option.some_or]

end Associated

/-- What is said of `handlers_for`: no application twice, none that does not run or is not displayed,
all that do of those that handle a type of the ancestry and are not removed for it, and the default
first where it is displayed. -/
structure Heads (which : Bytes → Bool) (r : Associated) (mime : Bytes) (also : List Bytes)
    (hs : List (Bytes × Application)) : Prop where
  once : (hs.map Prod.fst).Nodup
  runs : ∀ q ∈ hs, r.entries[q.1]? = some q.2 ∧ q.2.isRunnable which = true ∧ q.2.noDisplay = false
  whole : ∀ id a, r.entries[id]? = some a → a.isRunnable which = true → a.noDisplay = false →
    (∃ t ∈ mime :: also, r.Handles t id ∧ r.isRemoved t id = false) → (id, a) ∈ hs
  default : ∀ q, r.defaultFor (Application.isRunnable which) mime = some q → q.2.noDisplay = false →
    hs.head? = some q

open Associated in
/-- **The handlers of a type**, for every registry and ancestry. -/
theorem handlersFor_spec (which : Bytes → Bool) (r : Associated) (mime : Bytes) (also : List Bytes) :
    Heads which r mime also (r.handlersFor which mime also) := by
  constructor
  · have horder : (r.order mime also).Nodup := nodup_foldl_takeOnce List.nodup_nil
    have hids : (r.handlersFor which mime also).map Prod.fst =
        (r.order mime also).filter fun id => (r.shown which id).isSome := by
      rw [handlersFor, List.map_filterMap, ← List.filterMap_eq_filter]
      apply List.filterMap_congr
      intro id _
      cases hshown : r.shown which id with
      | none => simp [Option.guard, hshown]
      | some q => simp [Option.guard, hshown, (shown_eq_some.1 hshown).1]
    rw [hids]
    exact horder.filter _
  · intro q hq
    obtain ⟨id, -, hshown⟩ := List.mem_filterMap.1 hq
    obtain ⟨rfl, hboth⟩ := shown_eq_some.1 hshown
    exact hboth
  · intro id a ha hruns hdisplay hhandles
    exact List.mem_filterMap.2 ⟨id, mem_order.2 hhandles, shown_eq_some.2 ⟨rfl, ha, hruns, hdisplay⟩⟩
  · exact fun q h hdisplay => head_handlersFor h hdisplay

/-- A browser that is not displayed. -/
def hiddenBrowser : Application where
  exec := some (text "browser %u")
  tryExec := none
  hidden := false
  noDisplay := true
  mimeTypes := [text "text/html"]

/-- A registry in which it is the default for its type. -/
def withBrowser : Associated where
  entries := (∅ : Std.ExtTreeMap Bytes Application).insert (text "browser.desktop") hiddenBrowser
  defaults := (∅ : Std.ExtTreeMap Bytes (List Bytes)).insert (text "text/html") [text "browser.desktop"]
  removed := ∅
  added := ∅
  cached := ∅

/-- **A default that is not displayed** answers for its type and is not among the handlers. -/
theorem hidden_default :
    ∃ q, withBrowser.defaultFor (Application.isRunnable fun _ => true) (text "text/html") = some q ∧
      (withBrowser.handlersFor (fun _ => true) (text "text/html") []).head? ≠ some q := by
  refine ⟨(text "browser.desktop", hiddenBrowser), ?_, ?_⟩
  · have hentry : withBrowser.entries[text "browser.desktop"]? = some hiddenBrowser :=
      Std.ExtTreeMap.getElem?_insert_self
    have hdefault : idsOf withBrowser.defaults (text "text/html") = [text "browser.desktop"] := by
      rw [idsOf, withBrowser, Std.ExtTreeMap.getElem?_insert_self]
      rfl
    rw [Registry.defaultFor, hdefault, List.findSome?_singleton]
    exact Registry.offers_of hentry (by decide) (by decide)
  · intro hhead
    obtain ⟨id, -, hshown⟩ := List.mem_filterMap.1 (List.mem_of_head? hhead)
    cases (Associated.shown_eq_some.1 hshown).2.2.2

end Aurade.Desktop
