import Aurade.Foundations.Chars
import Mathlib.Data.List.Nodup
import Mathlib.Logic.Function.Basic

/-!
# The folder on screen

Navigation in the Files page with a backend: what a person asks for, the listings that are awaited,
and the four things each of them writes when it comes, the rows, `__livePath`, the tab in front and
its history. Replies come in any order, and any of them may fail.

Nothing says whether a listing is still wanted, so `Settled` fails in many a run. `Calm` says which
steps keep it: listings that succeed in the order they were asked for, steps through the history
that succeed, operations that end in the folder on screen. `Inv` is the invariant in between, where
what a step has already written is owed a listing that will make it good.
-/

namespace Aurade.Files.Navigation

/-! ## Paths -/

/-- What `navigateTo` makes of a path. -/
def trim (p : Str) : Str :=
  let bare := if "file://".toList.isPrefixOf p then p.drop 7 else p
  if bare.rdropWhile (· = '/') = [] then bare.take 1 else bare.rdropWhile (· = '/')

/-- The home folder, as the backend has it and as the page was told. -/
structure Machine where
  /-- `HOME` -/
  home : Str
  /-- `HOME_PATH`, which is `~` until the daemon has said. -/
  homePath : Str
  homePath_trim : trim homePath = homePath

variable (m : Machine)

/-- The `path` of a listing: `expand_home` of the one that was asked for. -/
def absolute (p : Str) : Str :=
  if p = "~".toList then m.home
  else if "~/".toList.isPrefixOf p then m.home ++ p.drop 1 else p

/-- `isHomePath` -/
def isHomePath (p : Str) : Bool :=
  p = "~".toList || p = "Home".toList || p = m.homePath ||
    (m.homePath ≠ "~".toList && p = "file://".toList ++ m.homePath)

def liveParent (path : Str) : Option Str :=
  let p := path.rdropWhile (· = '/')
  if p = [] || isHomePath m p then none
  else if '/' ∉ p then none
  else
    let above := (p.rdropWhile (· ≠ '/')).dropLast
    some (if above = [] then "/".toList else above)

/-! ## The page -/

structure Entry where
  path : Str
  isHome : Bool
  deriving DecidableEq

structure Tab where
  path : Str
  isHome : Bool
  history : List Entry
  idx : ℕ
  deriving DecidableEq

/-- What the rows were built from. -/
inductive Rows
  | listing (p : Str)
  /-- The build's own catalogue, which has no rows here. -/
  | built (p : Str)
  | tag (t : Str)
  | search (root q : Str)
  deriving DecidableEq

/-- The folder the rows are of. -/
def Rows.folder : Rows → Option Str
  | .listing p => some p
  | .search root _ => some root
  | _ => none

/-- Why a listing is awaited. -/
inductive Why
  /-- Up, a reload, a link. -/
  | go (p : Str)
  /-- A folder that was opened, and that `navigateTo` was told of. -/
  | opened (p : Str)
  /-- Back or Forward. -/
  | visit (p : Str)
  /-- Behind the Home page. -/
  | quiet
  /-- The browser's own back. -/
  | popped (p : Str)
  /-- The end of an operation, for the folder it was started in. -/
  | opEnd (dir : Str)
  | tag (t : Str)
  | search (root q : Str)
  deriving DecidableEq

structure Listing where
  seq : ℕ
  /-- The tab in front when it was asked for. -/
  tab : ℕ
  why : Why
  deriving DecidableEq

structure Page where
  tabs : ℕ → Option Tab
  active : ℕ
  rows : Rows
  livePath : Str
  /-- The Home widgets are on screen. -/
  home : Bool
  pending : List Listing
  next : ℕ
  /-- The last navigation whose listing has not failed, and the folder it was to. -/
  last : ℕ
  folder : Option Str

/-- The tab in front changed. -/
def onTab (f : Tab → Tab) (st : Page) : Page :=
  match st.tabs st.active with
  | none => st
  | some t => { st with tabs := Function.update st.tabs st.active (some (f t)) }

/-- A place put after the one the tab is at, in the place of what followed. -/
def Tab.push (t : Tab) (e : Entry) : Tab :=
  let kept := t.history.take (t.idx + 1)
  { t with history := kept ++ [e], idx := kept.length }

/-- What `navigateTo` does to the tab. -/
def Tab.navigate (t : Tab) (path : Str) (isHome push : Bool) : Tab :=
  let here : Tab := { t with path := path, isHome := isHome }
  if push then here.push ⟨path, isHome⟩ else here

/-- `__syncActiveTab` -/
def Tab.sync (t : Tab) (path : Str) (push : Bool) : Tab :=
  let moved := if push && (t.history[t.idx]?).map (·.path) ≠ some path
    then t.push ⟨path, false⟩ else t
  { moved with path := path, isHome := false }

/-- The path that `navigateTo` gives the tab. -/
def place (path : Str) (isHome : Bool) : Str :=
  trim (if path = [] then (if isHome then m.homePath else "/".toList) else path)

/-- `navigateTo`. The page has no catalogue of its own, so the rows of a folder are cleared. -/
def navigateTo (path : Str) (isHome push : Bool) (st : Page) : Page :=
  let path := place m path isHome
  let st := onTab (·.navigate path isHome push) st
  { st with home := isHome, rows := if isHome then st.rows else .built path }

/-- A listing is asked for. -/
def ask (why : Why) (st : Page) : Page :=
  { st with pending := st.pending ++ [⟨st.next, st.active, why⟩], next := st.next + 1 }

/-- What `renderLive` does with the listing that has come. -/
def renderLive (path : Str) (push fromHistory : Bool) (st : Page) : Page :=
  let path := absolute m path
  let st : Page := { st with livePath := path, home := st.home && !push }
  let st := if st.home then st else onTab (·.sync path (push && !fromHistory)) st
  { st with rows := .listing path }

/-- The continuation of each request. -/
def arrive (why : Why) (st : Page) : Page :=
  match why with
  | .go p | .opened p | .opEnd p => renderLive m p true false st
  | .visit p => renderLive m p true true st
  | .quiet => renderLive m m.homePath false false st
  | .popped p => renderLive m p false false st
  | .tag t => { st with rows := .tag t }
  | .search root q => { st with rows := .search root q }

/-- The folder that is asked for; a tag has none. -/
def Why.folder : Why → Option Str
  | .go p | .opened p | .opEnd p | .visit p | .popped p => some (absolute m p)
  | .quiet => some (absolute m m.homePath)
  | .tag _ => none
  | .search root _ => some root

/-- The end of an operation is no navigation. -/
def Why.navigates : Why → Bool
  | .opEnd _ => false
  | _ => true

/-- The later of two navigations counts. -/
def mark (r : Listing) (st : Page) : Page :=
  if r.why.navigates ∧ st.last < r.seq then { st with last := r.seq, folder := r.why.folder m }
  else st

/-- The listing comes, or fails. -/
def reply (seq : ℕ) (ok : Bool) (st : Page) : Page :=
  match st.pending.find? (·.seq = seq) with
  | none => st
  | some r =>
    let st := { st with pending := st.pending.filter (·.seq ≠ seq) }
    if ok then arrive m r.why (mark m r st) else st

/-! ## What is asked for -/

/-- `__showHome` -/
def showHome (st : Page) : Page := ask .quiet (navigateTo m m.homePath true true st)

/-- `goLive` -/
def goLive (e : Entry) (st : Page) : Page :=
  if e.isHome then ask .quiet (navigateTo m e.path true false st) else ask (.visit e.path) st

/-- The step through the history, to the entry there. -/
def goNav (idx : ℕ) (t : Tab) (st : Page) : Page :=
  match t.history[idx]? with
  | none => st
  | some e => goLive m e (onTab (fun t => { t with idx := idx }) st)

def goNavBack (st : Page) : Page :=
  match st.tabs st.active with
  | none => st
  | some t => if 0 < t.idx then goNav m (t.idx - 1) t st else st

def goNavForward (st : Page) : Page :=
  match st.tabs st.active with
  | none => st
  | some t => if t.idx + 1 < t.history.length then goNav m (t.idx + 1) t st else st

def goNavUp (st : Page) : Page :=
  match st.tabs st.active with
  | none => st
  | some t =>
    if t.isHome then st else
    match liveParent m t.path with
    | none => st
    | some parent => if isHomePath m parent then showHome m st else ask (.go parent) st

/-- `switchTab`. No listing is asked for: the tab's folder is what is to be on screen. -/
def switchTab (id : ℕ) (st : Page) : Page :=
  match st.tabs id with
  | none => st
  | some t =>
    let st := navigateTo m t.path t.isHome false { st with active := id }
    { st with last := st.next, next := st.next + 1, folder := some (absolute m t.path) }

/-- A row or a link is opened: one listener tells the tab, another asks for the listing. -/
def openFolder (p : Str) (st : Page) : Page :=
  ask (.opened p) (navigateTo m p false true st)

inductive Event
  | render (p : Str) | openFolder (p : Str)
  | up | back | forward | home
  | popstate (p : Str) | opEnd (dir : Str) | tag (t : Str) | search (q : Str)
  | switch (id : ℕ)
  | reply (seq : ℕ) (ok : Bool)
  deriving DecidableEq

def step (st : Page) : Event → Page
  | .render p => ask (.go p) st
  | .openFolder p => openFolder m p st
  | .up => goNavUp m st
  | .back => goNavBack m st
  | .forward => goNavForward m st
  | .home => showHome m st
  | .popstate p => ask (.popped p) st
  | .opEnd dir => ask (.opEnd dir) st
  | .tag t => ask (.tag t) st
  | .search q => ask (.search st.livePath q) st
  | .switch id => switchTab m id st
  | .reply seq ok => reply m seq ok st

def run (st : Page) : List Event → Page
  | [] => st
  | e :: es => run (step m st e) es

/-! ## What should hold -/

/-- The tab is within its history. -/
def Tab.Ranged (t : Tab) : Prop := t.idx < t.history.length

/-- The entry the tab is at has the tab's path. -/
def Tab.At (t : Tab) : Prop := (t.history[t.idx]?).map (·.path) = some t.path

instance (t : Tab) : Decidable t.At := inferInstanceAs (Decidable (_ = _))

/-- The path names the folder, written out or as the home folder may be. -/
def Names (p : Str) (folder : Option Str) : Prop := folder = some p ∨ folder = some (absolute m p)

instance (p : Str) (folder : Option Str) : Decidable (Names m p folder) :=
  inferInstanceAs (Decidable (_ ∨ _))

/-- Rows, path and tab are of the folder of the last navigation whose listing has not failed. -/
def Good (st : Page) : Prop :=
  ∃ t, st.tabs st.active = some t ∧ t.At ∧ Names m t.path st.folder ∧
    st.rows.folder = st.folder ∧ some st.livePath = st.folder

/-- Once no listing is outstanding the page shows what was last asked for, and every tab is where
its history says; within its history it always is. -/
def Settled (st : Page) : Prop :=
  (∀ id t, st.tabs id = some t → t.Ranged) ∧
  (st.pending = [] → Good m st ∧ ∀ id t, st.tabs id = some t → t.At)

/-- A listing changes no other tab than the one it was asked for in, and the end of an operation
started in another folder changes nothing. -/
def Local (st : Page) (e : Event) : Prop :=
  ∀ seq ok, e = .reply seq ok → ∀ r ∈ st.pending, r.seq = seq →
    (∀ id, id ≠ r.tab → (step m st e).tabs id = st.tabs id) ∧
    ∀ dir, r.why = .opEnd dir → st.folder ≠ some (absolute m dir) →
      (step m st e).rows = st.rows ∧ (step m st e).livePath = st.livePath ∧
        (step m st e).tabs = st.tabs

/-- All of it, along a run. -/
def Follows (st : Page) : List Event → Prop
  | [] => Settled m st
  | e :: es => Settled m st ∧ Local m st e ∧ Follows (step m st e) es

/-! ## Which steps keep it -/

/-- Something is written before the listing comes, and owed to it. -/
def Why.owed : Why → Bool
  | .opened _ | .visit _ | .quiet => true
  | _ => false

/-- Nothing is owed to a listing that may still count. -/
def Paid (st : Page) : Prop := ∀ r ∈ st.pending, r.why.owed = true → r.seq ≤ st.last

/-- No step through the history is outstanding that was asked for after `seq`. -/
def NoVisit (seq : ℕ) (st : Page) : Prop :=
  ∀ r ∈ st.pending, seq < r.seq → ∀ p, r.why ≠ .visit p

/-- No Home page is outstanding that was asked for after `seq`. -/
def NoQuiet (seq : ℕ) (st : Page) : Prop := ∀ r ∈ st.pending, seq < r.seq → r.why ≠ .quiet

/-- The browser's own back is to where the tab is anyway. -/
def Stands (p : Str) (st : Page) : Prop :=
  ∃ t, st.tabs st.active = some t ∧
    if st.home then absolute m t.path = absolute m p
    else (t.history[t.idx]?).map (·.path) = some (absolute m p)

/-- A listing that may come: in the order of the requests, in its own tab, with no step through the
history or Home page asked for since. -/
def Welcome (r : Listing) (st : Page) : Prop :=
  r.tab = st.active ∧
  match r.why with
  | .go _ | .opened _ => st.last < r.seq ∧ NoVisit r.seq st ∧ NoQuiet r.seq st
  | .visit p => st.last < r.seq ∧ NoQuiet r.seq st ∧ absolute m p = p
  | .quiet => st.last < r.seq
  | .popped p => st.last < r.seq ∧ Paid st ∧ Stands m p st
  | .opEnd dir => st.folder = some (absolute m dir) ∧ NoVisit st.last st ∧ NoQuiet st.last st
  | .tag _ => False
  | .search root _ => st.last < r.seq ∧ Paid st ∧ st.folder = some root

/-- A listing that may fail: nothing is owed to it, or a later one has come. -/
def Spared (r : Listing) (st : Page) : Prop := r.why.owed = true → r.seq < st.last

/-- Listings come and fail only as they may, and tabs are switched between Home pages only. -/
def Calm (st : Page) : Event → Prop
  | .reply seq ok => ∀ r ∈ st.pending, r.seq = seq →
      (ok = true → Welcome m r st) ∧ (ok = false → Spared r st)
  | .switch id => ∀ t, st.tabs id = some t →
      t.isHome = true ∧ st.folder = some (absolute m m.homePath) ∧ Paid st
  | _ => True

def CalmRun (st : Page) : List Event → Prop
  | [] => True
  | e :: es => Calm m st e ∧ CalmRun (step m st e) es

/-! ## The invariant -/

/-- One of the ways a Home page is written. -/
def HomePath (p : Str) : Prop := place m p true = p ∧ absolute m p = absolute m m.homePath

/-- The tab knows Home only by such paths. -/
def Tab.HomesIn (t : Tab) : Prop :=
  (∀ e ∈ t.history, e.isHome = true → HomePath m e.path) ∧ (t.isHome = true → HomePath m t.path)

/-- What no step breaks. -/
structure Base (st : Page) : Prop where
  ranged : ∀ id t, st.tabs id = some t → t.Ranged
  homes : ∀ id t, st.tabs id = some t → t.HomesIn m
  others : ∀ id t, st.tabs id = some t → id ≠ st.active → t.At
  front : ∃ t, st.tabs st.active = some t
  fresh : ∀ r ∈ st.pending, r.seq < st.next
  last_lt : st.last < st.next
  nodup : (st.pending.map (·.seq)).Nodup

/-- A later listing is owed something. -/
def Owed (seq : ℕ) (st : Page) : Prop := ∃ r ∈ st.pending, r.why.owed = true ∧ seq < r.seq

/-- The history is at the path. -/
def AtPath (p : Str) (st : Page) : Prop :=
  ∃ t, st.tabs st.active = some t ∧ (t.history[t.idx]?).map (·.path) = some p

/-- Home is on screen. -/
def AtHome (st : Page) : Prop :=
  st.home = true ∧ ∃ t, st.tabs st.active = some t ∧ t.At ∧ absolute m t.path = absolute m m.homePath

/-- The page is good, or will be made good by a listing that is owed it; and what the listings of
Back, Forward and Home rely on is there until they come. -/
structure Inv (st : Page) : Prop extends Base m st where
  good : Good m st ∨ Owed st.last st
  visits : ∀ r ∈ st.pending, ∀ p, r.why = .visit p → st.last < r.seq → AtPath p st ∨ Owed r.seq st
  quiets : ∀ r ∈ st.pending, r.why = .quiet → st.last < r.seq → AtHome m st ∨ Owed r.seq st

variable {m}

/-! ## The tab in front -/

section

variable {t : Tab} {e : Entry} {st : Page}

theorem push_getElem? (t : Tab) (e : Entry) : (t.push e).history[(t.push e).idx]? = some e :=
  List.getElem?_concat_length

theorem push_ranged (t : Tab) (e : Entry) : (t.push e).Ranged :=
  (List.getElem?_eq_some_iff.1 (push_getElem? t e)).1

theorem mem_push {x : Entry} (h : x ∈ (t.push e).history) : x ∈ t.history ∨ x = e := by
  obtain h | h := List.mem_append.1 h
  · exact .inl (List.mem_of_mem_take h)
  · exact .inr (List.mem_singleton.1 h)

/-- After a listing that is a step of its own, the tab is at its path. -/
theorem sync_push_at (t : Tab) (path : Str) : (t.sync path true).At := by
  rw [Tab.sync, Bool.true_and]
  split_ifs with hne
  · exact congrArg (Option.map (·.path)) (push_getElem? t ⟨path, false⟩)
  · exact not_not.1 fun hx => hne (decide_eq_true hx)

theorem sync_false (path : Str) : t.sync path false = { t with path := path, isHome := false } := rfl

theorem sync_ranged (h : t.Ranged) (path : Str) (push : Bool) : (t.sync path push).Ranged := by
  rw [Tab.sync]
  split_ifs
  · exact push_ranged t _
  · exact h

theorem sync_homes (h : t.HomesIn m) (path : Str) (push : Bool) : (t.sync path push).HomesIn m := by
  refine ⟨?_, fun hhome => (by cases hhome)⟩
  rw [Tab.sync]
  split_ifs
  · intro x hx hhome
    obtain hx | rfl := mem_push hx
    · exact h.1 x hx hhome
    · cases hhome
  · exact h.1

theorem navigate_ranged (h : t.Ranged) (path : Str) (isHome push : Bool) :
    (t.navigate path isHome push).Ranged := by
  cases push
  · exact h
  · exact push_ranged { t with path := path, isHome := isHome } _

theorem navigate_homes (h : t.HomesIn m) {path : Str} {isHome : Bool} (push : Bool)
    (hpath : isHome = true → HomePath m path) : (t.navigate path isHome push).HomesIn m := by
  cases push
  · exact ⟨h.1, hpath⟩
  · refine ⟨fun x hx hhome => ?_, hpath⟩
    obtain hx | rfl := mem_push hx
    · exact h.1 x hx hhome
    · exact hpath hhome

theorem navigate_push_at (t : Tab) (path : Str) (isHome : Bool) :
    (t.navigate path isHome true).At :=
  congrArg (Option.map Entry.path)
    (push_getElem? { t with path := path, isHome := isHome } ⟨path, isHome⟩)

theorem onTab_eq (f : Tab → Tab) (h : st.tabs st.active = some t) :
    onTab f st = { st with tabs := Function.update st.tabs st.active (some (f t)) } := by
  rw [onTab, h]

theorem onTab_active (f : Tab → Tab) : (onTab f st).active = st.active := by
  rw [onTab]
  split <;> rfl

theorem onTab_tabs (f : Tab → Tab) (h : st.tabs st.active = some t) :
    (onTab f st).tabs st.active = some (f t) := by
  rw [onTab_eq f h]
  exact Function.update_self _ _ _

theorem onTab_front (f : Tab → Tab) (h : st.tabs st.active = some t) :
    (onTab f st).tabs (onTab f st).active = some (f t) := by
  rw [onTab_active]
  exact onTab_tabs f h

theorem onTab_of_ne (f : Tab → Tab) {id : ℕ} (h : id ≠ st.active) :
    (onTab f st).tabs id = st.tabs id := by
  rw [onTab]
  split
  · rfl
  · exact Function.update_of_ne h _ _

theorem Base.onTab (hb : Base m st) {f : Tab → Tab} (hf : ∀ t, st.tabs st.active = some t → (f t).Ranged)
    (hh : ∀ t, st.tabs st.active = some t → (f t).HomesIn m) : Base m (onTab f st) := by
  obtain ⟨t, ht⟩ := hb.front
  have htabs : ∀ id u, (Navigation.onTab f st).tabs id = some u →
      id = st.active ∧ u = f t ∨ id ≠ st.active ∧ st.tabs id = some u := by
    intro id u hu
    by_cases hid : id = st.active
    · subst hid
      rw [onTab_tabs f ht] at hu
      exact .inl ⟨rfl, (Option.some.inj hu).symm⟩
    · rw [onTab_of_ne f hid] at hu
      exact .inr ⟨hid, hu⟩
  have hrest : (Navigation.onTab f st).pending = st.pending ∧ (Navigation.onTab f st).next = st.next ∧
      (Navigation.onTab f st).last = st.last := by
    rw [onTab_eq f ht]
    exact ⟨rfl, rfl, rfl⟩
  refine {
    ranged := fun id u hu => ?_
    homes := fun id u hu => ?_
    others := fun id u hu hid => ?_
    front := ⟨f t, onTab_front f ht⟩
    fresh := by rw [hrest.1, hrest.2.1]; exact hb.fresh
    last_lt := by rw [hrest.2.1, hrest.2.2]; exact hb.last_lt
    nodup := by rw [hrest.1]; exact hb.nodup }
  · obtain ⟨-, rfl⟩ | ⟨-, hu⟩ := htabs id u hu
    · exact hf t ht
    · exact hb.ranged id u hu
  · obtain ⟨-, rfl⟩ | ⟨-, hu⟩ := htabs id u hu
    · exact hh t ht
    · exact hb.homes id u hu
  · rw [onTab_active] at hid
    obtain ⟨heq, -⟩ | ⟨-, hu⟩ := htabs id u hu
    · exact absurd heq hid
    · exact hb.others id u hu hid

/-! ## Asking -/

theorem mem_ask {why : Why} {r : Listing} (h : r ∈ (ask why st).pending) :
    r ∈ st.pending ∨ r = ⟨st.next, st.active, why⟩ :=
  (List.mem_append.1 h).imp_right List.mem_singleton.1

theorem Base.ask (hb : Base m st) (why : Why) : Base m (ask why st) where
  ranged := hb.ranged
  homes := hb.homes
  others := hb.others
  front := hb.front
  fresh r hr := by
    obtain hr | rfl := mem_ask hr
    · exact (hb.fresh r hr).trans (Nat.lt_succ_self _)
    · exact Nat.lt_succ_self _
  last_lt := hb.last_lt.trans (Nat.lt_succ_self _)
  nodup := by
    show ((st.pending ++ [(⟨st.next, st.active, why⟩ : Listing)]).map Listing.seq).Nodup
    rw [List.map_append, List.map_singleton, ← List.concat_eq_append]
    refine List.Nodup.concat (fun hmem => ?_) hb.nodup
    obtain ⟨r, hr, hseq⟩ := List.mem_map.1 hmem
    exact absurd hseq (hb.fresh r hr).ne

theorem Owed.ask {seq : ℕ} (h : Owed seq st) (why : Why) : Owed seq (ask why st) := by
  obtain ⟨r, hr, howed, hlt⟩ := h
  exact ⟨r, List.mem_append_left _ hr, howed, hlt⟩

/-- What is written before a listing comes is owed to it. -/
theorem inv_ask_owed (hb : Base m st) {why : Why} (howed : why.owed = true)
    (hv : ∀ p, why = .visit p → AtPath p st) (hq : why = .quiet → AtHome m st) :
    Inv m (ask why st) := by
  have hnew : (⟨st.next, st.active, why⟩ : Listing) ∈ (ask why st).pending :=
    List.mem_append_right _ (List.mem_singleton.2 rfl)
  have hlater : ∀ seq < st.next, Owed seq (ask why st) := fun seq hseq =>
    ⟨_, hnew, howed, hseq⟩
  refine { hb.ask why with
    good := .inr (hlater _ hb.last_lt)
    visits := fun r hr p hp _ => ?_
    quiets := fun r hr hp _ => ?_ }
  · obtain hr | rfl := mem_ask hr
    · exact .inr (hlater _ (hb.fresh r hr))
    · exact .inl (hv p hp)
  · obtain hr | rfl := mem_ask hr
    · exact .inr (hlater _ (hb.fresh r hr))
    · exact .inl (hq hp)

theorem inv_ask (hi : Inv m st) {why : Why} (hnot : why.owed = false) : Inv m (ask why st) := by
  refine { hi.toBase.ask why with
    good := hi.good.imp id fun h => h.ask why
    visits := fun r hr p hp hlt => ?_
    quiets := fun r hr hp hlt => ?_ }
  · obtain hr | rfl := mem_ask hr
    · exact (hi.visits r hr p hp hlt).imp id fun h => h.ask why
    · exact absurd (hp ▸ hnot : (Why.visit p).owed = false) fun h => (by cases h)
  · obtain hr | rfl := mem_ask hr
    · exact (hi.quiets r hr hp hlt).imp id fun h => h.ask why
    · exact absurd (hp ▸ hnot : Why.quiet.owed = false) (by decide)

theorem place_homePath : place m m.homePath true = m.homePath := by
  rw [place, if_pos rfl, ite_self, m.homePath_trim]

theorem homePath_homePath : HomePath m m.homePath := ⟨place_homePath, rfl⟩

theorem Base.navigateTo (hb : Base m st) {path : Str} {isHome : Bool} (push : Bool)
    (hhome : isHome = true → HomePath m path) : Base m (navigateTo m path isHome push st) := by
  have hbase := hb.onTab (f := fun t => t.navigate (place m path isHome) isHome push)
    (fun t ht => navigate_ranged (hb.ranged _ t ht) _ _ _) fun t ht => navigate_homes (hb.homes _ t ht) push
      fun h => by rw [h, (hhome h).1]; exact hhome h
  exact ⟨hbase.ranged, hbase.homes, hbase.others, hbase.front, hbase.fresh, hbase.last_lt,
    hbase.nodup⟩

theorem navigateTo_front {t : Tab} (ht : st.tabs st.active = some t) (path : Str)
    (isHome push : Bool) :
    (navigateTo m path isHome push st).tabs (navigateTo m path isHome push st).active =
      some (t.navigate (place m path isHome) isHome push) :=
  onTab_front _ ht

theorem navigateTo_rest (m : Machine) (st : Page) (path : Str) (isHome push : Bool) :
    (navigateTo m path isHome push st).pending = st.pending ∧
    (navigateTo m path isHome push st).next = st.next ∧
    (isHome = true → (navigateTo m path isHome push st).rows = st.rows) ∧
    (navigateTo m path isHome push st).livePath = st.livePath := by
  simp only [navigateTo, onTab]
  split <;> exact ⟨rfl, rfl, fun h => if_pos h, rfl⟩

theorem inv_openFolder (hi : Inv m st) (p : Str) : Inv m (openFolder m p st) :=
  inv_ask_owed (hi.toBase.navigateTo true fun h => by cases h) rfl (fun _ h => by cases h)
    fun h => by cases h

theorem inv_showHome (hi : Inv m st) : Inv m (showHome m st) := by
  refine inv_ask_owed (hi.toBase.navigateTo true fun _ => homePath_homePath) rfl
    (fun _ h => by cases h) fun _ => ⟨rfl, ?_⟩
  obtain ⟨t, ht⟩ := hi.front
  refine ⟨_, navigateTo_front ht _ _ _, navigate_push_at t _ _, ?_⟩
  exact congrArg (absolute m) place_homePath

theorem inv_goLive (hb : Base m st) {t : Tab} {e : Entry} (ht : st.tabs st.active = some t)
    (he : t.history[t.idx]? = some e) : Inv m (goLive m e st) := by
  have hmem : e ∈ t.history := List.mem_of_getElem? he
  rw [goLive]
  split_ifs with hhome
  · have hpath := (hb.homes _ t ht).1 e hmem hhome
    refine inv_ask_owed (hb.navigateTo false fun _ => hpath) rfl (fun _ h => by cases h)
      fun _ => ⟨rfl, _, navigateTo_front ht _ _ _, ?_, ?_⟩
    · show (t.history[t.idx]?).map (·.path) = some (place m e.path true)
      rw [he, hpath.1]
      rfl
    · show absolute m (place m e.path true) = _
      rw [hpath.1]
      exact hpath.2
  · refine inv_ask_owed hb rfl (fun p hp => ?_) fun h => by cases h
    obtain rfl : e.path = p := Why.visit.inj hp
    exact ⟨t, ht, by rw [he]; rfl⟩

theorem inv_goNav (hi : Inv m st) {t : Tab} (ht : st.tabs st.active = some t) (idx : ℕ) :
    Inv m (goNav m idx t st) := by
  rw [goNav]
  split
  · exact hi
  next e he =>
    have hlt : idx < t.history.length := (List.getElem?_eq_some_iff.1 he).1
    have hmoved := onTab_front (fun t : Tab => { t with idx := idx }) ht
    refine inv_goLive (hi.toBase.onTab (fun u hu => ?_) fun u hu => ?_) hmoved he
    · obtain rfl : t = u := Option.some.inj (ht.symm.trans hu)
      exact hlt
    · exact hi.homes _ u hu

theorem inv_goNavBack (hi : Inv m st) : Inv m (goNavBack m st) := by
  obtain ⟨t, ht⟩ := hi.front
  rw [goNavBack, ht]
  dsimp only
  split_ifs
  · exact inv_goNav hi ht _
  · exact hi

theorem inv_goNavForward (hi : Inv m st) : Inv m (goNavForward m st) := by
  obtain ⟨t, ht⟩ := hi.front
  rw [goNavForward, ht]
  dsimp only
  split_ifs
  · exact inv_goNav hi ht _
  · exact hi

theorem inv_goNavUp (hi : Inv m st) : Inv m (goNavUp m st) := by
  obtain ⟨t, ht⟩ := hi.front
  rw [goNavUp, ht]
  dsimp only
  split_ifs
  · exact hi
  split
  · exact hi
  · split_ifs
    · exact inv_showHome hi
    · exact inv_ask hi rfl

/-! ## Replies -/

/-- The page without the request. -/
def dropped (seq : ℕ) (st : Page) : Page :=
  { st with pending := st.pending.filter (·.seq ≠ seq) }

theorem mem_dropped {seq : ℕ} {r : Listing} :
    r ∈ (dropped seq st).pending ↔ r ∈ st.pending ∧ r.seq ≠ seq := by
  rw [dropped, List.mem_filter, decide_eq_true_eq]

theorem Base.dropped (hb : Base m st) (seq : ℕ) : Base m (dropped seq st) where
  ranged := hb.ranged
  homes := hb.homes
  others := hb.others
  front := hb.front
  fresh r hr := hb.fresh r (mem_dropped.1 hr).1
  last_lt := hb.last_lt
  nodup := hb.nodup.sublist (List.filter_sublist.map _)

theorem Base.eq_of_seq (hb : Base m st) {r r' : Listing} (hr : r ∈ st.pending)
    (hr' : r' ∈ st.pending) (h : r.seq = r'.seq) : r = r' :=
  List.inj_on_of_nodup_map hb.nodup hr hr' h

/-- What is owed to later requests stays owed. -/
theorem Owed.dropped {seq n : ℕ} (h : Owed n st) (hseq : seq ≤ n) : Owed n (dropped seq st) := by
  obtain ⟨r, hr, howed, hlt⟩ := h
  exact ⟨r, mem_dropped.2 ⟨hr, by omega⟩, howed, hlt⟩

theorem inv_fail (hi : Inv m st) {r : Listing} (hr : r ∈ st.pending) (hspared : Spared r st) :
    Inv m (dropped r.seq st) := by
  have howed : ∀ n, st.last ≤ n → Owed n st → Owed n (dropped r.seq st) := by
    rintro n hn ⟨r', hr', howed, hlt⟩
    refine ⟨r', mem_dropped.2 ⟨hr', fun heq => ?_⟩, howed, hlt⟩
    obtain rfl := hi.eq_of_seq hr' hr heq
    have := hspared howed
    omega
  refine { hi.toBase.dropped r.seq with
    good := hi.good.imp id (howed _ le_rfl)
    visits := fun r' hr' p hp hlt => ?_
    quiets := fun r' hr' hp hlt => ?_ }
  · exact (hi.visits r' (mem_dropped.1 hr').1 p hp hlt).imp id (howed _ (le_of_lt hlt))
  · exact (hi.quiets r' (mem_dropped.1 hr').1 hp hlt).imp id (howed _ (le_of_lt hlt))

theorem mark_navigates {r : Listing} (hnav : r.why.navigates = true) (h : st.last < r.seq) :
    mark m r st = { st with last := r.seq, folder := r.why.folder m } :=
  if_pos ⟨hnav, h⟩

theorem mark_opEnd {r : Listing} {dir : Str} (h : r.why = .opEnd dir) : mark m r st = st :=
  if_neg fun hx => by simp [h, Why.navigates] at hx

/-- What a listing that comes is written into: the request is gone, and its folder is the last. -/
def marked (m : Machine) (r : Listing) (st : Page) : Page :=
  { dropped r.seq st with last := r.seq, folder := r.why.folder m }

theorem Base.marked (hb : Base m st) {r : Listing} (hr : r ∈ st.pending) : Base m (marked m r st) :=
  have hd := hb.dropped r.seq
  ⟨hd.ranged, hd.homes, hd.others, hd.front, hd.fresh, hb.fresh r hr, hd.nodup⟩

theorem renderLive_rest (m : Machine) (st : Page) (path : Str) (push fromHistory : Bool) :
    (renderLive m path push fromHistory st).pending = st.pending ∧
    (renderLive m path push fromHistory st).last = st.last ∧
    (renderLive m path push fromHistory st).folder = st.folder ∧
    (renderLive m path push fromHistory st).active = st.active ∧
    (renderLive m path push fromHistory st).next = st.next := by
  simp only [renderLive, onTab]
  split
  · exact ⟨rfl, rfl, rfl, rfl, rfl⟩
  · split <;> exact ⟨rfl, rfl, rfl, rfl, rfl⟩

theorem Base.renderLive (hb : Base m st) (path : Str) (push fromHistory : Bool) :
    Base m (renderLive m path push fromHistory st) := by
  have hset : Base m { st with livePath := absolute m path, home := st.home && !push } :=
    ⟨hb.ranged, hb.homes, hb.others, hb.front, hb.fresh, hb.last_lt, hb.nodup⟩
  have hsync := hset.onTab (f := fun t => t.sync (absolute m path) (push && !fromHistory))
    (fun t ht => sync_ranged (hset.ranged _ t ht) _ _) fun t ht => sync_homes (hset.homes _ t ht) _ _
  rw [Navigation.renderLive]
  dsimp only
  split_ifs
  · exact ⟨hset.ranged, hset.homes, hset.others, hset.front, hset.fresh, hset.last_lt, hset.nodup⟩
  · exact ⟨hsync.ranged, hsync.homes, hsync.others, hsync.front, hsync.fresh, hsync.last_lt,
      hsync.nodup⟩

section

variable {path : Str} {push fromHistory : Bool} {t : Tab}

theorem renderLive_livePath : (renderLive m path push fromHistory st).livePath = absolute m path := by
  simp only [renderLive, onTab]
  split
  · rfl
  · split <;> rfl

theorem renderLive_sync (m : Machine) (path : Str) (push fromHistory : Bool)
    (ht : st.tabs st.active = some t) (h : (st.home && !push) = false) :
    (renderLive m path push fromHistory st).tabs st.active =
      some (t.sync (absolute m path) (push && !fromHistory)) := by
  rw [renderLive]
  dsimp only
  rw [if_neg (by rw [h]; exact Bool.false_ne_true)]
  exact onTab_tabs _ ht

theorem renderLive_home (m : Machine) (path : Str) (push fromHistory : Bool)
    (h : (st.home && !push) = true) :
    (renderLive m path push fromHistory st).tabs = st.tabs ∧
      (renderLive m path push fromHistory st).home = true := by
  rw [renderLive]
  dsimp only
  rw [if_pos h]
  exact ⟨rfl, h⟩

/-- The listing of its own step makes the page good. -/
theorem good_step (hb : Base m st) (hfolder : st.folder = some (absolute m path)) :
    Good m (renderLive m path true false st) := by
  obtain ⟨t, ht⟩ := hb.front
  obtain ⟨-, -, hf, ha, -⟩ := renderLive_rest m st path true false
  refine ⟨t.sync (absolute m path) true, ?_, sync_push_at t _, .inl ?_, ?_, ?_⟩
  · rw [ha]
    exact renderLive_sync m path true false ht (by rw [Bool.not_true, Bool.and_false])
  · exact hf.trans hfolder
  · exact (hf.trans hfolder).symm
  · rw [renderLive_livePath, hf, hfolder]

end

/-- No request of the rest counts on what the listing overwrites. -/
theorem inv_step {path : Str} (hb : Base m st) (hfolder : st.folder = some (absolute m path))
    (hvisit : NoVisit st.last st) (hquiet : NoQuiet st.last st) :
    Inv m (renderLive m path true false st) := by
  obtain ⟨hp, hl, -, -, -⟩ := renderLive_rest m st path true false
  refine { hb.renderLive path true false with
    good := .inl (good_step hb hfolder)
    visits := fun r hr p hwhy hlt => ?_
    quiets := fun r hr hwhy hlt => ?_ }
  · rw [hp] at hr
    rw [hl] at hlt
    exact absurd hwhy (hvisit r hr hlt p)
  · rw [hp] at hr
    rw [hl] at hlt
    exact absurd hwhy (hquiet r hr hlt)

theorem Owed.marked {n : ℕ} {r : Listing} (h : Owed n st) (hn : r.seq ≤ n) :
    Owed n (marked m r st) := h.dropped hn

theorem mem_marked {r r' : Listing} (h : r' ∈ (marked m r st).pending) : r' ∈ st.pending :=
  (mem_dropped.1 h).1

/-- A listing of Back or Forward makes the page good, where the history is at its path. -/
theorem inv_visit (hi : Inv m st) {r : Listing} (hr : r ∈ st.pending) {p : Str}
    (hwhy : r.why = .visit p) (hlt : st.last < r.seq) (hquiet : NoQuiet r.seq st)
    (hp : absolute m p = p) : Inv m (renderLive m p true true (marked m r st)) := by
  have hb := hi.toBase.marked hr
  obtain ⟨hpend, hlast, hfolder, hact, -⟩ := renderLive_rest m (marked m r st) p true true
  obtain ⟨t, ht⟩ := hb.front
  have hfront := renderLive_sync m p true true ht (by rw [Bool.not_true, Bool.and_false])
  have howed : ∀ n, r.seq ≤ n → Owed n st → Owed n (renderLive m p true true (marked m r st)) := by
    intro n hn h
    obtain ⟨r', hr', h'⟩ := h.marked (m := m) hn
    exact ⟨r', by rw [hpend]; exact hr', h'⟩
  have hname : (marked m r st).folder = some (absolute m p) := by rw [marked, hwhy]; rfl
  refine { hb.renderLive p true true with
    good := ?_, visits := fun r' hr' q hq hlt' => ?_, quiets := fun r' hr' hq hlt' => ?_ }
  · obtain ⟨u, hu, hat⟩ | h := hi.visits r hr p hwhy hlt
    · obtain rfl : t = u := Option.some.inj (ht.symm.trans hu)
      refine .inl ⟨_, by rw [hact]; exact hfront, ?_, .inl ?_, ?_, ?_⟩
      · exact hat.trans (congrArg some hp.symm)
      · exact hfolder.trans hname
      · exact (hfolder.trans hname).symm
      · rw [renderLive_livePath, hfolder, hname]
    · rw [hlast]
      exact .inr (howed _ le_rfl h)
  · rw [hpend] at hr'
    rw [hlast] at hlt'
    obtain ⟨u, hu, hat⟩ | h := hi.visits r' (mem_marked hr') q hq (hlt.trans hlt')
    · obtain rfl : t = u := Option.some.inj (ht.symm.trans hu)
      exact .inl ⟨t.sync (absolute m p) false, by rw [hact]; exact hfront, hat⟩
    · exact .inr (howed _ hlt'.le h)
  · rw [hpend] at hr'
    rw [hlast] at hlt'
    exact absurd hq (hquiet r' (mem_marked hr') hlt')

/-- The listing behind Home makes the page good, where Home is on screen. -/
theorem inv_quiet (hi : Inv m st) {r : Listing} (hr : r ∈ st.pending) (hwhy : r.why = .quiet)
    (hlt : st.last < r.seq) : Inv m (renderLive m m.homePath false false (marked m r st)) := by
  have hb := hi.toBase.marked hr
  obtain ⟨hpend, hlast, hfolder, hact, -⟩ :=
    renderLive_rest m (marked m r st) m.homePath false false
  obtain ⟨t, ht⟩ := hb.front
  have howed : ∀ n, r.seq ≤ n → Owed n st →
      Owed n (renderLive m m.homePath false false (marked m r st)) := by
    intro n hn h
    obtain ⟨r', hr', h'⟩ := h.marked (m := m) hn
    exact ⟨r', by rw [hpend]; exact hr', h'⟩
  have hname : (marked m r st).folder = some (absolute m m.homePath) := by rw [marked, hwhy]; rfl
  have hhome : ∀ h : AtHome m st,
      (renderLive m m.homePath false false (marked m r st)).tabs = st.tabs ∧
      (renderLive m m.homePath false false (marked m r st)).home = true := fun h =>
    renderLive_home m m.homePath false false (by rw [Bool.not_false, Bool.and_true]; exact h.1)
  refine { hb.renderLive m.homePath false false with
    good := ?_, visits := fun r' hr' q hq hlt' => ?_, quiets := fun r' hr' hq hlt' => ?_ }
  · obtain h | h := hi.quiets r hr hwhy hlt
    · obtain ⟨-, u, hu, hat, habs⟩ := id h
      refine .inl ⟨u, by rw [hact, (hhome h).1]; exact hu, hat, .inr ?_, ?_, ?_⟩
      · rw [hfolder, hname, habs]
      · exact (hfolder.trans hname).symm
      · rw [renderLive_livePath, hfolder, hname]
    · rw [hlast]
      exact .inr (howed _ le_rfl h)
  · rw [hpend] at hr'
    rw [hlast] at hlt'
    obtain ⟨u, hu, hat⟩ | h := hi.visits r' (mem_marked hr') q hq (hlt.trans hlt')
    · -- the history is as it was, whether Home is on screen or not
      obtain rfl : t = u := Option.some.inj (ht.symm.trans hu)
      cases hh : st.home
      · have hfront := renderLive_sync m m.homePath false false ht
          (by rw [Bool.not_false, Bool.and_true]; exact hh)
        exact .inl ⟨t.sync (absolute m m.homePath) false, by rw [hact]; exact hfront, hat⟩
      · have htabs := (renderLive_home m m.homePath false false
          (by rw [Bool.not_false, Bool.and_true]; exact hh : ((marked m r st).home && !false) = true)).1
        exact .inl ⟨t, by rw [hact, htabs]; exact ht, hat⟩
    · exact .inr (howed _ hlt'.le h)
  · rw [hpend] at hr'
    rw [hlast] at hlt'
    obtain h | h := hi.quiets r' (mem_marked hr') hq (hlt.trans hlt')
    · obtain ⟨-, u, hu, hat, habs⟩ := id h
      exact .inl ⟨(hhome h).2, u, by rw [hact, (hhome h).1]; exact hu, hat, habs⟩
    · exact .inr (howed _ hlt'.le h)

/-- Where nothing is owed, the page is good. -/
theorem Inv.paid (hi : Inv m st) (hpaid : Paid st) : Good m st := by
  obtain h | ⟨r, hr, howed, hlt⟩ := hi.good
  · exact h
  · exact absurd hlt (not_lt.2 (hpaid r hr howed))

/-- Nothing counts on what a listing overwrites, where nothing is owed. -/
theorem Paid.vacuous (hpaid : Paid st) {n : ℕ} (hn : st.last ≤ n) :
    NoVisit n st ∧ NoQuiet n st := by
  constructor
  · intro r hr hlt p hwhy
    have := hpaid r hr (by rw [hwhy]; rfl)
    omega
  · intro r hr hlt hwhy
    have := hpaid r hr (by rw [hwhy]; rfl)
    omega

theorem inv_popped (hi : Inv m st) {r : Listing} (hr : r ∈ st.pending) {p : Str}
    (hwhy : r.why = .popped p) (hlt : st.last < r.seq) (hpaid : Paid st) (hstands : Stands m p st) :
    Inv m (renderLive m p false false (marked m r st)) := by
  have hb := hi.toBase.marked hr
  obtain ⟨hpend, hlast, hfolder, hact, -⟩ := renderLive_rest m (marked m r st) p false false
  obtain ⟨hvisit, hquiet⟩ := hpaid.vacuous hlt.le
  have hname : (marked m r st).folder = some (absolute m p) := by rw [marked, hwhy]; rfl
  refine { hb.renderLive p false false with
    good := .inl ?_, visits := fun r' hr' q hq hlt' => ?_, quiets := fun r' hr' hq hlt' => ?_ }
  · obtain ⟨t, ht, hat, -⟩ := hi.paid hpaid
    obtain ⟨u, hu, hplace⟩ := hstands
    obtain rfl : t = u := Option.some.inj (ht.symm.trans hu)
    have hrows : (renderLive m p false false (marked m r st)).rows.folder =
        (renderLive m p false false (marked m r st)).folder := (hfolder.trans hname).symm
    have hlive : some (renderLive m p false false (marked m r st)).livePath =
        (renderLive m p false false (marked m r st)).folder := by
      rw [renderLive_livePath, hfolder, hname]
    cases hh : st.home
    · rw [hh, if_neg Bool.false_ne_true] at hplace
      have hact' : (marked m r st).tabs (marked m r st).active = some t := ht
      have hfront := renderLive_sync m p false false hact'
        (by rw [Bool.not_false, Bool.and_true]; exact hh)
      exact ⟨t.sync (absolute m p) false, by rw [hact]; exact hfront, hplace,
        .inl (hfolder.trans hname), hrows, hlive⟩
    · rw [hh, if_pos rfl] at hplace
      have htabs := (renderLive_home m p false false
        (by rw [Bool.not_false, Bool.and_true]; exact hh : ((marked m r st).home && !false) = true)).1
      exact ⟨t, by rw [hact, htabs]; exact ht, hat, .inr (by rw [hfolder, hname, hplace]),
        hrows, hlive⟩
  · rw [hpend] at hr'
    rw [hlast] at hlt'
    exact absurd hq (hvisit r' (mem_marked hr') hlt' q)
  · rw [hpend] at hr'
    rw [hlast] at hlt'
    exact absurd hq (hquiet r' (mem_marked hr') hlt')

theorem inv_search (hi : Inv m st) {r : Listing} (hr : r ∈ st.pending) {root q : Str}
    (hwhy : r.why = .search root q) (hlt : st.last < r.seq) (hpaid : Paid st)
    (hroot : st.folder = some root) :
    Inv m { marked m r st with rows := .search root q } := by
  have hb := hi.toBase.marked hr
  obtain ⟨hvisit, hquiet⟩ := hpaid.vacuous hlt.le
  have hname : (marked m r st).folder = some root := by rw [marked, hwhy]; rfl
  refine {
    ranged := hb.ranged, homes := hb.homes, others := hb.others, front := hb.front
    fresh := hb.fresh, last_lt := hb.last_lt, nodup := hb.nodup
    good := .inl ?_
    visits := fun r' hr' p hp hlt' => absurd hp (hvisit r' (mem_dropped.1 hr').1 hlt' p)
    quiets := fun r' hr' hp hlt' => absurd hp (hquiet r' (mem_dropped.1 hr').1 hlt') }
  obtain ⟨t, ht, hat, hnames, -, hlive⟩ := hi.paid hpaid
  rw [hroot] at hnames hlive
  exact ⟨t, ht, hat, by rw [Names, hname]; exact hnames, hname.symm, hlive.trans hname.symm⟩

/-- **A listing that is welcome keeps the invariant.** -/
theorem inv_arrive (hi : Inv m st) {r : Listing} (hr : r ∈ st.pending) (hwelcome : Welcome m r st) :
    Inv m (arrive m r.why (mark m r (dropped r.seq st))) := by
  obtain ⟨-, hwelcome⟩ := hwelcome
  have hmark : r.why.navigates = true → st.last < r.seq →
      mark m r (dropped r.seq st) = marked m r st := fun hnav hlt => mark_navigates hnav hlt
  have hrest : ∀ {n}, NoVisit n st → NoQuiet n st → NoVisit n (marked m r st) ∧
      NoQuiet n (marked m r st) := fun hv hq =>
    ⟨fun r' hr' => hv r' (mem_marked hr'), fun r' hr' => hq r' (mem_marked hr')⟩
  have hstep : ∀ p, r.why.folder m = some (absolute m p) → NoVisit r.seq st → NoQuiet r.seq st →
      Inv m (renderLive m p true false (marked m r st)) := fun p hfolder hv hq =>
    inv_step (hi.toBase.marked hr) hfolder (hrest hv hq).1 (hrest hv hq).2
  cases hwhy : r.why with
  | go p =>
    rw [hwhy] at hwelcome
    rw [hmark (by rw [hwhy]; rfl) hwelcome.1]
    exact hstep p (by rw [hwhy]; rfl) hwelcome.2.1 hwelcome.2.2
  | opened p =>
    rw [hwhy] at hwelcome
    rw [hmark (by rw [hwhy]; rfl) hwelcome.1]
    exact hstep p (by rw [hwhy]; rfl) hwelcome.2.1 hwelcome.2.2
  | visit p =>
    rw [hwhy] at hwelcome
    rw [hmark (by rw [hwhy]; rfl) hwelcome.1]
    exact inv_visit hi hr hwhy hwelcome.1 hwelcome.2.1 hwelcome.2.2
  | quiet =>
    rw [hwhy] at hwelcome
    rw [hmark (by rw [hwhy]; rfl) hwelcome]
    exact inv_quiet hi hr hwhy hwelcome
  | popped p =>
    rw [hwhy] at hwelcome
    rw [hmark (by rw [hwhy]; rfl) hwelcome.1]
    exact inv_popped hi hr hwhy hwelcome.1 hwelcome.2.1 hwelcome.2.2
  | opEnd dir =>
    rw [hwhy] at hwelcome
    obtain ⟨hfolder, hv, hq⟩ := hwelcome
    rw [mark_opEnd hwhy]
    exact inv_step (hi.toBase.dropped r.seq) hfolder
      (fun r' hr' => hv r' (mem_dropped.1 hr').1) fun r' hr' => hq r' (mem_dropped.1 hr').1
  | tag t =>
    rw [hwhy] at hwelcome
    exact hwelcome.elim
  | search root q =>
    rw [hwhy] at hwelcome
    rw [hmark (by rw [hwhy]; rfl) hwelcome.1]
    exact inv_search hi hr hwhy hwelcome.1 hwelcome.2.1 hwelcome.2.2

theorem reply_cases (m : Machine) (seq : ℕ) (ok : Bool) (st : Page) :
    reply m seq ok st = st ∨ ∃ r ∈ st.pending, r.seq = seq ∧ reply m seq ok st =
      if ok then arrive m r.why (mark m r (dropped r.seq st)) else dropped r.seq st := by
  rw [reply]
  split
  · exact .inl rfl
  next r hfind =>
    have hseq : r.seq = seq := by simpa using List.find?_some hfind
    exact .inr ⟨r, List.mem_of_find?_eq_some hfind, hseq, by rw [hseq]; rfl⟩

theorem inv_reply (hi : Inv m st) {seq : ℕ} {ok : Bool} (hcalm : Calm m st (.reply seq ok)) :
    Inv m (reply m seq ok st) := by
  obtain h | ⟨r, hr, hseq, h⟩ := reply_cases m seq ok st
  · rw [h]
    exact hi
  · rw [h]
    obtain ⟨hwelcome, hspared⟩ := hcalm r hr hseq
    cases ok
    · exact inv_fail hi hr (hspared rfl)
    · exact inv_arrive hi hr (hwelcome rfl)

/-! ## Switching -/

theorem inv_switchTab (hi : Inv m st) {id : ℕ} (hcalm : Calm m st (.switch id)) :
    Inv m (switchTab m id st) := by
  rw [switchTab]
  split
  · exact hi
  next t ht =>
    obtain ⟨hhome, hfolder, hpaid⟩ := hcalm t ht
    obtain ⟨u, hu, hat, -, hrows, hlive⟩ := hi.paid hpaid
    have hpath := (hi.homes _ t ht).2 hhome
    have hplace : place m t.path t.isHome = t.path := by rw [hhome]; exact hpath.1
    -- both the tab that is left and the one that comes are where their history says
    have hats : ∀ id' t', st.tabs id' = some t' → t'.At := fun id' t' ht' => by
      by_cases h : id' = st.active
      · subst h
        obtain rfl : u = t' := Option.some.inj (hu.symm.trans ht')
        exact hat
      · exact hi.others id' t' ht' h
    have hb : Base m { st with active := id } :=
      ⟨hi.ranged, hi.homes, fun id' t' ht' _ => hats id' t' ht', ⟨t, ht⟩, hi.fresh, hi.last_lt,
        hi.nodup⟩
    have hnav : Base m (navigateTo m t.path t.isHome false { st with active := id }) :=
      hb.navigateTo false fun _ => hpath
    obtain ⟨-, -, hrows', hlive'⟩ :=
      navigateTo_rest m { st with active := id } t.path t.isHome false
    have hact : { st with active := id }.tabs { st with active := id }.active = some t := ht
    have hfront := navigateTo_front (m := m) hact t.path t.isHome false
    refine {
      ranged := hnav.ranged, homes := hnav.homes, others := hnav.others, front := hnav.front
      fresh := fun r hr => ?_, last_lt := ?_, nodup := hnav.nodup
      good := .inl ⟨_, hfront, ?_, .inr ?_, ?_, ?_⟩
      visits := fun r hr p hwhy hlt => ?_
      quiets := fun r hr hwhy hlt => ?_ }
    · exact (hnav.fresh r hr).trans (Nat.lt_succ_self _)
    · exact Nat.lt_succ_self _
    · exact (hats id t ht).trans (congrArg some hplace.symm)
    · exact congrArg (fun p => some (absolute m p)) hplace.symm
    · refine (congrArg Rows.folder (hrows' hhome)).trans ?_
      exact hrows.trans (hfolder.trans (congrArg some hpath.2.symm))
    · refine (congrArg some hlive').trans ?_
      exact hlive.trans (hfolder.trans (congrArg some hpath.2.symm))
    · exact absurd hlt (not_lt.2 (hnav.fresh r hr).le)
    · exact absurd hlt (not_lt.2 (hnav.fresh r hr).le)

theorem inv_step_event (hi : Inv m st) {e : Event} (hcalm : Calm m st e) : Inv m (step m st e) := by
  cases e with
  | render p => exact inv_ask hi rfl
  | openFolder p => exact inv_openFolder hi p
  | up => exact inv_goNavUp hi
  | back => exact inv_goNavBack hi
  | forward => exact inv_goNavForward hi
  | home => exact inv_showHome hi
  | popstate p => exact inv_ask hi rfl
  | opEnd dir => exact inv_ask hi rfl
  | tag t => exact inv_ask hi rfl
  | search q => exact inv_ask hi rfl
  | switch id => exact inv_switchTab hi hcalm
  | reply seq ok => exact inv_reply hi hcalm

/-! ## Runs -/

theorem Inv.settled (hi : Inv m st) : Settled m st := by
  refine ⟨hi.ranged, fun hnone => ?_⟩
  have hgood : Good m st := hi.paid fun r hr => by simp [hnone] at hr
  refine ⟨hgood, fun id t ht => ?_⟩
  by_cases hid : id = st.active
  · subst hid
    obtain ⟨u, hu, hat, -⟩ := hgood
    obtain rfl : u = t := Option.some.inj (hu.symm.trans ht)
    exact hat
  · exact hi.others id t ht hid

theorem renderLive_other (m : Machine) (st : Page) (path : Str) (push fromHistory : Bool) {id : ℕ}
    (h : id ≠ st.active) : (renderLive m path push fromHistory st).tabs id = st.tabs id := by
  simp only [renderLive]
  split
  · rfl
  · exact onTab_of_ne _ h

theorem arrive_other (m : Machine) (st : Page) (why : Why) {id : ℕ} (h : id ≠ st.active) :
    (arrive m why st).tabs id = st.tabs id := by
  cases why with
  | tag t => rfl
  | search root q => rfl
  | _ => exact renderLive_other m st _ _ _ h

theorem mark_front (m : Machine) (r : Listing) (st : Page) :
    (mark m r st).tabs = st.tabs ∧ (mark m r st).active = st.active := by
  rw [mark]
  split_ifs <;> exact ⟨rfl, rfl⟩

theorem local_of_calm (hi : Inv m st) {e : Event} (hcalm : Calm m st e) : Local m st e := by
  rintro seq ok rfl r hr hseq
  have hboth := hcalm r hr hseq
  obtain h | ⟨r', hr', hseq', h⟩ := reply_cases m seq ok st
  · rw [step, h]
    exact ⟨fun _ _ => rfl, fun _ _ _ => ⟨rfl, rfl, rfl⟩⟩
  · obtain rfl := hi.eq_of_seq hr hr' (hseq.trans hseq'.symm)
    rw [step, h]
    cases ok
    · exact ⟨fun _ _ => rfl, fun _ _ _ => ⟨rfl, rfl, rfl⟩⟩
    · obtain ⟨htab, hwelcome⟩ := hboth.1 rfl
      have hfront := mark_front m r (dropped r.seq st)
      refine ⟨fun id hid => ?_, fun dir hdir hne => ?_⟩
      · rw [htab] at hid
        exact (arrive_other m _ r.why (hfront.2 ▸ hid)).trans (congrFun hfront.1 id)
      · rw [hdir] at hwelcome
        exact absurd hwelcome.1 hne

/-- A page that has come to rest. -/
structure Start (m : Machine) (st : Page) : Prop extends Base m st where
  good : Good m st
  none : st.pending = []

theorem Start.inv (h : Start m st) : Inv m st :=
  { h.toBase with
    good := .inl h.good
    visits := fun r hr => by simp [h.none] at hr
    quiets := fun r hr => by simp [h.none] at hr }

theorem inv_follows (es : List Event) : ∀ st, Inv m st → CalmRun m st es → Follows m st es := by
  induction es with
  | nil => exact fun st hi _ => hi.settled
  | cons e es ih =>
    intro st hi hrun
    exact ⟨hi.settled, local_of_calm hi hrun.1, ih _ (inv_step_event hi hrun.1) hrun.2⟩

end

def house : Machine := ⟨"/h".toList, "/h".toList, by decide⟩

/-- One tab, in the folder `/a`. -/
def front : Page where
  tabs id := if id = 0 then some ⟨"/a".toList, false, [⟨"/a".toList, false⟩], 0⟩ else none
  active := 0
  rows := .listing "/a".toList
  livePath := "/a".toList
  home := false
  pending := []
  next := 1
  last := 0
  folder := some "/a".toList

theorem front_start : Start house front := by
  have honly : ∀ id t, front.tabs id = some t →
      id = 0 ∧ t = ⟨"/a".toList, false, [⟨"/a".toList, false⟩], 0⟩ := by
    intro id t ht
    by_cases hid : id = 0
    · exact ⟨hid, (Option.some.inj (ht.symm.trans (if_pos hid)))⟩
    · exact absurd (ht.symm.trans (if_neg hid)) (Option.some_ne_none t)
  refine {
    ranged := fun id t ht => ?_
    homes := fun id t ht => ?_
    others := fun id t ht hid => absurd (honly id t ht).1 hid
    front := ⟨_, rfl⟩
    fresh := fun r hr => (List.not_mem_nil hr).elim
    last_lt := Nat.one_pos
    nodup := List.nodup_nil
    good := ⟨_, rfl, rfl, .inl rfl, rfl, rfl⟩
    none := rfl }
  · rw [(honly id t ht).2]
    exact Nat.one_pos
  · rw [(honly id t ht).2]
    refine ⟨fun e he hhome => ?_, fun h => (by cases h)⟩
    rw [List.mem_singleton.1 he] at hhome
    cases hhome

end Aurade.Files.Navigation
