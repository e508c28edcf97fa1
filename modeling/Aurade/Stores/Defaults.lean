import Aurade.Stores.Editing

/-!
# The default of a type, read back

`read_mimeapps` merges what the lists say in their order; `default_for` is the first application of a
type that is not removed and can run. `setDefault` changes the registry in memory and the user's list,
and the two changes are compared here: `upsertDefault` puts the application first among the answers
of the user's list and leaves every other answer of it (`defaults_upsertLines`), but no line of
`[Removed Associations]` goes.

An application whose id no list can hold (`Writable`) is chosen in memory only.
-/

namespace Aurade.Stores

open Fs

/-! ## The registry, loaded -/

/-- The applications under a type. -/
def idsOf (m : Std.ExtTreeMap Bytes (List Bytes)) (mime : Bytes) : List Bytes := m[mime]?.getD []

/-- `entry(mime).or_default().extend(ids)`, for all lines of a section. -/
def extendAll (m : Std.ExtTreeMap Bytes (List Bytes)) (es : List (Bytes × List Bytes)) :
    Std.ExtTreeMap Bytes (List Bytes) :=
  es.foldl (fun m e => m.insert e.1 (idsOf m e.1 ++ e.2)) m

/-- The name of the section of the removals. -/
def removedSection : Bytes := text "Removed Associations"

namespace Registry

variable {Entry : Type}

/-- `read_mimeapps`, as far as the defaults go. -/
def readMimeapps (r : Registry Entry) (list : Option Text) : Registry Entry :=
  match list with
  | none => r
  | some list =>
    { r with
      defaults := extendAll r.defaults (parseMimeSection list.val defaultSection)
      removed := extendAll r.removed (parseMimeSection list.val removedSection) }

/-- `load`, of the applications there are and the lists in their order. -/
def load (entries : Std.ExtTreeMap Bytes Entry) (lists : List (Option Text)) : Registry Entry :=
  lists.foldl readMimeapps { entries, defaults := ∅, removed := ∅ }

def isRemoved (r : Registry Entry) (mime id : Bytes) : Bool := (idsOf r.removed mime).contains id

/-- An application of a type and what is known of it, where it is not removed and can run. -/
def offers (runnable : Entry → Bool) (r : Registry Entry) (mime id : Bytes) :
    Option (Bytes × Entry) :=
  if r.isRemoved mime id then none else (r.entries[id]?.filter runnable).map fun e => (id, e)

/-- `default_for`. -/
def defaultFor (runnable : Entry → Bool) (r : Registry Entry) (mime : Bytes) :
    Option (Bytes × Entry) :=
  (idsOf r.defaults mime).findSome? (r.offers runnable mime)

end Registry

/-! ## Types and applications -/

/-- A letter or a digit. -/
def isAlnum (b : UInt8) : Bool := (65 ≤ b && b ≤ 90) || (97 ≤ b && b ≤ 122) || isDigit b

/-- A mime type: printable ASCII with no equals sign, and a letter or a digit first. -/
structure MimeType where
  val : Bytes
  first : val.head?.any isAlnum = true
  printable : ∀ b ∈ val, 33 ≤ b ∧ b ≤ 126 ∧ b ≠ 61

theorem solid_of_printable (b : UInt8) : 33 ≤ b → b ≤ 126 → Solid b := by
  revert b
  exact forall_byte (by decide +kernel)

theorem ne_of_alnum (b : UInt8) : isAlnum b = true → b ≠ 91 ∧ b ≠ 35 := by
  revert b
  exact forall_byte (by decide +kernel)

namespace MimeType

variable (mime : MimeType)

theorem solid : ∀ b ∈ mime.val, Solid b := fun b hb =>
  solid_of_printable b (mime.printable b hb).1 (mime.printable b hb).2.1

theorem trim : trimBytes mime.val = mime.val := trimBytes_solid mime.solid

/-- A line can be about it. -/
theorem isKey : IsKey mime.val := by
  obtain ⟨b, hhead, hb⟩ := (Option.any_eq_true _ _).1 mime.first
  obtain ⟨hopen, hcomment⟩ := ne_of_alnum b hb
  exact ⟨mime.trim, by simpa [hhead] using hopen, by simpa [hhead] using hcomment,
    fun h => absurd (mime.printable newline h).1 (by decide), fun h => (mime.printable equals h).2.2 rfl⟩

end MimeType

/-! ## What the lists say together -/

/-- What the lines of a section say of a type. -/
def idsIn (es : List (Bytes × List Bytes)) (mime : Bytes) : List Bytes :=
  (es.filter fun e => e.1 = mime).flatMap Prod.snd

theorem idsIn_append (es es' : List (Bytes × List Bytes)) (mime : Bytes) :
    idsIn (es ++ es') mime = idsIn es mime ++ idsIn es' mime := by
  rw [idsIn, List.filter_append, List.flatMap_append]
  rfl

theorem idsIn_none {es : List (Bytes × List Bytes)} {mime : Bytes} (h : ∀ e ∈ es, e.1 ≠ mime) :
    idsIn es mime = [] := by
  rw [idsIn, List.filter_eq_nil_iff.2 (by simpa using h)]
  rfl

theorem idsOf_insert (m : Std.ExtTreeMap Bytes (List Bytes)) (mime other : Bytes) (ids : List Bytes) :
    idsOf (m.insert mime ids) other = if mime = other then ids else idsOf m other := by
  rw [idsOf, Std.ExtTreeMap.getElem?_insert]
  by_cases h : mime = other
  · rw [if_pos (by simpa using h), if_pos h]
    rfl
  · rw [if_neg (by simpa using h), if_neg h]
    rfl

theorem idsOf_extendAll (m : Std.ExtTreeMap Bytes (List Bytes)) (es : List (Bytes × List Bytes))
    (mime : Bytes) : idsOf (extendAll m es) mime = idsOf m mime ++ idsIn es mime := by
  rw [extendAll]
  induction es generalizing m with
  | nil => exact (List.append_nil _).symm
  | cons e es ih =>
    rw [List.foldl_cons, ih, idsOf_insert]
    by_cases h : e.1 = mime
    · rw [if_pos h, idsIn, idsIn, List.filter_cons_of_pos (by simpa using h), List.flatMap_cons, h,
        List.append_assoc]
    · rw [if_neg h, idsIn, idsIn, List.filter_cons_of_neg (by simpa using h)]

/-- The lines of a section of a list, where it could be read. -/
def linesOf (section_ : Bytes) (list : Option Text) : List (Bytes × List Bytes) :=
  parseMimeSection ((list.map Subtype.val).getD []) section_

namespace Registry

variable {Entry : Type} (entries : Std.ExtTreeMap Bytes Entry)

theorem readMimeapps_eq (r : Registry Entry) (list : Option Text) (mime : Bytes) :
    (r.readMimeapps list).entries = r.entries ∧
      idsOf (r.readMimeapps list).defaults mime =
        idsOf r.defaults mime ++ idsIn (linesOf defaultSection list) mime ∧
      idsOf (r.readMimeapps list).removed mime =
        idsOf r.removed mime ++ idsIn (linesOf removedSection list) mime := by
  cases list with
  | none => exact ⟨rfl, (List.append_nil _).symm, (List.append_nil _).symm⟩
  | some list => exact ⟨rfl, idsOf_extendAll _ _ _, idsOf_extendAll _ _ _⟩

/-- A registry that is loaded has what the lists say in their order. -/
theorem load_eq (lists : List (Option Text)) (mime : Bytes) :
    (load entries lists).entries = entries ∧
      idsOf (load entries lists).defaults mime =
        (lists.flatMap fun list => idsIn (linesOf defaultSection list) mime) ∧
      idsOf (load entries lists).removed mime =
        lists.flatMap fun list => idsIn (linesOf removedSection list) mime := by
  have hfold : ∀ (lists : List (Option Text)) (r : Registry Entry),
      (lists.foldl readMimeapps r).entries = r.entries ∧
      idsOf (lists.foldl readMimeapps r).defaults mime =
        (idsOf r.defaults mime ++
          lists.flatMap fun list => idsIn (linesOf defaultSection list) mime) ∧
      idsOf (lists.foldl readMimeapps r).removed mime =
        idsOf r.removed mime ++
          lists.flatMap fun list => idsIn (linesOf removedSection list) mime := by
    intro lists
    induction lists with
    | nil => exact fun r => ⟨rfl, (List.append_nil _).symm, (List.append_nil _).symm⟩
    | cons list lists ih =>
      intro r
      obtain ⟨hentries, hdefaults, hremoved⟩ := readMimeapps_eq r list mime
      obtain ⟨ihe, ihd, ihr⟩ := ih (r.readMimeapps list)
      rw [List.foldl_cons, ihe, ihd, ihr, hentries, hdefaults, hremoved, List.flatMap_cons,
        List.flatMap_cons, List.append_assoc, List.append_assoc]
      exact ⟨rfl, rfl, rfl⟩
  obtain ⟨he, hd, hr⟩ := hfold lists { entries, defaults := ∅, removed := ∅ }
  exact ⟨he, hd, hr⟩

end Registry

/-- An application that a list names is one it can hold. -/
theorem mem_idsIn_linesOf {section_ mime id : Bytes} {list : Option Text}
    (h : id ∈ idsIn (linesOf section_ list) mime) : Writable id := by
  obtain ⟨e, he, hid⟩ := List.mem_flatMap.1 h
  have hlines : ∀ l ∈ lines ((list.map Subtype.val).getD []), newline ∉ l :=
    fun l hl => notMem_newline_of_mem_lines hl
  exact (key_of_mem_mimeLines hlines (List.mem_filter.1 he).1).2 id hid

/-! ## The list on the disk -/

theorem MimeType.valid (mime : MimeType) : Utf8.valid mime.val = true := by
  have hascii : ∀ b ∈ mime.val, b < 0x80 := fun b hb =>
    UInt8.lt_of_le_of_lt (mime.printable b hb).2.1 (by decide)
  rw [← List.nil_append mime.val, Utf8.valid_append_of_ascii hascii]
  rfl

/-- What is written is a text again. -/
theorem valid_upsertDefault {list : Bytes} (hlist : Utf8.valid list = true) (mime : MimeType)
    (id : Text) : Utf8.valid (upsertDefault list mime.val id.val) = true := by
  rw [upsertDefault, Utf8.valid_append_ascii (by decide), Text.valid_intercalate (by decide),
    Bool.and_eq_true, List.all_eq_true]
  refine ⟨fun l hl => ?_, rfl⟩
  rcases mem_upsertLines hl with hl | rfl | rfl | rfl
  · exact valid_of_mem_lines hlist ((kept_sublist _ _ id.val).1.subset hl)
  · rfl
  · decide
  · rw [defaultLine, Utf8.valid_append_ascii (by decide), mime.valid, id.property]
    rfl

/-- The user's list as `set_default` reads it. -/
def userList (unreadable : Bool) (user : Option Bytes) : Bytes :=
  ((readToString unreadable user).map Subtype.val).getD []

theorem valid_userList (unreadable : Bool) (user : Option Bytes) :
    Utf8.valid (userList unreadable user) = true := by
  rw [userList]
  cases readToString unreadable user with
  | none => rfl
  | some t => exact t.property

section

variable {Entry : Type} {place : Option Place} {unreadable : Bool} {c : SaveCalls}

/-- A call on an application that is there, with nothing in its way. -/
theorem setDefault_ok {mime id : Bytes} {r : Registry Entry} {user : Option Bytes} {p : Place}
    (hid : id ∈ r.entries) (hdir : c.createDir = none) (hflushes : c.Flushes) :
    setDefault (some p) unreadable c mime id ⟨r, user⟩ = (.ok p.path,
      ⟨r.choose mime id, some (upsertDefault (userList unreadable user) mime id)⟩) := by
  have hget : Act.get (⟨r, user⟩ : Associations Entry) =
      ((.ok ⟨r, user⟩, ⟨r, user⟩) : Except Error _ × _) := rfl
  rw [setDefault, Act.bind_of_ok hget, if_neg (not_not.2 hid)]
  simp only [hdir, answer, Act.lift_ok]
  rw [Act.bind_of_ok (show (pure () : Act (Associations Entry) Error Unit) ⟨r, user⟩ = _ from rfl),
    Act.bind_of_ok (writeAtomically_ok c p _ _ _ hflushes)]
  rfl

/-- What a call that returns has done. -/
theorem setDefault_returned {mime id : Bytes} {r : Registry Entry} {user : Option Bytes}
    {path : PathBuf} {s' : Associations Entry}
    (h : setDefault place unreadable c mime id ⟨r, user⟩ = (.ok path, s')) :
    s' = ⟨r.choose mime id, some (upsertDefault (userList unreadable user) mime id)⟩ := by
  have hget : Act.get (⟨r, user⟩ : Associations Entry) =
      ((.ok ⟨r, user⟩, ⟨r, user⟩) : Except Error _ × _) := rfl
  rw [setDefault, Act.bind_of_ok hget] at h
  by_cases hid : id ∉ r.entries
  · rw [if_pos hid] at h
    cases h
  · rw [if_neg hid] at h
    cases place with
    | none => cases h
    | some p =>
      cases hdir : c.createDir with
      | some e =>
        simp only [hdir] at h
        cases h
      | none =>
        simp only [hdir, answer, Act.lift_ok] at h
        rw [Act.bind_of_ok (show (pure () : Act (Associations Entry) Error Unit) ⟨r, user⟩ = _ from rfl)]
          at h
        by_cases hflushes : c.Flushes
        · rw [Act.bind_of_ok (writeAtomically_ok c p _ _ _ hflushes)] at h
          obtain ⟨-, rfl⟩ := Prod.mk.inj h
          rfl
        · obtain ⟨e, he⟩ := writeAtomically_error c p
            (fun bs (s : Associations Entry) => { s with list := some bs })
            (upsertDefault (userList unreadable user) mime id) ⟨r, user⟩ hflushes
          rw [userList] at he
          rw [Act.bind_of_error he] at h
          cases h

end

/-- The user's list as it is read once it is written. -/
theorem linesOf_upsertDefault {mime : MimeType} {id : Text} (hid : Writable id.val)
    (unreadable : Bool) (user : Option Bytes) (section_ : Bytes) :
    linesOf section_ (readToString false
        (some (upsertDefault (userList unreadable user) mime.val id.val))) =
      mimeLines section_ false (upsertLines (lines (userList unreadable user)) mime.val id.val) := by
  have hvalid := valid_upsertDefault (valid_userList unreadable user) mime id
  have hread := readToString_text ⟨_, hvalid⟩
  rw [linesOf, hread, Option.map_some, Option.getD_some,
    parse_upsertDefault mime.isKey.notMem_newline hid.1]

/-- The application comes first among the defaults of its type, and nothing else is read anew. -/
theorem idsIn_upsertDefault {mime : MimeType} {id : Text} (hid : Writable id.val)
    (unreadable : Bool) (user : Option Bytes) {new : Option Text}
    (hnew : new = readToString false
      (some (upsertDefault (userList unreadable user) mime.val id.val))) :
    (∃ rest, idsIn (linesOf defaultSection new) mime.val = id.val :: rest) ∧
      (∀ other, other ≠ mime.val → idsIn (linesOf defaultSection new) other =
        idsIn (linesOf defaultSection (readToString unreadable user)) other) ∧
      linesOf removedSection new = linesOf removedSection (readToString unreadable user) := by
  obtain ⟨es₁, mids, es₂, hold, hlines, hfront, hmids⟩ :=
    defaults_upsertLines mime.isKey hid (lines (userList unreadable user))
  have hdefaults := @linesOf_upsertDefault mime id hid unreadable user defaultSection
  have hremoved := @linesOf_upsertDefault mime id hid unreadable user removedSection
  have hbefore : linesOf defaultSection (readToString unreadable user) = es₁ ++ mids ++ es₂ := hold
  subst hnew
  rw [hdefaults, hremoved, hlines, hbefore,
    others_upsertLines mime.isKey hid _ (by decide)]
  refine ⟨⟨idsIn es₂ mime.val, ?_⟩, fun other hother => ?_, rfl⟩
  · rw [idsIn_append, idsIn_none hfront, idsIn, List.filter_cons_of_pos (by simp)]
    rfl
  · have hnone : idsIn mids other = [] := idsIn_none fun e he heq => hother (heq ▸ hmids e he)
    rw [idsIn_append, idsIn_append, idsIn_append, hnone, List.append_nil, idsIn, idsIn, idsIn,
      List.filter_cons_of_neg (by simpa using hother.symm)]

/-! ## The answers -/

namespace Registry

variable {Entry : Type} {runnable : Entry → Bool}

/-- Only what a registry says of a type decides its answer. -/
theorem defaultFor_congr {r r' : Registry Entry} {mime : Bytes} (hentries : r.entries = r'.entries)
    (hdefaults : idsOf r.defaults mime = idsOf r'.defaults mime)
    (hremoved : idsOf r.removed mime = idsOf r'.removed mime) :
    r.defaultFor runnable mime = r'.defaultFor runnable mime := by
  have hoffers : r.offers runnable mime = r'.offers runnable mime := by
    funext id
    rw [offers, offers, isRemoved, isRemoved, hentries, hremoved]
  rw [defaultFor, defaultFor, hdefaults, hoffers]

theorem offers_eq_some {r : Registry Entry} {mime id : Bytes} {q : Bytes × Entry}
    (h : r.offers runnable mime id = some q) : q.1 = id ∧ id ∉ idsOf r.removed mime := by
  rw [offers, isRemoved] at h
  split at h
  · cases h
  · next hremoved =>
    obtain ⟨e, -, rfl⟩ := Option.map_eq_some_iff.1 h
    exact ⟨rfl, by simpa using hremoved⟩

theorem offers_of {r : Registry Entry} {mime id : Bytes} {e : Entry} (he : r.entries[id]? = some e)
    (hrun : runnable e = true) (hremoved : id ∉ idsOf r.removed mime) :
    r.offers runnable mime id = some (id, e) := by
  rw [offers, isRemoved, if_neg (by simpa using hremoved), he, Option.filter_some, if_pos hrun]
  rfl

/-- An application answers one type from now on, and the other types are answered as before. -/
structure Chosen (runnable : Entry → Bool) (mime : Bytes) (answer : Bytes × Entry)
    (before after : Registry Entry) : Prop where
  chosen : after.defaultFor runnable mime = some answer
  others : ∀ other, other ≠ mime → after.defaultFor runnable other = before.defaultFor runnable other

/-- In memory the choice always holds. -/
theorem chosen_choose {r : Registry Entry} {id : Bytes} {e : Entry} (he : r.entries[id]? = some e)
    (hrun : runnable e = true) (mime : Bytes) :
    Chosen runnable mime (id, e) r (r.choose mime id) := by
  have hremoved : ∀ other, idsOf (r.choose mime id).removed other =
      if mime = other then (idsOf r.removed other).filter (· ≠ id) else idsOf r.removed other := by
    intro other
    rw [idsOf, choose, Std.ExtTreeMap.getElem?_modify]
    by_cases h : mime = other
    · rw [if_pos (by simpa using h), if_pos h, idsOf, h]
      cases r.removed[other]? <;> rfl
    · rw [if_neg (by simpa using h), if_neg h]
      rfl
  constructor
  · rw [defaultFor, show idsOf (r.choose mime id).defaults mime = [id] by
      rw [choose, idsOf_insert, if_pos rfl], List.findSome?_singleton]
    refine offers_of (r := r.choose mime id) he hrun ?_
    rw [hremoved, if_pos rfl]
    simp
  · intro other hother
    have hdefaults : idsOf (r.choose mime id).defaults other = idsOf r.defaults other := by
      rw [choose, idsOf_insert, if_neg hother.symm]
    exact defaultFor_congr rfl hdefaults (by rw [hremoved, if_neg hother.symm])

end Registry

section

open Registry

variable {Entry : Type} {runnable : Entry → Bool} {r : Registry Entry} {mime : MimeType} {id : Text}
  {e : Entry}

theorem idsOf_defaults_load (entries : Std.ExtTreeMap Bytes Entry) (above below : List (Option Text))
    (list : Option Text) (m : Bytes) :
    idsOf (load entries (above ++ list :: below)).defaults m =
      idsOf (load entries above).defaults m ++ (idsIn (linesOf defaultSection list) m ++
        idsOf (load entries below).defaults m) := by
  rw [(load_eq _ _ _).2.1, (load_eq _ _ _).2.1, (load_eq _ _ _).2.1, List.flatMap_append,
    List.flatMap_cons]

/-- Behind a list that was written, the removals are as they were. -/
theorem removed_load_eq {list new : Option Text}
    (h : linesOf removedSection new = linesOf removedSection list)
    (entries : Std.ExtTreeMap Bytes Entry) (above below : List (Option Text)) (m : Bytes) :
    idsOf (load entries (above ++ new :: below)).removed m =
      idsOf (load entries (above ++ list :: below)).removed m := by
  rw [(load_eq _ _ _).2.2, (load_eq _ _ _).2.2, List.flatMap_append, List.flatMap_append,
    List.flatMap_cons, List.flatMap_cons, h]

/-- **Where a chosen default survives a restart.** The registry in memory answers with it at once.
One that is loaded from the lists does where a list can hold the application's id, no list removes
it from the type, and the lists before the user's do not answer with another. -/
theorem setDefault_survives_iff {place : Option Place} {unreadable : Bool} {c : SaveCalls}
    {user : Option Bytes} {path : PathBuf} {s' : Associations Entry} (runnable : Entry → Bool)
    (above below : List (Option Text)) (he : r.entries[id.val]? = some e) (hrun : runnable e = true)
    (hok : setDefault place unreadable c mime.val id.val ⟨r, user⟩ = (.ok path, s')) :
    (Chosen runnable mime.val (id.val, e) r s'.registry ∧
      Chosen runnable mime.val (id.val, e)
        (load r.entries (above ++ readToString unreadable user :: below))
        (load r.entries (above ++ readToString false s'.list :: below))) ↔
      Writable id.val ∧
        id.val ∉ idsOf (load r.entries (above ++ readToString unreadable user :: below)).removed
          mime.val ∧
        ∀ q, (idsOf (load r.entries above).defaults mime.val).findSome?
          ((load r.entries (above ++ readToString unreadable user :: below)).offers runnable mime.val) =
            some q → q.1 = id.val := by
  obtain rfl := setDefault_returned hok
  rw [and_iff_right (chosen_choose he hrun mime.val)]
  generalize hnew : readToString false
    (some (upsertDefault (userList unreadable user) mime.val id.val)) = new
  have hwritten := fun hid => @idsIn_upsertDefault mime id hid unreadable user new hnew.symm
  generalize readToString unreadable user = list at hwritten ⊢
  have hentries : ∀ list : Option Text, (load r.entries (above ++ list :: below)).entries = r.entries :=
    fun list => (load_eq r.entries _ mime.val).1
  -- where the id can be written, both registries offer the same applications
  have hoffers : Writable id.val → (load r.entries (above ++ new :: below)).offers runnable mime.val =
      (load r.entries (above ++ list :: below)).offers runnable mime.val := by
    intro hid
    funext other
    rw [offers, offers, isRemoved, isRemoved, hentries, hentries,
      removed_load_eq (hwritten hid).2.2]
  constructor
  · intro h
    have hchosen := h.chosen
    rw [defaultFor] at hchosen
    obtain ⟨other, hmem, hoffer⟩ := List.exists_of_findSome?_eq_some hchosen
    obtain ⟨rfl, hremoved⟩ := offers_eq_some hoffer
    have hid : Writable id.val := by
      rw [(load_eq _ _ _).2.1] at hmem
      obtain ⟨list, -, hlist⟩ := List.mem_flatMap.1 hmem
      exact mem_idsIn_linesOf hlist
    rw [removed_load_eq (hwritten hid).2.2] at hremoved
    refine ⟨hid, hremoved, fun q hq => ?_⟩
    rw [idsOf_defaults_load, List.findSome?_append, hoffers hid, hq, Option.some_or] at hchosen
    exact congrArg Prod.fst (Option.some.inj hchosen)
  · intro ⟨hid, hremoved, habove⟩
    obtain ⟨⟨rest, hfirst⟩, hothers, hsame⟩ := hwritten hid
    have hoffer : (load r.entries (above ++ list :: below)).offers runnable mime.val id.val =
        some (id.val, e) := offers_of (by rw [hentries, he]) hrun hremoved
    constructor
    · rw [defaultFor, idsOf_defaults_load, hfirst, hoffers hid, List.findSome?_append]
      cases hq : (idsOf (load r.entries above).defaults mime.val).findSome?
          ((load r.entries (above ++ list :: below)).offers runnable mime.val) with
      | none =>
        rw [Option.none_or, List.cons_append, List.findSome?_cons_of_isSome (by rw [hoffer]; rfl)]
        exact hoffer
      | some q =>
        obtain ⟨other, -, hother⟩ := List.exists_of_findSome?_eq_some hq
        obtain ⟨hname, -⟩ := offers_eq_some hother
        rw [← hname, habove q hq, hoffer] at hother
        rw [Option.some_or, hother]
    · intro other hother
      apply defaultFor_congr
      · rw [hentries, hentries]
      · rw [idsOf_defaults_load, idsOf_defaults_load, hothers other hother]
      · exact removed_load_eq hsame _ _ _ _

end

/-- The type of plain text. -/
def plainText : MimeType where
  val := text "text/plain"
  first := by decide
  printable := by decide +kernel

/-- An editor. -/
def editor : Text := ⟨text "editor.desktop", by decide⟩

/-- A registry that has read the user's list. -/
def loaded (list : Bytes) : Registry Unit :=
  .load ((∅ : Std.ExtTreeMap Bytes Unit).insert editor.val ()) [readToString false (some list)]

theorem setDefault_editor (list : Bytes) (h : (loaded list).entries[editor.val]? = some ()) :
    setDefault (some ⟨[], [], []⟩) false {} plainText.val editor.val ⟨loaded list, some list⟩ = (.ok [],
      ⟨(loaded list).choose plainText.val editor.val,
        some (upsertDefault (userList false (some list)) plainText.val editor.val)⟩) :=
  setDefault_ok (Std.ExtTreeMap.mem_iff_isSome_getElem?.2 (by rw [h]; rfl)) rfl (by decide)

/-- With a list of another type, the editor is the default for good. -/
theorem editor_survives :
    let list := text "[Default Applications]\ntext/html=browser.desktop\n"
    let written := upsertDefault list plainText.val editor.val
    Registry.Chosen (fun _ => true) plainText.val (editor.val, ()) (loaded list)
        ((loaded list).choose plainText.val editor.val) ∧
      Registry.Chosen (fun _ => true) plainText.val (editor.val, ()) (loaded list) (loaded written) := by
  intro list written
  have hentries : (loaded list).entries[editor.val]? = some () := by decide
  have hok := setDefault_editor list hentries
  have hiff := setDefault_survives_iff (fun _ => true) [] [] hentries rfl hok
  have hlist : userList false (some list) = list := by decide
  rw [hlist] at hiff
  exact hiff.2 ⟨by decide, by decide, nofun⟩

/-- **A type the list removes the editor from**: the editor is the default until the next start. -/
theorem editor_forgotten :
    let list := text "[Removed Associations]\ntext/plain=editor.desktop;\n"
    ∃ written,
      setDefault (some ⟨[], [], []⟩) false {} plainText.val editor.val ⟨loaded list, some list⟩ =
        (.ok [], ⟨(loaded list).choose plainText.val editor.val, some written⟩) ∧
      (loaded written).entries[editor.val]? = some () ∧
      (loaded written).defaultFor (fun _ => true) plainText.val = none := by
  intro list
  refine ⟨_, setDefault_editor list (by decide), ?_, ?_⟩
  · decide
  · decide

end Aurade.Stores
