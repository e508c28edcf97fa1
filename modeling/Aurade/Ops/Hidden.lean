import Aurade.Fs.Path
import Aurade.Ops.Rows

/-!
# Hiding a name

A folder's `.hidden` lists the names to keep out of the way, a line each. `set_hidden` rewrites it, and
two readers say of an entry whether it is hidden: `attributes`, which follows a link, and `list`, which
opens no link.

A line carries only a name that is the same when it is trimmed and that has no newline, and it carries
the text of the name, which two names may share. Besides, the writer takes a list that it cannot read
for an empty one. `setHidden_iff` says what hiding a name comes to.
-/

namespace Aurade.Ops.Hidden

open Fs Rows

/-! ## The list -/

/-- What is at `.hidden`: a file, with whether it may be read, or a link, with the file it leads to. -/
inductive DotHidden
  | absent
  | file (readable : Bool) (content : Bytes)
  | link (target : Option (Bool × Bytes))
  | folder
  deriving DecidableEq

namespace DotHidden

/-- What opening it and reading it gives. -/
def read : DotHidden → Option Bytes
  | file true bs => some bs
  | link (some (true, bs)) => some bs
  | _ => none

/-- The same with `O_NOFOLLOW`. -/
def openHere : DotHidden → Option Bytes
  | file true bs => some bs
  | _ => none

/-- The bytes there are. -/
def content : DotHidden → Bytes
  | file _ bs => bs
  | link (some (_, bs)) => bs
  | _ => []

/-- The file with other bytes. -/
def put (bs : Bytes) : DotHidden → DotHidden
  | absent => file true bs
  | file readable _ => file readable bs
  | link none => link (some (true, bs))
  | link (some (readable, _)) => link (some (readable, bs))
  | folder => folder

/-- There is a file, and no text is read from it. -/
def Unread (d : DotHidden) : Prop := d ≠ absent ∧ Stores.readToString false d.read = none

end DotHidden

/-- What the kernel answers besides: the entry's mode, the error of a removal where it is not that there
is nothing, and the error of a write with what it leaves in the file, where it opened it. -/
structure Calls where
  stat : Except Errno ℕ
  remove : Option {e : Errno // e ≠ .noent}
  write : Option (Errno × Option Bytes)

/-- `remove_file`. -/
def Calls.removeFile (c : Calls) : Act DotHidden Errno Unit := fun d =>
  match c.remove, d with
  | some e, d => (.error e.val, d)
  | none, .absent => (.error .noent, .absent)
  | none, .folder => (.error .isdir, .folder)
  | none, _ => (.ok (), .absent)

/-- `fs::write`. -/
def Calls.writeFile (c : Calls) (bs : Bytes) : Act DotHidden Errno Unit := fun d =>
  match c.write, d with
  | some (e, some left), d => (.error e, d.put left)
  | some (e, none), d => (.error e, d)
  | none, .folder => (.error .isdir, .folder)
  | none, d => (.ok (), d.put bs)

/-! ## The two boxes -/

/-- The boxes of the General tab. -/
structure Attributes where
  readOnly : Bool
  hidden : Bool
  hiddenByName : Bool
  deriving DecidableEq

/-- `dot_hidden`: the names a folder's `.hidden` lists. -/
def dotHidden (path : PathBuf) (d : DotHidden) : List Bytes :=
  if path.parent = none then []
  else
    match Stores.readToString false d.read with
    | some t => hiddenNames t.val
    | none => []

/-- `file_name` as text. -/
def nameOf (path : PathBuf) : Bytes := Utf8.lossy (path.fileName.getD [])

/-- `attributes`. -/
def attributes (stat : Except Errno ℕ) (path : PathBuf) (d : DotHidden) : Except Error Attributes :=
  match stat with
  | .error e => .error (.ofErrno [.path path] e)
  | .ok mode =>
    let name := nameOf path
    let hiddenByName : Bool := name.head? = some 46
    .ok
      { readOnly := mode / 128 % 2 = 0
        hidden := hiddenByName || (dotHidden path d).contains name
        hiddenByName }

/-- The lines of the names. -/
def hiddenText (names : List Bytes) : Bytes := [newline].intercalate names ++ [newline]

/-- What `set_hidden` does to the list: an empty one is removed. -/
def saveNames (c : Calls) (file : PathBuf) (names : List Bytes) : Act DotHidden Error Unit :=
  if names = [] then do
    match ← Act.attempt c.removeFile with
    | .ok () | .error .noent => pure ()
    | .error e => Act.fail (.ofErrno [.path file] e)
  else Act.mapErr (Error.ofErrno [.path file]) (c.writeFile (hiddenText names))

/-- `set_hidden`. -/
def setHidden (c : Calls) (path : PathBuf) (hidden : Bool) : Act DotHidden Error Attributes := do
  let name := nameOf path
  if name = [] then Act.fail (.badRequest [.str "no name to hide"])
  else if name.head? = some 46 then
    Act.fail (.unsupported
      [.name name, .str " is hidden by its name, so showing it means renaming it"])
  else
    match path.parent with
    | none => Act.fail (.badRequest [.str "no folder to write in"])
    | some dir => do
      let listed := dotHidden path (← Act.get)
      let kept := listed.filter (· ≠ name) ++ if hidden then [name] else []
      saveNames c (dir ++ [.normal (text ".hidden")]) kept
      Act.lift (attributes c.stat path (← Act.get))

/-- Whether the row of a name is hidden. -/
def rowHidden (d : DotHidden) (name : Bytes) : Bool :=
  isHidden (readDotHidden d.openHere) (Utf8.lossy name)

/-! ## Lines and names -/

/-- A name that a line carries. -/
def IsLine (name : Bytes) : Prop := name ≠ [] ∧ newline ∉ name ∧ trimBytes name = name

instance : DecidablePred IsLine := fun _ => inferInstanceAs (Decidable (_ ∧ _))

theorem isLine_of_mem_hiddenNames {list name : Bytes} (h : name ∈ hiddenNames list) : IsLine name := by
  obtain ⟨hmem, hne⟩ := List.mem_filter.1 h
  obtain ⟨line, hline, rfl⟩ := List.mem_map.1 hmem
  refine ⟨by simpa using hne, fun hnew => ?_, trimBytes_idem line⟩
  exact notMem_newline_of_mem_lines hline ((infix_trimBytes line).subset hnew)

theorem valid_of_mem_hiddenNames {list name : Bytes} (hlist : Utf8.valid list = true)
    (h : name ∈ hiddenNames list) : Utf8.valid name = true := by
  obtain ⟨line, hline, rfl⟩ := List.mem_map.1 (List.mem_filter.1 h).1
  exact valid_trimEnd (valid_trimStart (valid_of_mem_lines hlist hline))

theorem readDotHidden_none : readDotHidden none = [] := rfl

theorem mem_readDotHidden {list : Option Bytes} {name : Bytes} (h : name ∈ readDotHidden list) :
    IsLine name ∧ Utf8.valid name = true := by
  unfold readDotHidden at h
  split at h
  · next t _ => exact ⟨isLine_of_mem_hiddenNames h, valid_of_mem_hiddenNames t.property h⟩
  · exact absurd h List.not_mem_nil

/-- **Names that lines carry are read again.** -/
theorem readDotHidden_hiddenText {names : List Bytes} (hne : names ≠ [])
    (h : ∀ name ∈ names, IsLine name ∧ Utf8.valid name = true) :
    readDotHidden (some (hiddenText names)) = names := by
  have hvalid : Utf8.valid (hiddenText names) = true := by
    rw [hiddenText, Utf8.valid_append_ascii (by decide), Text.valid_intercalate (by decide),
      List.all_eq_true.2 fun name hname => (h name hname).2]
    rfl
  have hread : Stores.readToString false (some (hiddenText names)) = some ⟨hiddenText names, hvalid⟩ :=
    Stores.readToString_text ⟨hiddenText names, hvalid⟩
  have htrim : names.map (trimBytes ∘ chomp) = names := by
    conv_rhs => rw [← List.map_id names]
    exact List.map_congr_left fun name hname => (trimBytes_chomp name).trans (h name hname).1.2.2
  rw [readDotHidden, hread]
  simp only [hiddenNames, hiddenText]
  rw [lines_join hne fun name hname => (h name hname).1.2.1, List.map_map, htrim]
  exact List.filter_eq_self.2 fun name hname => by simpa using (h name hname).1.1

/-! ## A call -/

section

variable {c : Calls} {d d' : DotHidden} {dir : PathBuf} {n m : Name} {hidden : Bool}

/-- The path of an entry. -/
def entry (dir : PathBuf) (n : Name) : PathBuf := dir ++ [.normal n.val]

theorem parent_entry : (entry dir n).parent = some dir := by
  simp [entry, PathBuf.parent]

theorem nameOf_entry : nameOf (entry dir n) = Utf8.lossy n.val := by
  simp [entry, nameOf, PathBuf.fileName]

theorem dotHidden_entry : dotHidden (entry dir n) d = readDotHidden d.read := by
  rw [dotHidden, parent_entry]
  rfl

/-- The names that are written, of those that are read. -/
def after (d : DotHidden) (name : Bytes) (hidden : Bool) : List Bytes :=
  (readDotHidden d.read).filter (· ≠ name) ++ if hidden then [name] else []

theorem mem_after {name x : Bytes} :
    x ∈ after d name hidden ↔ (x ∈ readDotHidden d.read ∧ x ≠ name) ∨ hidden = true ∧ x = name := by
  rw [after, List.mem_append, List.mem_filter, decide_eq_true_eq]
  cases hidden <;> simp

/-- An entry that is not hidden by its name is hidden by the list. -/
theorem attributes_entry (hdot : n.val.head? ≠ some 46) (stat : Except Errno ℕ) :
    (attributes stat (entry dir n) d).map Attributes.hidden =
      (stat.mapError (Error.ofErrno [.path (entry dir n)])).map fun _ =>
        (readDotHidden d.read).contains (Utf8.lossy n.val) := by
  have hhead : (Utf8.lossy n.val).head? ≠ some 46 := mt (Utf8.head_lossy (by decide) n.val).1 hdot
  cases stat with
  | error e => rfl
  | ok mode =>
    rw [attributes, nameOf_entry, dotHidden_entry]
    simp only [Except.map, Except.mapError, decide_eq_false hhead, Bool.false_or]

theorem rowHidden_eq (hdot : n.val.head? ≠ some 46) :
    rowHidden d n.val = (readDotHidden d.openHere).contains (Utf8.lossy n.val) := by
  have hhead : (Utf8.lossy n.val).head? ≠ some 46 := mt (Utf8.head_lossy (by decide) n.val).1 hdot
  rw [rowHidden, isHidden, decide_eq_false hhead, Bool.false_or]

/-- The list may be saved: removed where it is empty, and else written. -/
def Calls.Save (c : Calls) (empty : Prop) : Prop :=
  (empty → c.remove = none) ∧ (¬empty → c.write = none)

/-- The state before, and the answers of the kernel, for which a call returns: the list may be saved,
which is empty where no other name is in it, and the entry is there. -/
def Succeeds (c : Calls) (d : DotHidden) (name : Bytes) (hidden : Bool) : Prop :=
  (∃ mode, c.stat = .ok mode) ∧ d ≠ .folder ∧
    c.Save (hidden = false ∧ ∀ x ∈ readDotHidden d.read, x = name)

theorem after_eq_nil_iff {name : Bytes} :
    after d name hidden = [] ↔ hidden = false ∧ ∀ x ∈ readDotHidden d.read, x = name := by
  rw [List.eq_nil_iff_forall_not_mem]
  simp only [mem_after, not_or, not_and, not_not]
  constructor
  · intro h
    refine ⟨?_, fun x hx => (h x).1 hx⟩
    cases hidden with
    | false => rfl
    | true => exact absurd rfl ((h name).2 rfl)
  · rintro ⟨rfl, h⟩ x
    exact ⟨h x, fun hf => absurd hf Bool.false_ne_true⟩

/-- The list after a call that goes well. -/
def DotHidden.listing (d : DotHidden) (names : List Bytes) : DotHidden :=
  if names = [] then .absent else d.put (hiddenText names)

theorem saveNames_ok {file : PathBuf} {names : List Bytes} (hfolder : d ≠ .folder)
    (hcall : c.Save (names = [])) : saveNames c file names d = (.ok (), d.listing names) := by
  unfold saveNames DotHidden.listing
  split
  · next hnil =>
    have hremove : c.removeFile d = (if d = .absent then .error .noent else .ok (), .absent) := by
      unfold Calls.removeFile
      rw [hcall.1 hnil]
      cases d <;> first | rfl | exact absurd rfl hfolder
    simp only [bind, Act.attempt, hremove]
    split <;> rfl
  · next hne =>
    have hwrite : c.writeFile (hiddenText names) d = (.ok (), d.put (hiddenText names)) := by
      unfold Calls.writeFile
      rw [hcall.2 hne]
      cases d <;> first | rfl | exact absurd rfl hfolder
    simp only [Act.mapErr, hwrite]

theorem saveNames_error {file : PathBuf} {names : List Bytes}
    (h : ¬(d ≠ .folder ∧ c.Save (names = []))) :
    ∃ e, (saveNames c file names d).1 = .error e := by
  unfold saveNames
  by_cases hnil : names = []
  · rw [if_pos hnil]
    have hremove : ∃ e, e ≠ .noent ∧ (c.removeFile d).1 = .error e := by
      unfold Calls.removeFile
      cases hc : c.remove with
      | some e => exact ⟨e.val, e.property, rfl⟩
      | none =>
        obtain rfl : d = .folder := not_not.1 fun hd => h ⟨hd, fun _ => hc, (absurd hnil ·)⟩
        exact ⟨.isdir, by decide, rfl⟩
    obtain ⟨e, hne, herror⟩ := hremove
    refine ⟨.ofErrno [.path file] e, ?_⟩
    simp only [bind, Act.attempt, herror]
    cases e <;> first | contradiction | rfl
  · rw [if_neg hnil]
    have hwrite : ∃ e, (c.writeFile (hiddenText names) d).1 = .error e := by
      unfold Calls.writeFile
      rcases hc : c.write with _ | ⟨e, _ | left⟩
      · obtain rfl : d = .folder := not_not.1 fun hd => h ⟨hd, (absurd · hnil), fun _ => hc⟩
        exact ⟨.isdir, rfl⟩
      · exact ⟨e, rfl⟩
      · exact ⟨e, rfl⟩
    obtain ⟨e, herror⟩ := hwrite
    refine ⟨.ofErrno [.path file] e, ?_⟩
    unfold Act.mapErr
    rcases hrun : c.writeFile (hiddenText names) d with ⟨_ | _, d'⟩
    · rw [hrun] at herror
      obtain rfl := Except.error.inj herror
      rfl
    · rw [hrun] at herror
      cases herror

theorem setHidden_eq (hdot : n.val.head? ≠ some 46) :
    setHidden c (entry dir n) hidden d =
      (saveNames c (dir ++ [.normal (text ".hidden")]) (after d (Utf8.lossy n.val) hidden) >>= fun _ =>
        Act.get >>= fun d' => Act.lift (attributes c.stat (entry dir n) d')) d := by
  have hhead : (Utf8.lossy n.val).head? ≠ some 46 := mt (Utf8.head_lossy (by decide) n.val).1 hdot
  have hne : Utf8.lossy n.val ≠ [] := Utf8.lossy_ne_nil n.property.1
  unfold setHidden
  simp only [nameOf_entry, if_neg hne, if_neg hhead, parent_entry]
  rw [Act.bind_of_ok (rfl : Act.get d = (.ok d, d)), dotHidden_entry]
  rfl

/-- **A call that goes well**: the list has the names in it that it had, and the name. -/
theorem setHidden_of_succeeds (hdot : n.val.head? ≠ some 46)
    (h : Succeeds c d (Utf8.lossy n.val) hidden) :
    setHidden c (entry dir n) hidden d =
      (attributes c.stat (entry dir n) (d.listing (after d (Utf8.lossy n.val) hidden)),
        d.listing (after d (Utf8.lossy n.val) hidden)) := by
  obtain ⟨-, hfolder, hcall⟩ := h
  rw [← after_eq_nil_iff] at hcall
  rw [setHidden_eq hdot, Act.bind_of_ok (saveNames_ok hfolder hcall)]
  rfl

theorem succeeds_of_ok (hdot : n.val.head? ≠ some 46) {a : Attributes}
    (h : setHidden c (entry dir n) hidden d = (.ok a, d')) :
    Succeeds c d (Utf8.lossy n.val) hidden := by
  by_cases hcall : d ≠ .folder ∧ c.Save (after d (Utf8.lossy n.val) hidden = [])
  · rw [setHidden_eq hdot, Act.bind_of_ok (saveNames_ok hcall.1 hcall.2)] at h
    refine ⟨?_, hcall.1, by rw [← after_eq_nil_iff]; exact hcall.2⟩
    cases hstat : c.stat with
    | ok mode => exact ⟨mode, rfl⟩
    | error e =>
      rw [hstat] at h
      cases h
  · obtain ⟨e, herror⟩ := @saveNames_error c d (dir ++ [.normal (text ".hidden")]) _ hcall
    rw [setHidden_eq hdot, Act.bind_of_error (Prod.ext herror rfl)] at h
    cases h

theorem snd_setHidden (hdot : n.val.head? ≠ some 46) :
    (setHidden c (entry dir n) hidden d).2 =
      (saveNames c (dir ++ [.normal (text ".hidden")]) (after d (Utf8.lossy n.val) hidden) d).2 := by
  rw [setHidden_eq hdot]
  rcases hrun : saveNames c (dir ++ [.normal (text ".hidden")]) (after d (Utf8.lossy n.val) hidden) d with
    ⟨e | u, d'⟩
  · rw [Act.bind_of_error hrun, hrun]
  · rw [Act.bind_of_ok hrun, hrun]
    rfl

/-! ## What is read afterwards -/

/-- There is nothing, or a file that may be read, and no link to one. -/
def DotHidden.Open (d : DotHidden) : Prop := d = .absent ∨ ∃ bs, d = .file true bs

theorem read_put (h : d = .absent ∨ d.read ≠ none) (bs : Bytes) : (d.put bs).read = some bs := by
  rcases d with _ | ⟨_ | _, bs'⟩ | (_ | ⟨_ | _, bs'⟩) | _ <;> simp_all [DotHidden.put, DotHidden.read]

theorem DotHidden.Open.openHere (h : d.Open) : d.openHere = d.read := by
  rcases h with rfl | ⟨bs, rfl⟩ <;> rfl

theorem openHere_of_not_open (h : ¬d.Open) : d.openHere = none := by
  rcases d with _ | ⟨_ | _, bs⟩ | _ | _ <;> first | rfl | skip
  exact absurd (Or.inr ⟨bs, rfl⟩) h

theorem open_of_openHere (h : d.openHere ≠ none) : d.Open := not_not.1 (mt openHere_of_not_open h)

theorem open_listing_iff {names : List Bytes} (hne : names ≠ []) : (d.listing names).Open ↔ d.Open := by
  rw [DotHidden.listing, if_neg hne]
  rcases d with _ | ⟨_ | _, bs⟩ | (_ | ⟨_, bs⟩) | _ <;> simp [DotHidden.put, DotHidden.Open]

theorem isLine_of_mem_after {name x : Bytes} (hname : Utf8.valid name = true)
    (hline : hidden = true → IsLine name) (hx : x ∈ after d name hidden) :
    IsLine x ∧ Utf8.valid x = true := by
  rcases mem_after.1 hx with ⟨hx, -⟩ | ⟨h, rfl⟩
  · exact mem_readDotHidden hx
  · exact ⟨hline h, hname⟩

/-- **What is written is read again**, where the name can be written. -/
theorem read_listing {name : Bytes} (hname : Utf8.valid name = true)
    (h : hidden = true → IsLine name ∧ d.Open) :
    readDotHidden (d.listing (after d name hidden)).read = after d name hidden := by
  rw [DotHidden.listing]
  split
  · next hnil =>
    rw [hnil]
    rfl
  · next hne =>
    have hread : d = .absent ∨ d.read ≠ none := by
      cases hidden with
      | true =>
        rcases (h rfl).2 with rfl | ⟨bs, rfl⟩
        · exact Or.inl rfl
        · exact Or.inr (Option.some_ne_none bs)
      | false =>
        refine Or.inr fun hnone => hne (after_eq_nil_iff.2 ⟨rfl, fun x hx => ?_⟩)
        rw [hnone] at hx
        exact absurd hx List.not_mem_nil
    rw [read_put hread]
    exact readDotHidden_hiddenText hne fun x => isLine_of_mem_after hname fun hh => (h hh).1

/-- What `list` reads afterwards: the same, or nothing before and after. -/
theorem openHere_listing {name : Bytes} (hname : Utf8.valid name = true)
    (h : hidden = true → IsLine name ∧ d.Open) :
    readDotHidden d.openHere = readDotHidden d.read ∧
        readDotHidden (d.listing (after d name hidden)).openHere = after d name hidden ∨
      hidden = false ∧ readDotHidden d.openHere = [] ∧
        readDotHidden (d.listing (after d name hidden)).openHere = [] := by
  by_cases hd : d.Open
  · refine Or.inl ⟨by rw [hd.openHere], ?_⟩
    have hopen : (d.listing (after d name hidden)).Open := by
      by_cases hnil : after d name hidden = []
      · exact Or.inl (if_pos hnil)
      · exact (open_listing_iff hnil).2 hd
    rw [hopen.openHere, read_listing hname h]
  · refine Or.inr ⟨?_, by rw [openHere_of_not_open hd]; rfl, ?_⟩
    · cases hidden with
      | false => rfl
      | true => exact absurd (h rfl).2 hd
    · by_cases hnil : after d name hidden = []
      · rw [DotHidden.listing, if_pos hnil]
        rfl
      · rw [openHere_of_not_open (mt (open_listing_iff hnil).1 hd)]
        rfl

theorem contains_eq_iff {l l' : List Bytes} {x : Bytes} : l.contains x = l'.contains x ↔ (x ∈ l ↔ x ∈ l') := by
  rw [Bool.eq_iff_iff, List.contains_iff_mem, List.contains_iff_mem]

/-- The name itself afterwards. -/
theorem contains_after {name : Bytes} : (after d name hidden).contains name = hidden := by
  rw [Bool.eq_iff_iff, List.contains_iff_mem, mem_after]
  simp

/-- Any other name afterwards, and the name itself where it was as it is to be. -/
theorem contains_after_of {name x : Bytes}
    (h : x = name → (readDotHidden d.read).contains name = hidden) :
    (after d name hidden).contains x = (readDotHidden d.read).contains x := by
  by_cases hx : x = name
  · obtain rfl := hx
    rw [contains_after, h rfl]
  · rw [contains_eq_iff, mem_after]
    simp [hx]

/-! ## The law -/

variable (c d dir n hidden)

/-- **What hiding a name is to do**: afterwards the name is hidden or not, as it was asked, to both
readers; to both every other name is as it was; and a list that is not read is not cut short. -/
structure HidesOnly (names : List Name) : Prop where
  own : ∀ a d', setHidden c (entry dir n) hidden d = (.ok a, d') →
    (attributes c.stat (entry dir n) d').map Attributes.hidden = .ok hidden ∧
      rowHidden d' n.val = hidden
  others : ∀ a d', setHidden c (entry dir n) hidden d = (.ok a, d') → ∀ m ∈ names, m ≠ n →
    (∀ stat, (attributes stat (entry dir m) d').map Attributes.hidden =
        (attributes stat (entry dir m) d).map Attributes.hidden) ∧
      rowHidden d' m.val = rowHidden d m.val
  spared : d.Unread → d.content.length ≤ (setHidden c (entry dir n) hidden d).2.content.length

/-- What a save of the one name, or of none, does to the bytes of a list. -/
def Calls.Spares (name : Bytes) : Bool → Prop
  | false => c.remove = none → d.content = []
  | true =>
    (c.write = none → d.content.length ≤ name.length + 1) ∧
      ∀ e left, c.write = some (e, some left) → d.content.length ≤ left.length

/-- **When it does**: of calls that return, a name to be hidden is one that a line carries, in a folder
whose list is no link and may be read; a name that another entry has too is as it is to be already; and a
list that is not read is no longer than what is put in its place. -/
structure Fits (names : List Name) : Prop where
  carried : Succeeds c d (Utf8.lossy n.val) hidden → hidden = true →
    IsLine (Utf8.lossy n.val) ∧ d.Open
  unshared : Succeeds c d (Utf8.lossy n.val) hidden →
    (readDotHidden d.read).contains (Utf8.lossy n.val) = hidden ∨
      ∀ m ∈ names, m ≠ n → Utf8.lossy m.val ≠ Utf8.lossy n.val
  spares : d.Unread → c.Spares d (Utf8.lossy n.val) hidden

variable {c d dir n hidden}

theorem readDotHidden_of_unread (h : d.Unread) : readDotHidden d.read = [] := by
  rw [readDotHidden, h.2]

theorem after_of_unread (h : d.Unread) (name : Bytes) :
    after d name hidden = if hidden then [name] else [] := by
  rw [after, readDotHidden_of_unread h]
  rfl

theorem content_put (hd : d ≠ .folder) (bs : Bytes) : (d.put bs).content = bs := by
  rcases d with _ | ⟨_, _⟩ | (_ | ⟨_, _⟩) | _ <;> first | rfl | exact absurd rfl hd

theorem snd_saveNames_nil (file : PathBuf) : (saveNames c file [] d).2 = (c.removeFile d).2 := by
  rw [saveNames, if_pos rfl]
  simp only [bind, Act.attempt]
  cases (c.removeFile d).1 with
  | error e => cases e <;> rfl
  | ok u => rfl

theorem snd_saveNames {names : List Bytes} (hne : names ≠ []) (file : PathBuf) :
    (saveNames c file names d).2 = (c.writeFile (hiddenText names) d).2 := by
  rw [saveNames, if_neg hne]
  unfold Act.mapErr
  split
  · next h => rw [h]
  · next h => rw [h]

theorem length_removeFile : d.content.length ≤ (c.removeFile d).2.content.length ↔
    (c.remove = none → d.content = []) := by
  cases hc : c.remove with
  | some e => simp [Calls.removeFile, hc]
  | none => cases d <;> simp [Calls.removeFile, hc, DotHidden.content]

theorem length_writeFile (bs : Bytes) : d.content.length ≤ (c.writeFile bs d).2.content.length ↔
    (c.write = none → d.content.length ≤ bs.length) ∧
      ∀ e left, c.write = some (e, some left) → d.content.length ≤ left.length := by
  by_cases hd : d = .folder
  · obtain rfl := hd
    simp [DotHidden.content]
  · rcases hc : c.write with _ | ⟨e, _ | left⟩
    · have hrun : (c.writeFile bs d).2 = d.put bs := by
        unfold Calls.writeFile
        rw [hc]
        cases d <;> first | contradiction | rfl
      simp [hrun, content_put hd]
    · have hrun : (c.writeFile bs d).2 = d := by
        unfold Calls.writeFile
        rw [hc]
      simp [hrun]
    · have hrun : (c.writeFile bs d).2 = d.put left := by
        unfold Calls.writeFile
        rw [hc]
      simp [hrun, content_put hd]

/-- What becomes of a list that is not read. -/
theorem unread_spared_iff (hdot : n.val.head? ≠ some 46) (h : d.Unread) :
    d.content.length ≤ (setHidden c (entry dir n) hidden d).2.content.length ↔
      c.Spares d (Utf8.lossy n.val) hidden := by
  rw [snd_setHidden hdot, after_of_unread h]
  cases hidden with
  | false =>
    rw [if_neg Bool.false_ne_true, snd_saveNames_nil]
    exact length_removeFile
  | true =>
    rw [if_pos rfl, snd_saveNames (List.cons_ne_nil _ _), length_writeFile]
    simp [hiddenText, Calls.Spares]

theorem attributes_dot (hdot : n.val.head? = some 46) (stat : Except Errno ℕ) :
    (attributes stat (entry dir n) d).map Attributes.hidden =
      (stat.mapError (Error.ofErrno [.path (entry dir n)])).map fun _ => true := by
  have hhead : (Utf8.lossy n.val).head? = some 46 := (Utf8.head_lossy (by decide) n.val).2 hdot
  cases stat with
  | error e => rfl
  | ok mode =>
    rw [attributes, nameOf_entry]
    simp only [Except.map, Except.mapError, decide_eq_true hhead, Bool.true_or]

/-- What a call that returns leaves. -/
theorem eq_of_setHidden (hdot : n.val.head? ≠ some 46) {a : Attributes}
    (h : setHidden c (entry dir n) hidden d = (.ok a, d')) :
    d' = d.listing (after d (Utf8.lossy n.val) hidden) := by
  rw [setHidden_of_succeeds hdot (succeeds_of_ok hdot h)] at h
  exact (congrArg Prod.snd h).symm

theorem exists_run (hdot : n.val.head? ≠ some 46) (h : Succeeds c d (Utf8.lossy n.val) hidden) :
    ∃ a, setHidden c (entry dir n) hidden d =
      (.ok a, d.listing (after d (Utf8.lossy n.val) hidden)) := by
  obtain ⟨mode, hmode⟩ := h.1
  rw [setHidden_of_succeeds hdot h, hmode]
  exact ⟨_, rfl⟩

/-- What the law says of the name, where a call returns. -/
theorem HidesOnly.contains {names : List Name} (hdot : n.val.head? ≠ some 46)
    (h : HidesOnly c d dir n hidden names) (hs : Succeeds c d (Utf8.lossy n.val) hidden) :
    (readDotHidden (d.listing (after d (Utf8.lossy n.val) hidden)).read).contains (Utf8.lossy n.val) =
        hidden ∧
      (readDotHidden (d.listing (after d (Utf8.lossy n.val) hidden)).openHere).contains
        (Utf8.lossy n.val) = hidden := by
  obtain ⟨a, hrun⟩ := @exists_run c d dir n hidden hdot hs
  obtain ⟨hown, hrow⟩ := h.own a _ hrun
  obtain ⟨mode, hmode⟩ := hs.1
  rw [attributes_entry hdot, hmode] at hown
  rw [rowHidden_eq hdot] at hrow
  exact ⟨Except.ok.inj hown, hrow⟩

theorem HidesOnly.fits {names : List Name} (hdot : n.val.head? ≠ some 46)
    (h : HidesOnly c d dir n hidden names) : Fits c d n hidden names where
  carried := by
    rintro hs rfl
    obtain ⟨hread, hopen⟩ := h.contains hdot hs
    rw [List.contains_iff_mem] at hread hopen
    refine ⟨(mem_readDotHidden hread).1, ?_⟩
    have hne : after d (Utf8.lossy n.val) true ≠ [] := fun hnil =>
      absurd (after_eq_nil_iff.1 hnil).1 (by decide)
    refine (open_listing_iff hne).1 (open_of_openHere fun hnone => ?_)
    rw [hnone] at hopen
    exact absurd hopen List.not_mem_nil
  unshared := by
    intro hs
    by_contra hno
    simp only [not_or, not_forall, not_not] at hno
    obtain ⟨hold, m, hm, hne, hsame⟩ := hno
    obtain ⟨a, hrun⟩ := @exists_run c d dir n hidden hdot hs
    have hdotm : m.val.head? ≠ some 46 := fun hhead => by
      have hlossy := (Utf8.head_lossy (by decide) m.val).2 hhead
      rw [hsame] at hlossy
      exact hdot ((Utf8.head_lossy (by decide) n.val).1 hlossy)
    have hother := (h.others a _ hrun m hm hne).1 (.ok 0)
    rw [attributes_entry hdotm, attributes_entry hdotm, hsame] at hother
    exact hold ((Except.ok.inj hother).symm.trans (h.contains hdot hs).1)
  spares hd := (unread_spared_iff hdot hd).1 (h.spared hd)

theorem Fits.hidesOnly {names : List Name} (hdot : n.val.head? ≠ some 46)
    (h : Fits c d n hidden names) : HidesOnly c d dir n hidden names where
  own a d' hrun := by
    have hs := succeeds_of_ok hdot hrun
    obtain rfl := eq_of_setHidden hdot hrun
    have hvalid := Utf8.valid_lossy n.val
    obtain ⟨mode, hmode⟩ := hs.1
    constructor
    · rw [attributes_entry hdot, hmode, read_listing hvalid (h.carried hs), contains_after]
      rfl
    · rw [rowHidden_eq hdot]
      rcases openHere_listing hvalid (h.carried hs) with ⟨-, hlist⟩ | ⟨hh, -, hlist⟩
      · rw [hlist, contains_after]
      · rw [hlist, hh]
        rfl
  others a d' hrun m hm hne := by
    have hs := succeeds_of_ok hdot hrun
    obtain rfl := eq_of_setHidden hdot hrun
    have hvalid := Utf8.valid_lossy n.val
    by_cases hdotm : m.val.head? = some 46
    · have hhead := (Utf8.head_lossy (by decide) m.val).2 hdotm
      refine ⟨fun stat => by rw [attributes_dot hdotm, attributes_dot hdotm], ?_⟩
      rw [rowHidden, rowHidden, isHidden, isHidden, decide_eq_true hhead, Bool.true_or, Bool.true_or]
    · have hkeep : Utf8.lossy m.val = Utf8.lossy n.val →
          (readDotHidden d.read).contains (Utf8.lossy n.val) = hidden := fun hsame =>
        (h.unshared hs).resolve_right fun hall => hall m hm hne hsame
      constructor
      · intro stat
        rw [attributes_entry hdotm, attributes_entry hdotm, read_listing hvalid (h.carried hs),
          contains_after_of hkeep]
      · rw [rowHidden_eq hdotm, rowHidden_eq hdotm]
        rcases openHere_listing hvalid (h.carried hs) with ⟨hsame, hlist⟩ | ⟨-, hbefore, hlist⟩
        · rw [hlist, hsame, contains_after_of hkeep]
        · rw [hlist, hbefore]
  spared hd := (unread_spared_iff hdot hd).2 (h.spares hd)

/-- **Hiding a name**: the rows of a folder say of each name what its list says, and a call hides the one
name, to all who look, exactly when it fits. -/
theorem setHidden_iff (names : List Name) (hdot : n.val.head? ≠ some 46) :
    (∀ {γ δ : Type} (lower : Char → Str) (lowerStr : Str → Str) (f : Rows.Folder γ δ) (o : Options)
        (db : Desktop.MimeDb) (l : Listing γ δ), f.names = .ok (names.map Subtype.val) →
        f.dotHidden = d.openHere → list lower lowerStr f o db = .ok l →
        ∀ r ∈ l.rows, ∃ m ∈ names, r.name = Utf8.lossy m.val ∧ r.hidden = rowHidden d m.val) ∧
      (HidesOnly c d dir n hidden names ↔ Fits c d n hidden names) := by
  refine ⟨?_, HidesOnly.fits hdot, Fits.hidesOnly hdot⟩
  intro γ δ lower lowerStr f o db l hnames hlist hl r hr
  obtain ⟨name, hname, hrow, hhidden⟩ := hidden_of_mem_list hnames hl hr
  obtain ⟨m, hm, rfl⟩ := List.mem_map.1 hname
  exact ⟨m, hm, hrow, by rw [hhidden, hlist]; rfl⟩

end

/-- No call fails, and the entry is a plain file. -/
def works : Calls := ⟨.ok 0o644, none, none⟩

theorem isName_plain : IsName (text "a") := by decide

def plain : Name := ⟨text "a", isName_plain⟩

def spaced : Name := ⟨text "a ", by decide⟩

theorem setHidden_plain : plain.val.head? ≠ some 46 ∧ HidesOnly works .absent [] plain true [plain] :=
  ⟨by decide, (setHidden_iff [plain] (by decide)).2.2
    { carried := fun _ _ => ⟨by decide, Or.inl rfl⟩
      unshared := fun _ => Or.inr fun _ hm hne => absurd (List.mem_singleton.1 hm) hne
      spares := fun h => absurd rfl h.1 }⟩

/-- A list in another encoding. -/
def latin : Bytes := text "caf" ++ [0xE9] ++ text ".txt\n"

/-- A name with a space at its end is not hidden, the name without it is in its place, and a list in
another encoding is lost. -/
theorem setHidden_spaced :
    ¬HidesOnly works .absent [] spaced true [spaced, plain] ∧
      (rowHidden .absent plain.val = false ∧
        rowHidden (setHidden works (entry [] spaced) true .absent).2 plain.val = true) ∧
      ¬HidesOnly works (.file true latin) [] plain true [plain] := by
  have hrun : setHidden works (entry [] spaced) true .absent =
      (.ok ⟨false, false, false⟩, .file true (text "a \n")) := by decide
  refine ⟨fun h => ?_, by decide, fun h => ?_⟩
  · exact absurd (h.own _ _ hrun).2 (by decide)
  · exact absurd (h.spared ⟨by decide, by decide⟩) (by decide)

end Aurade.Ops.Hidden
