import Aurade.Installer.Stream

/-!
# What the readers make of the journal

The text of a record is the JSON of an object (`recordText_eq`), whose names are plain and distinct,
so what the readers search for they find only where it belongs: `json_field` a scalar field, and
`journal_last_for_stage` and `journal_last_failed` the records whose own stage or status it is.
-/

namespace Aurade.Installer.Stream

open Json (Object Scalar Value writeObject writeNamed writeMany quote brief kept mark leaves names
  Plain Unescaped)

/-! ## The text of a record -/

theorem jsonEscape_eq (s : Bytes) : jsonEscape s = s.flatMap brief := by
  induction s with
  | nil => rfl
  | cons b s ih =>
    have hbyte : ∀ b, jsonEscape [b] = brief b := forall_byte (by decide +kernel)
    have hcons : jsonEscape (b :: s) = jsonEscape [b] ++ jsonEscape s := by
      rw [← List.singleton_append]
      simp only [jsonEscape, substitute, List.flatMap_append, List.filter_append]
    rw [hcons, hbyte, ih, List.flatMap_cons]

/-- The fields of a record's target. -/
def targetFields (t : Target) : List (Bytes × Scalar) :=
  [(text "path", .str t.path.val), (text "serial", .str t.serial.val), (text "wwn", .str t.wwn.val),
    (text "size_bytes", .num t.size)]

/-- What a record says. -/
def recordObject (j : Journal) (now : Moment) (stage status message : Bytes) (extra : Object) :
    Object :=
  [(text "v", .one (.num version)), (text "install_id", .one (.str j.id.val)),
    (text "seq", .one (.num j.seq)), (text "attempt", .one (.num j.attempt)),
    (text "t", .one (.str now.text)), (text "stage", .one (.str stage)),
    (text "status", .one (.str status)), (text "reversible", .one (.bool (stageReversible stage))),
    (text "idempotent", .one (.bool (stageIdempotent stage)))] ++
  (if message ≠ [] then [(text "message", .one (.str message))] else []) ++
  extra ++ [(text "target", .fields (targetFields j.target))]

/-- Fields with commas between them. -/
def fieldsText (fs : Object) : Bytes := [44].intercalate (fs.map (writeNamed Value.write))

theorem intercalate_cons (x : Bytes) (xs : List Bytes) :
    [44].intercalate (x :: xs) = x ++ xs.flatMap (44 :: ·) := by
  induction xs generalizing x with
  | nil => simp
  | cons y xs ih => rw [List.intercalate_cons_cons, ih y]; simp

theorem fieldsText_comma (fs : Object) :
    (if fieldsText fs ≠ [] then text "," ++ fieldsText fs else []) =
      fs.flatMap fun f => 44 :: writeNamed Value.write f := by
  cases fs with
  | nil => rfl
  | cons f fs =>
    have hne : fieldsText (f :: fs) ≠ [] := by
      rw [fieldsText, List.map_cons, intercalate_cons]
      simp [writeNamed, quote]
    rw [if_pos hne, fieldsText, List.map_cons, intercalate_cons, List.flatMap_map]
    rfl

theorem flag_eq (b : Bool) : flag b = (Scalar.bool b).write := by cases b <;> rfl

theorem padded_unescaped (w n : ℕ) : ∀ b ∈ padded w n, Json.isName b = true := by
  intro b hb
  have hdigit := List.all_eq_true.1 (all_isDigit_padded w n) b hb
  rw [Json.isName, hdigit]
  rfl

theorem Moment.unescaped (m : Moment) : Unescaped m.text := by
  have hdigits : ∀ w n, Unescaped (padded w n) := fun w n =>
    Json.unescaped_of_name (List.all_eq_true.2 (padded_unescaped w n))
  intro b hb
  simp only [Moment.text, List.mem_append, List.mem_cons, List.not_mem_nil, or_false] at hb
  rcases hb with ((((((hb | rfl | hb) | rfl | hb) | rfl | hb) | rfl | hb) | rfl | hb) | rfl)
  all_goals first | exact hdigits _ _ b hb | decide

theorem moment_text (m : Moment) : m.text.flatMap brief = m.text :=
  Json.flatMap_brief_unescaped m.unescaped

theorem write_str (s : Bytes) : (Scalar.str s).write = 34 :: (s.flatMap brief ++ [34]) := rfl

theorem write_num (n : ℕ) : (Scalar.num n).write = decimal n := rfl

/-- The texts between the values, with the names that they hold. -/
theorem literals :
    text "\x7b\"v\":" = 123 :: (quote (text "v") ++ [58]) ∧
    text ",\"install_id\":\"" = 44 :: (quote (text "install_id") ++ [58, 34]) ∧
    text "\",\"seq\":" = 34 :: 44 :: (quote (text "seq") ++ [58]) ∧
    text ",\"attempt\":" = 44 :: (quote (text "attempt") ++ [58]) ∧
    text ",\"t\":\"" = 44 :: (quote (text "t") ++ [58, 34]) ∧
    text "\"," = [34, 44] ∧
    text "\"stage\":\"" = quote (text "stage") ++ [58, 34] ∧
    text "\",\"status\":\"" = 34 :: 44 :: (quote (text "status") ++ [58, 34]) ∧
    text "\",\"reversible\":" = 34 :: 44 :: (quote (text "reversible") ++ [58]) ∧
    text ",\"idempotent\":" = 44 :: (quote (text "idempotent") ++ [58]) ∧
    text ",\"message\":\"" = 44 :: (quote (text "message") ++ [58, 34]) ∧
    text "\"" = [34] ∧
    text ",\"target\":" = 44 :: (quote (text "target") ++ [58]) ∧
    text "\x7d" = [125] ∧
    text "\x7b\"path\":\"" = 123 :: (quote (text "path") ++ [58, 34]) ∧
    text "\",\"serial\":\"" = 34 :: 44 :: (quote (text "serial") ++ [58, 34]) ∧
    text "\",\"wwn\":\"" = 34 :: 44 :: (quote (text "wwn") ++ [58, 34]) ∧
    text "\",\"size_bytes\":" = 34 :: 44 :: (quote (text "size_bytes") ++ [58]) := by
  decide

theorem targetJson_eq (t : Target) : targetJson t = (Value.fields (targetFields t)).write := by
  obtain ⟨-, -, -, -, -, -, -, -, -, -, -, -, -, hbrace, hpath, hserial, hwwn, hsize⟩ := literals
  rw [targetJson, hpath, hserial, hwwn, hsize, hbrace]
  simp only [jsonEscape_eq, Value.write, targetFields, writeMany, List.map_cons, List.map_nil,
    intercalate_cons, List.flatMap_cons, List.flatMap_nil, writeNamed, write_str, write_num,
    List.append_assoc, List.cons_append, List.nil_append, List.append_nil]

/-- **A record's text is the JSON of what it says.** -/
theorem recordText_eq (j : Journal) (now : Moment) (stage status message : Bytes) (extra : Object) :
    recordText j now stage status message (fieldsText extra) =
      writeObject (recordObject j now stage status message extra) := by
  obtain ⟨hv, hid, hseq, hattempt, ht, hcomma, hstage, hstatus, hrev, hidem, hmessage, hquote,
    htarget, hbrace, -⟩ := literals
  have hmsg : (if message ≠ [] then text ",\"message\":\"" ++ jsonEscape message ++ text "\"" else []) =
      (if message ≠ [] then [(text "message", Value.one (.str message))] else []).flatMap
        fun f => 44 :: writeNamed Value.write f := by
    split
    · rw [hmessage, hquote, jsonEscape_eq]
      simp [writeNamed, Value.write, write_str]
    · rfl
  rw [recordText, fieldsText_comma, hmsg, hv, hid, hseq, hattempt, ht, hcomma, hstage, hstatus, hrev,
    hidem, htarget, hbrace, targetJson_eq]
  simp only [writeObject, recordObject, writeMany, List.cons_append, List.nil_append, List.map_cons,
    intercalate_cons, List.flatMap_map, List.flatMap_append, List.flatMap_cons, List.flatMap_nil,
    jsonEscape_eq, flag_eq, moment_text, writeNamed, Value.write, write_str, write_num,
    List.append_assoc, List.append_nil]

/-! ## The entries -/

/-- The further fields of an entry. -/
def Entry.extra : Entry → Object
  | .emit .. => []
  | .begin stage _ =>
    [(text "index", .one (.num (stageIndex stage.val))), (text "of", .one (.num stages.length))]
  | .progress _ pct _ => [(text "pct", .one (.num pct))]
  | .ok _ _ elapsed => [(text "elapsed_ms", .one (.num elapsed))]
  | .fail stage exit cause _ remediation =>
    [(text "exit", .one (.num exit)), (text "cause", .one (.str cause.val)),
      (text "resumable", .one (.bool (stageIdempotent stage.val))),
      (text "remediation", .many ((offered stage.val (remediation.map (·.val))).map .str))]

def Entry.stage : Entry → Text
  | .emit stage _ _ | .begin stage _ | .progress stage _ _ | .ok stage _ _ | .fail stage _ _ _ _ =>
    stage

def Entry.status : Entry → Bytes
  | .emit _ status _ => status.val
  | .begin _ _ | .progress _ _ _ => text "running"
  | .ok _ _ _ => text "ok"
  | .fail _ _ _ _ _ => text "failed"

def Entry.message : Entry → Text
  | .emit _ _ message | .begin _ message | .progress _ _ message | .ok _ message _
  | .fail _ _ _ message _ => message

/-- What an entry's record says. -/
def Entry.object (j : Journal) (now : Moment) (e : Entry) : Object :=
  recordObject { j with seq := j.seq + 1 } now e.stage.val e.status e.message.val e.extra

/-- The texts between the values of the further fields. -/
theorem extra_literals :
    text "\"index\":" = quote (text "index") ++ [58] ∧
    text ",\"of\":" = 44 :: (quote (text "of") ++ [58]) ∧
    text "\"pct\":" = quote (text "pct") ++ [58] ∧
    text "\"elapsed_ms\":" = quote (text "elapsed_ms") ++ [58] ∧
    text "\"exit\":" = quote (text "exit") ++ [58] ∧
    text ",\"cause\":\"" = 44 :: (quote (text "cause") ++ [58, 34]) ∧
    text "\",\"resumable\":" = 34 :: 44 :: (quote (text "resumable") ++ [58]) ∧
    text ",\"remediation\":[" = 44 :: (quote (text "remediation") ++ [58, 91]) ∧
    text "]" = [93] := by
  decide

theorem append_file (j : Journal) (now : Moment) (e : Entry) :
    (append j now e).file = j.file ++ (writeObject (e.object j now) ++ [newline]) := by
  obtain ⟨hindex, hof, hpct, helapsed, hexit, hcause, hresumable, hremediation, hbracket⟩ :=
    extra_literals
  have hemit : ∀ (extra : Bytes), extra = fieldsText e.extra →
      (journalEmit j now e.stage.val e.status e.message.val extra).file =
        j.file ++ (writeObject (e.object j now) ++ [newline]) := by
    rintro extra rfl
    rw [journalEmit, recordText_eq]
    rfl
  cases e with
  | emit stage status message => exact hemit [] rfl
  | begin stage message =>
    refine hemit _ ?_
    rw [hindex, hof]
    simp [fieldsText, Entry.extra, writeNamed, Value.write, write_num]
  | progress stage pct detail =>
    refine hemit _ ?_
    rw [hpct]
    simp [fieldsText, Entry.extra, writeNamed, Value.write, write_num]
  | ok stage message elapsed =>
    refine hemit _ ?_
    rw [helapsed]
    simp [fieldsText, Entry.extra, writeNamed, Value.write, write_num]
  | fail stage exit cause message remediation =>
    refine hemit _ ?_
    have hquote : text "\"" = [34] := literals.2.2.2.2.2.2.2.2.2.2.2.1
    rw [hexit, hcause, hresumable, hremediation, hbracket, hquote]
    simp [fieldsText, Entry.extra, writeNamed, Value.write, write_str, write_num,
      writeMany, jsonEscape_eq, flag_eq, Function.comp_def]

/-! ## Names and strings of a record -/

/-- The names before a record's message. -/
def frontNames : List Bytes :=
  [text "v", text "install_id", text "seq", text "attempt", text "t", text "stage", text "status",
    text "reversible", text "idempotent"]

/-- The names behind its further fields. -/
def backNames : List Bytes :=
  [text "target", text "path", text "serial", text "wwn", text "size_bytes"]

/-- The names of the further fields, by what is written. -/
def extraNames : List (List Bytes) :=
  [[], [text "index", text "of"], [text "pct"], [text "elapsed_ms"],
    [text "exit", text "cause", text "resumable", text "remediation"]]

theorem names_extra (e : Entry) : names e.extra ∈ extraNames := by
  cases e <;> simp [names, Json.namesOf, Entry.extra, extraNames]

theorem names_object (j : Journal) (now : Moment) (e : Entry) :
    names (e.object j now) = frontNames ++
      ((if e.message.val ≠ [] then [text "message"] else []) ++ (names e.extra ++ backNames)) := by
  unfold Entry.object recordObject
  split <;> simp [names, Json.namesOf, targetFields, frontNames, backNames]

/-- Names that no field search mistakes. -/
def wellNamed (ks : List Bytes) : Bool :=
  ks.all (fun k => k ≠ [] && k.all Json.isName) && decide ks.Nodup

theorem all_wellNamed : (extraNames.all fun ks =>
    wellNamed (frontNames ++ ([text "message"] ++ (ks ++ backNames))) &&
      wellNamed (frontNames ++ ([] ++ (ks ++ backNames)))) = true := by
  decide

theorem object_names (j : Journal) (now : Moment) (e : Entry) :
    (∀ k ∈ names (e.object j now), Plain k) ∧ (names (e.object j now)).Nodup := by
  have hall := List.all_eq_true.1 all_wellNamed (names e.extra) (names_extra e)
  rw [Bool.and_eq_true] at hall
  have hwell : wellNamed (names (e.object j now)) = true := by
    rw [names_object]
    split
    · exact hall.1
    · exact hall.2
  rw [wellNamed, Bool.and_eq_true, decide_eq_true_eq] at hwell
  refine ⟨fun k hk => ?_, hwell.2⟩
  have hk' := List.all_eq_true.1 hwell.1 k hk
  rw [Bool.and_eq_true, decide_eq_true_eq] at hk'
  exact hk'

theorem valid_unescaped_low {s : Bytes} (h : ∀ c ∈ s, c < 0x80) : Utf8.valid s = true := by
  have := Utf8.valid_append_of_ascii h []
  rwa [List.nil_append] at this

theorem moment_valid (m : Moment) : Utf8.valid m.text = true := by
  have hdigits : ∀ w n, ∀ c ∈ padded w n, c < 0x80 := by
    intro w n c hc
    have hdigit := List.all_eq_true.1 (all_isDigit_padded w n) c hc
    simp only [isDigit, Bool.and_eq_true, decide_eq_true_eq] at hdigit
    exact UInt8.lt_of_le_of_lt hdigit.2 (by decide)
  refine valid_unescaped_low fun b hb => ?_
  simp only [Moment.text, List.mem_append, List.mem_cons, List.not_mem_nil, or_false] at hb
  rcases hb with ((((((hb | rfl | hb) | rfl | hb) | rfl | hb) | rfl | hb) | rfl | hb) | rfl)
  all_goals first | exact hdigits _ _ b hb | decide

theorem valid_name {k : Bytes} (h : Plain k) : Utf8.valid k = true := by
  refine valid_unescaped_low fun c hc => ?_
  exact forall_byte (P := fun c => Json.isName c = true → c < 0x80) (by decide +kernel) c
    (List.all_eq_true.1 h.2 c hc)

theorem offered_valid {stage : Bytes} {remediation : List Text} :
    ∀ item ∈ offered stage (remediation.map (·.val)), Utf8.valid item = true := by
  intro item hitem
  simp only [offered] at hitem
  split at hitem
  · have hall : [text "log", text "shell", text "reboot"].all (fun s => Utf8.valid s) = true := by
      decide
    exact List.all_eq_true.1 hall item hitem
  · obtain ⟨t, -, rfl⟩ := List.mem_map.1 (List.mem_of_mem_filter hitem)
    exact t.property

theorem status_valid (e : Entry) : Utf8.valid e.status = true := by
  have hfixed : Utf8.valid (text "running") = true ∧ Utf8.valid (text "ok") = true ∧
      Utf8.valid (text "failed") = true := by decide
  cases e with
  | emit stage status message => exact status.property
  | begin stage message => exact hfixed.1
  | progress stage pct detail => exact hfixed.1
  | ok stage message elapsed => exact hfixed.2.1
  | fail stage exit cause message remediation => exact hfixed.2.2

theorem extra_valid (e : Entry) : ∀ f ∈ e.extra, f.2.Valid := by
  cases e with
  | emit stage status message =>
    intro f hf
    cases hf
  | begin stage message => simp [Entry.extra, Value.Valid, Scalar.Valid]
  | progress stage pct detail => simp [Entry.extra, Value.Valid, Scalar.Valid]
  | ok stage message elapsed => simp [Entry.extra, Value.Valid, Scalar.Valid]
  | fail stage exit cause message remediation =>
    have hcause : (Value.one (.str cause.val)).Valid := cause.property
    have hremediation : (Value.many ((offered stage.val (remediation.map (·.val))).map
        Scalar.str)).Valid := by
      intro v hv
      obtain ⟨item, hitem, rfl⟩ := List.mem_map.1 hv
      exact offered_valid item hitem
    intro f hf
    simp only [Entry.extra, List.mem_cons, List.not_mem_nil, or_false] at hf
    rcases hf with rfl | rfl | rfl | rfl
    · trivial
    · exact hcause
    · trivial
    · exact hremediation

theorem object_valid (j : Journal) (now : Moment) (e : Entry) :
    ∀ f ∈ e.object j now, Utf8.valid f.1 = true ∧ f.2.Valid := by
  intro f hf
  refine ⟨valid_name ((object_names j now e).1 f.1 ?_), ?_⟩
  · exact List.mem_flatMap.2 ⟨f, hf, List.mem_cons_self⟩
  · have hbase : ∀ (s : Bytes), Utf8.valid s = true → (Value.one (.str s)).Valid := fun _ h => h
    have hmessage : ∀ f ∈ (if e.message.val ≠ [] then [(text "message", Value.one (.str e.message.val))]
        else []), f.2.Valid := by
      split
      · exact List.forall_mem_singleton.2 e.message.property
      · intro f hf
        cases hf
    have htarget : (Value.fields (targetFields j.target)).Valid := by
      intro g hg
      have hname : [text "path", text "serial", text "wwn", text "size_bytes"].all
          (fun k => Utf8.valid k) = true := by
        decide
      refine ⟨List.all_eq_true.1 hname g.1 (List.mem_map.2 ⟨g, hg, rfl⟩), ?_⟩
      simp only [targetFields, List.mem_cons, List.not_mem_nil, or_false] at hg
      rcases hg with rfl | rfl | rfl | rfl
      · exact j.target.path.property
      · exact j.target.serial.property
      · exact j.target.wwn.property
      · trivial
    simp only [Entry.object, recordObject, List.mem_append, List.mem_cons, List.not_mem_nil,
      or_false] at hf
    rcases hf with ((hf | hf) | hf) | rfl
    · rcases hf with rfl | rfl | rfl | rfl | rfl | rfl | rfl | rfl | rfl
      · trivial
      · exact j.id.property
      · trivial
      · trivial
      · exact moment_valid now
      · exact e.stage.property
      · exact status_valid e
      · trivial
      · trivial
    · exact hmessage f hf
    · exact extra_valid e f hf
    · exact htarget

/-! ## What `json_field` gives -/

/-- A character as the readers show it: a newline and a tab are spaces. -/
def spaced (c : UInt8) : UInt8 := if c = 10 ∨ c = 9 then 32 else c

/-- What `json_field` has to print of a value. -/
def shown : Scalar → Bytes
  | .str s => s.map spaced
  | .num n => decimal n
  | .bool b => flag b

/-- The escapes that the reader knows. -/
theorem brief_read (b : UInt8) (hb : b ≠ 13) :
    (brief b = [] ∧ kept [b] = []) ∨
    (∃ c, brief b = [92, c] ∧ kept [b] = [b] ∧
      (if c = 110 then 32 else if c = 116 then 32 else c) = spaced b) ∨
    (brief b = [b] ∧ kept [b] = [b] ∧ b ≠ 34 ∧ b ≠ 92 ∧ spaced b = b) := by
  have hall : ∀ b : UInt8, b ≠ 13 → (brief b = [] ∧ kept [b] = []) ∨
      (∃ c ∈ [(34 : UInt8), 92, 110, 116], brief b = [92, c] ∧ kept [b] = [b] ∧
        (if c = 110 then 32 else if c = 116 then 32 else c) = spaced b) ∨
      (brief b = [b] ∧ kept [b] = [b] ∧ b ≠ 34 ∧ b ≠ 92 ∧ spaced b = b) :=
    forall_byte (by decide +kernel)
  rcases hall b hb with h | ⟨c, -, h⟩ | h
  · exact Or.inl h
  · exact Or.inr (Or.inl ⟨c, h⟩)
  · exact Or.inr (Or.inr h)

theorem scan_brief {s : Bytes} (hs : 13 ∉ s) (result r : Bytes) :
    scan false result (s.flatMap brief ++ 34 :: r) = result ++ (kept s).map spaced := by
  induction s generalizing result with
  | nil => exact (List.append_nil result).symm
  | cons b s ih =>
    obtain ⟨hb, hs⟩ := List.forall_mem_cons.1 (fun x hx => fun h13 => hs (h13 ▸ hx) :
      ∀ x ∈ b :: s, x ≠ 13)
    have hs : 13 ∉ s := fun h => hs 13 h rfl
    rw [List.flatMap_cons, List.append_assoc, Json.kept_cons]
    rcases brief_read b hb with ⟨hbrief, hkept⟩ | ⟨c, hbrief, hkept, hc⟩ |
      ⟨hbrief, hkept, hquote, hback, hspaced⟩
    · rw [hbrief, hkept]
      exact ih hs result
    · have hstep : scan true result (c :: (s.flatMap brief ++ 34 :: r)) =
          scan false (result ++ [spaced b]) (s.flatMap brief ++ 34 :: r) := by
        rw [← hc, scan, if_pos rfl]
        split
        · rfl
        · split <;> rfl
      rw [hbrief, hkept]
      show scan false result (92 :: c :: (s.flatMap brief ++ 34 :: r)) = _
      rw [scan, if_neg (by decide), if_pos rfl, hstep, ih hs]
      simp
    · rw [hbrief, hkept]
      show scan false result (b :: (s.flatMap brief ++ 34 :: r)) = _
      rw [scan, if_neg (by decide), if_neg hback, if_neg hquote, ih hs]
      simp [hspaced]

/-- No carriage return is in the value. -/
def NoReturn : Scalar → Prop
  | .str s => 13 ∉ s
  | _ => True

theorem marker_eq (f : Bytes) : text "\"" ++ f ++ text "\":" = mark f := by
  have hquote : text "\"" = [34] ∧ text "\":" = [34, 58] := by decide
  rw [hquote.1, hquote.2, mark]
  rfl

theorem takeWhile_stop {p : UInt8 → Bool} {t r : Bytes} {c : UInt8} (ht : ∀ b ∈ t, p b = true)
    (hc : ¬ p c = true) : (t ++ c :: r).takeWhile p = t := by
  rw [List.takeWhile_append_of_pos ht, List.takeWhile_cons_of_neg hc, List.append_nil]

/-- **A scalar field is read as its value**, where no carriage return is in it. -/
theorem jsonField_leaf {o : Object} (hplain : ∀ k ∈ names o, Plain k) (hnodup : (names o).Nodup)
    {f : Bytes} {v : Scalar} (hmem : (f, v) ∈ leaves o) (hv : NoReturn v) :
    jsonField f (writeObject o) = shown v.kept := by
  obtain ⟨c, r, hafter, hc⟩ := Json.after_name hplain hnodup hmem
  rw [jsonField, marker_eq, hafter]
  have hstop : ¬ (c ≠ 44 && c ≠ 125) = true := by
    rcases hc with rfl | rfl <;> decide
  cases v with
  | str s =>
    show (if _ then _ else _) = _
    rw [if_pos (by rw [write_str]; rfl)]
    have hdrop : ((Scalar.str s).write ++ c :: r).drop 1 = s.flatMap brief ++ 34 :: c :: r := by
      simp [write_str]
    rw [hdrop, scan_brief hv]
    rfl
  | num n =>
    obtain ⟨d, ds, hds, hd⟩ := Json.head_decimal n
    have hhead : (decimal n ++ c :: r).head? ≠ some 34 := by
      rw [hds, List.cons_append, List.head?_cons]
      exact fun h => (Json.isDigit_not_text hd).1 (Option.some.inj h)
    show (if _ then _ else _) = _
    rw [write_num, if_neg hhead]
    refine takeWhile_stop (fun b hb => ?_) hstop
    exact forall_byte (P := fun b => isDigit b = true → (b ≠ 44 && b ≠ 125) = true)
      (by decide +kernel) b (List.all_eq_true.1 (all_isDigit_decimal n) b hb)
  | bool b =>
    have hflag : (flag b).all (fun b => b ≠ 44 && b ≠ 125) = true ∧ (flag b).head? ≠ some 34 ∧
        flag b ≠ [] := by cases b <;> decide
    show (if _ then _ else _) = _
    rw [← flag_eq, if_neg]
    · exact takeWhile_stop (fun b hb => List.all_eq_true.1 hflag.1 b hb) hstop
    · rw [List.head?_append_of_ne_nil _ hflag.2.2]
      exact hflag.2.1

/-! ## The lines of the journal -/

theorem awkLines_flatMap {lines : List Bytes} (h : ∀ line ∈ lines, newline ∉ line) :
    awkLines (lines.flatMap (· ++ [newline])) = lines := by
  have hsplit : (lines.flatMap (· ++ [newline])).splitOn newline = lines ++ [[]] := by
    induction lines with
    | nil => simp
    | cons line lines ih =>
      obtain ⟨hline, hlines⟩ := List.forall_mem_cons.1 h
      rw [List.flatMap_cons, List.append_assoc, List.singleton_append,
        List.splitOn_append_cons_self, List.splitOn_eq_singleton hline, ih hlines]
      rfl
  rw [awkLines, hsplit]
  simp

/-- The lines that are written. -/
def written (j : Journal) : List (Moment × Entry) → List Bytes
  | [] => []
  | x :: xs => writeObject (x.2.object j x.1) :: written (append j x.1 x.2) xs

theorem run_file (j : Journal) (es : List (Moment × Entry)) :
    (run j es).file = j.file ++ (written j es).flatMap (· ++ [newline]) := by
  induction es generalizing j with
  | nil => exact (List.append_nil _).symm
  | cons x xs ih =>
    show (run (append j x.1 x.2) xs).file = _
    rw [ih, append_file]
    simp [written]

theorem newline_notMem (o : Object) : newline ∉ writeObject o :=
  fun h => absurd (Json.low_writeObject o newline h) (by decide)

theorem written_lines {j : Journal} {es : List (Moment × Entry)} {line : Bytes}
    (h : line ∈ written j es) : ∃ j' now e, line = writeObject (Entry.object j' now e) := by
  induction es generalizing j with
  | nil => cases h
  | cons x xs ih =>
    rcases List.mem_cons.1 h with rfl | h
    · exact ⟨j, x.1, x.2, rfl⟩
    · exact ih h

/-! ## Records that can be trusted -/

/-- What stands under a name in the object that a line is the JSON of. -/
def ownField (f line : Bytes) : Option Value := (Json.parse line).bind fun o => o.lookup f

theorem lookup_kept {o : Object} {f : Bytes} {v : Value} (hplain : ∀ k ∈ names o, Plain k)
    (h : o.lookup f = some v) : (o.map (Json.keptNamed Value.kept)).lookup f = some v.kept := by
  induction o with
  | nil => cases h
  | cons g o ih =>
    have hname : kept g.1 = g.1 := Json.kept_unescaped (Json.unescaped_of_name
      (hplain g.1 (List.mem_flatMap.2 ⟨g, List.mem_cons_self, List.mem_cons_self⟩)).2)
    have hrest : ∀ k ∈ names o, Plain k := fun k hk => by
      obtain ⟨g', hg', hk⟩ := List.mem_flatMap.1 hk
      exact hplain k (List.mem_flatMap.2 ⟨g', List.mem_cons_of_mem _ hg', hk⟩)
    rw [List.map_cons, Json.keptNamed, hname]
    rw [List.lookup_cons] at h ⊢
    split at h
    · rw [← Option.some.inj h]
    · exact ih hrest h

theorem parse_object (j : Journal) (now : Moment) (e : Entry) :
    Json.parse (writeObject (e.object j now)) =
      some ((e.object j now).map (Json.keptNamed Value.kept)) :=
  Json.parse_writeObject (object_valid j now e)

theorem ownField_object {j : Journal} {now : Moment} {e : Entry} {f : Bytes} {v : Value}
    (h : (e.object j now).lookup f = some v) :
    ownField f (writeObject (e.object j now)) = some v.kept := by
  rw [ownField, parse_object, Option.bind_some]
  exact lookup_kept (object_names j now e).1 h

theorem lookup_stage (j : Journal) (now : Moment) (e : Entry) :
    (e.object j now).lookup (text "stage") = some (.one (.str e.stage.val)) := rfl

theorem lookup_status (j : Journal) (now : Moment) (e : Entry) :
    (e.object j now).lookup (text "status") = some (.one (.str e.status)) := rfl

theorem lookup_message (j : Journal) (now : Moment) {e : Entry} (h : e.message.val ≠ []) :
    (e.object j now).lookup (text "message") = some (.one (.str e.message.val)) := by
  unfold Entry.object recordObject
  rw [if_pos h]
  rfl

theorem mem_leaves_one {o : Object} {f : Bytes} {v : Scalar} (h : (f, .one v) ∈ o) :
    (f, v) ∈ leaves o :=
  List.mem_flatMap.2 ⟨_, h, List.mem_singleton_self _⟩

theorem leaves_kept {o : Object} (hplain : ∀ k ∈ names o, Plain k) {f : Bytes} {v : Scalar}
    (h : (f, v) ∈ leaves (o.map (Json.keptNamed Value.kept))) :
    ∃ v₀, (f, v₀) ∈ leaves o ∧ v = v₀.kept := by
  obtain ⟨g', hg', hleaf⟩ := List.mem_flatMap.1 h
  obtain ⟨g, hg, rfl⟩ := List.mem_map.1 hg'
  have hname : ∀ k ∈ Json.namesOf g, kept k = k := fun k hk =>
    Json.kept_unescaped (Json.unescaped_of_name (hplain k (List.mem_flatMap.2 ⟨g, hg, hk⟩)).2)
  rcases g with ⟨k, v' | vs | fs⟩
  · obtain ⟨rfl, rfl⟩ := Prod.mk.inj (List.mem_singleton.1 hleaf)
    refine ⟨v', ?_, rfl⟩
    show (kept k, v') ∈ leaves o
    rw [hname k List.mem_cons_self]
    exact mem_leaves_one hg
  · cases hleaf
  · obtain ⟨g₀, hg₀, heq⟩ := List.mem_map.1 (show (f, v) ∈ fs.map (Json.keptNamed Scalar.kept) from hleaf)
    obtain ⟨hf, hv⟩ := Prod.mk.inj heq
    have hkept := hname g₀.1 (List.mem_cons_of_mem _ (List.mem_map.2 ⟨g₀, hg₀, rfl⟩))
    refine ⟨g₀.2, List.mem_flatMap.2 ⟨_, hg, ?_⟩, hv.symm⟩
    rw [← hf, hkept]
    exact hg₀

theorem kept_kept (v : Scalar) : v.kept.kept = v.kept := by
  cases v with
  | str s => simp [Scalar.kept, kept]
  | num n => rfl
  | bool b => rfl

theorem noReturn_kept {v : Scalar} (h : NoReturn v.kept) : NoReturn v := by
  cases v with
  | str s =>
    intro hmem
    exact h (List.mem_filter.2 ⟨hmem, by decide⟩)
  | num n => trivial
  | bool b => trivial

/-- What can be relied on of the record of an entry. -/
structure Trusted (e : Entry) (line : Bytes) : Prop where
  oneLine : newline ∉ line
  /-- It is JSON, and no name is used twice. -/
  json : ∃ o, Json.parse line = some o ∧ (names o).Nodup
  stage : ownField (text "stage") line = some (.one (.str (kept e.stage.val)))
  status : ownField (text "status") line = some (.one (.str (kept e.status)))
  message : e.message.val ≠ [] →
    ownField (text "message") line = some (.one (.str (kept e.message.val)))
  /-- What `json_field` gives of a string without carriage returns, a number or a truth value. -/
  field : ∀ o, Json.parse line = some o → ∀ f v, (f, v) ∈ leaves o → NoReturn v →
    jsonField f line = shown v

theorem names_kept {o : Object} (hplain : ∀ k ∈ names o, Plain k) :
    names (o.map (Json.keptNamed Value.kept)) = names o := by
  induction o with
  | nil => rfl
  | cons g o ih =>
    have hname : ∀ k ∈ Json.namesOf g, kept k = k := fun k hk =>
      Json.kept_unescaped (Json.unescaped_of_name
        (hplain k (List.mem_flatMap.2 ⟨g, List.mem_cons_self, hk⟩)).2)
    have hrest := ih fun k hk => by
      obtain ⟨g', hg', hk⟩ := List.mem_flatMap.1 hk
      exact hplain k (List.mem_flatMap.2 ⟨g', List.mem_cons_of_mem _ hg', hk⟩)
    have hhead : Json.namesOf (Json.keptNamed Value.kept g) = Json.namesOf g := by
      rcases g with ⟨k, v | vs | fs⟩
      · exact congrArg (· :: []) (hname k List.mem_cons_self)
      · exact congrArg (· :: []) (hname k List.mem_cons_self)
      · show kept k :: (fs.map (Json.keptNamed Scalar.kept)).map Prod.fst = k :: fs.map Prod.fst
        rw [hname k List.mem_cons_self, List.map_map]
        refine congrArg (k :: ·) (List.map_congr_left fun g hg => ?_)
        exact hname g.1 (List.mem_cons_of_mem _ (List.mem_map.2 ⟨g, hg, rfl⟩))
    show Json.namesOf (Json.keptNamed Value.kept g) ++ names (o.map _) = Json.namesOf g ++ names o
    rw [hhead, hrest]

theorem trusted (j : Journal) (now : Moment) (e : Entry) :
    Trusted e (writeObject (e.object j now)) := by
  obtain ⟨hplain, hnodup⟩ := object_names j now e
  refine ⟨newline_notMem _, ⟨_, parse_object j now e, ?_⟩, ownField_object (lookup_stage j now e),
    ownField_object (lookup_status j now e), fun h => ownField_object (lookup_message j now h),
    fun o ho f v hmem hv => ?_⟩
  · rw [names_kept hplain]
    exact hnodup
  · rw [parse_object] at ho
    obtain rfl := Option.some.inj ho
    obtain ⟨v₀, hmem₀, rfl⟩ := leaves_kept hplain hmem
    exact jsonField_leaf hplain hnodup hmem₀ (noReturn_kept hv)

theorem written_trusted (j : Journal) (es : List (Moment × Entry)) :
    List.Forall₂ (fun x line => Trusted x.2 line) es (written j es) := by
  induction es generalizing j with
  | nil => exact .nil
  | cons x xs ih => exact .cons (trusted j x.1 x.2) (ih _)

/-- The records of a field's value, told by their text and by what they say. -/
theorem found_iff {j : Journal} {now : Moment} {e : Entry} {f s q : Bytes} (hq : Unescaped q)
    (hmem : (f, .str s) ∈ leaves (e.object j now))
    (hown : ownField f (writeObject (e.object j now)) = some (.one (.str (kept s)))) :
    (findSub (mark f ++ 34 :: (q ++ [34])) (writeObject (e.object j now))).isSome =
      decide (ownField f (writeObject (e.object j now)) = some (.one (.str q))) := by
  obtain ⟨hplain, hnodup⟩ := object_names j now e
  have hiff := Json.findSub_named hplain hnodup hq hmem
  rw [hown, Bool.eq_iff_iff, hiff, decide_eq_true_eq]
  constructor
  · rintro rfl
    rfl
  · intro h
    injection h with h
    injection h with h
    injection h

theorem stage_leaf (j : Journal) (now : Moment) (e : Entry) :
    (text "stage", .str e.stage.val) ∈ leaves (e.object j now) := by
  refine mem_leaves_one ?_
  simp [Entry.object, recordObject]

theorem status_leaf (j : Journal) (now : Moment) (e : Entry) :
    (text "status", .str e.status) ∈ leaves (e.object j now) := by
  refine mem_leaves_one ?_
  simp [Entry.object, recordObject]

/-- The last line of those that say something. -/
def lastOwn (f q : Bytes) (lines : List Bytes) : Bytes :=
  ((lines.filter fun line => ownField f line = some (.one (.str q))).getLast?).getD []

theorem lastWith_eq {j : Journal} (hj : j.file = []) (es : List (Moment × Entry)) {f q : Bytes}
    (hq : Unescaped q)
    (hfield : ∀ j now e, ∃ s, (f, .str s) ∈ leaves (Entry.object j now e) ∧
      ownField f (writeObject (Entry.object j now e)) = some (.one (.str (kept s)))) :
    lastWith (mark f ++ 34 :: (q ++ [34])) (run j es).file = lastOwn f q (written j es) := by
  have hlines : ∀ line ∈ written j es, newline ∉ line := fun line hline => by
    obtain ⟨j', now, e, rfl⟩ := written_lines hline
    exact newline_notMem _
  rw [run_file, hj, List.nil_append, lastWith, awkLines_flatMap hlines, lastOwn]
  refine congrArg (fun l : List Bytes => l.getLast?.getD []) (List.filter_congr fun line hline => ?_)
  obtain ⟨j', now, e, rfl⟩ := written_lines hline
  obtain ⟨s, hmem, hown⟩ := hfield j' now e
  exact found_iff hq hmem hown

theorem want_eq (f q : Bytes) :
    text "\"" ++ f ++ text "\":\"" ++ q ++ text "\"" = mark f ++ 34 :: (q ++ [34]) := by
  have hquote : text "\"" = [34] ∧ text "\":\"" = [34, 58, 34] := by decide
  rw [hquote.1, hquote.2, mark]
  simp

/-- **Journal records can be trusted by their readers.** Every record that is appended is one line of
JSON; its message is what was written, less the control characters that were dropped; `json_field` of
a scalar field without carriage returns is that field's value; and the last record of a stage whose
name needs no escapes, and the last failed one, are the last whose own stage or status it is. -/
theorem records_trusted (assigned : Bytes → Bytes)
    (hassigned : ∀ t : Bytes, 92 ∉ t → assigned t = t) (j : Journal) (hj : j.file = [])
    (es : List (Moment × Entry)) :
    (run j es).file = (written j es).flatMap (· ++ [newline]) ∧
    List.Forall₂ (fun x line => Trusted x.2 line) es (written j es) ∧
    (∀ stage, Unescaped stage → journalLastForStage assigned stage (some (run j es).file) =
      lastOwn (text "stage") stage (written j es)) ∧
    journalLastFailed (some (run j es).file) =
      lastOwn (text "status") (text "failed") (written j es) := by
  refine ⟨?_, written_trusted j es, fun stage hstage => ?_, ?_⟩
  · rw [run_file, hj, List.nil_append]
  · have hwant := want_eq (text "stage") stage
    have hsplit : text "\"stage\":\"" = text "\"" ++ text "stage" ++ text "\":\"" := by decide
    have hback : 92 ∉ text "\"stage\":\"" ++ stage ++ text "\"" := by
      intro hmem
      rcases List.mem_append.1 hmem with hmem | hmem
      · rcases List.mem_append.1 hmem with hmem | hmem
        · exact absurd hmem (by decide)
        · exact (hstage 92 hmem).2.2 rfl
      · exact absurd hmem (by decide)
    rw [journalLastForStage, hassigned _ hback, hsplit, hwant]
    exact lastWith_eq hj es hstage fun j now e =>
      ⟨_, stage_leaf j now e, ownField_object (lookup_stage j now e)⟩
  · have hfailed : Unescaped (text "failed") := by
      refine Json.unescaped_of_name ?_
      decide
    have hwant : text "\"status\":\"failed\"" =
        mark (text "status") ++ 34 :: (text "failed" ++ [34]) := by decide
    rw [journalLastFailed, hwant]
    exact lastWith_eq hj es hfailed fun j now e =>
      ⟨_, status_leaf j now e, ownField_object (lookup_status j now e)⟩

/-! ## A journal of three records -/

def moment : Moment := ⟨2026, 3, 14, 9, 26, 53⟩

/-- A text of ASCII. -/
def plain (s : String) : Text := Text.lossy (text s)

def newJournal : Journal where
  id := plain "5f0c8f6e-9a52-4a0e-8d0b-3f5f2c0a9f11"
  seq := 0
  attempt := 1
  target := ⟨plain "/dev/sda", plain "S3R1AL", plain "", 256060514304⟩
  file := []

/-- A stage that nobody named so, a message with a carriage return, and a failure. -/
def entries : List (Moment × Entry) :=
  [(moment, .emit (plain "a\"b") (plain "started") (plain "mode=offline")),
    (moment, .begin (plain "acquire") (plain "got\rlost")),
    (moment, .fail (plain "pacstrap") 1 (plain "network-error") (plain "\"status\":\"ok\"")
      [plain "log", plain "shell", plain "reboot"])]

theorem records_trusted_entries :
    (run newJournal entries).file = (written newJournal entries).flatMap (· ++ [newline]) ∧
    List.Forall₂ (fun x line => Trusted x.2 line) entries (written newJournal entries) ∧
    (∀ stage, Unescaped stage → journalLastForStage id stage (some (run newJournal entries).file) =
      lastOwn (text "stage") stage (written newJournal entries)) ∧
    journalLastFailed (some (run newJournal entries).file) =
      lastOwn (text "status") (text "failed") (written newJournal entries) :=
  records_trusted id (fun _ _ => rfl) newJournal rfl entries

/-- A list is cut at its first comma. A stage whose name has a quote is not found. And a carriage
return is shown as the letter behind its backslash. -/
theorem readers_astray :
    (jsonField (text "remediation") (journalLastFailed (some (run newJournal entries).file)) =
        text "[\"log\"" ∧
      ownField (text "remediation") (journalLastFailed (some (run newJournal entries).file)) =
        some (.many [.str (text "log"), .str (text "shell"), .str (text "reboot")])) ∧
    (journalLastForStage id (text "a\"b") (some (run newJournal entries).file) = [] ∧
      lastOwn (text "stage") (text "a\"b") (written newJournal entries) ≠ []) ∧
    (jsonField (text "message")
        (journalLastForStage id (text "acquire") (some (run newJournal entries).file)) =
          text "gotrlost" ∧
      ownField (text "message")
        (journalLastForStage id (text "acquire") (some (run newJournal entries).file)) =
          some (.one (.str (text "got\rlost")))) := by
  decide +kernel

end Aurade.Installer.Stream
