import Mathlib.Data.List.DropRight
import Aurade.Foundations.Text

/-!
# Answer files

`answersLoad` reads a file line by line: a line gives a question an answer if there is such a question,
it is not secret, and its validator and `applyAnswer` accept the answer; the names of other lines are
reported, made safe for a screen. `answersSave` writes the answers there are.

`answers_hold` says what a file does, whatever is in it: an answer is the one of the last line that is
accepted, or the one there was before. What was refused and has no answer is reported by its name, or
counted where there are names enough. And what was saved is loaded as it was, of answers without line
breaks: a file has no other way to end them.
-/

namespace Aurade.Installer.Answers

/-! ## The questions -/

/-- A question. -/
structure Question where
  id : String
  validator : String
  secret : Bool
  deriving DecidableEq

/-- The questions, in their order. -/
def questions : List Question :=
  [⟨"target", "aurade_valid_target", false⟩, ⟨"hostname", "aurade_valid_hostname", false⟩,
    ⟨"username", "aurade_valid_username", false⟩, ⟨"password", "", true⟩, ⟨"encrypt", "", false⟩,
    ⟨"luks_passphrase", "", true⟩, ⟨"keymap", "aurade_valid_keymap", false⟩,
    ⟨"timezone", "aurade_valid_timezone", false⟩, ⟨"locale", "aurade_valid_locale", false⟩,
    ⟨"layout", "aurade_valid_layout", false⟩, ⟨"filesystem", "aurade_valid_filesystem", false⟩,
    ⟨"swap", "aurade_valid_swap", false⟩, ⟨"swap_size", "aurade_valid_swap_size", false⟩,
    ⟨"snapshot", "aurade_valid_arch_snapshot", false⟩, ⟨"repo_url", "", false⟩,
    ⟨"wallpaper", "aurade_valid_wallpaper", false⟩,
    ⟨"profile", "aurade_valid_feature_profile", false⟩,
    ⟨"display_scale", "aurade_valid_display_scale", false⟩, ⟨"apps", "aurade_valid_apps", false⟩,
    ⟨"auto_snapshots", "aurade_valid_yes_no", false⟩]

/-- The question of a name. -/
def question (id : Bytes) : Option Question := questions.find? fun q => text q.id = id

/-- The machine: what the validators of its own answer, its disks, and the keymaps it loads. -/
structure Machine where
  /-- A validator, by its name. -/
  valid : String → Bytes → Bool
  /-- Whether there is a block device of a name, and whether it is a partition. -/
  block : Bytes → Bool
  partition : Bytes → Bool
  /-- Whether a keymap is loaded, or there is nothing to load it with. -/
  loadkeys : Bytes → Bool
  /-- The moment, as `date` prints it. -/
  now : Bytes
  now_plain : ∀ b ∈ now, 32 ≤ b

/-- `aurade_valid_target`. -/
def validTarget (m : Machine) (target : Bytes) : Bool :=
  let name := (target.drop (text "/dev/").length).map fun b => if b = 47 then 33 else b
  (text "/dev/").isPrefixOf target && (findSub (text "..") target).isNone && m.block name &&
    !m.partition name

/-- `aurade_question_validate`. -/
def validate (m : Machine) (q : Question) (answer : Bytes) : Bool :=
  if q.validator = "" then answer ≠ []
  else if q.validator = "aurade_valid_target" then validTarget m answer
  else m.valid q.validator answer

/-- A letter in lower case. -/
def lower (b : UInt8) : UInt8 := if 65 ≤ b ∧ b ≤ 90 then b + 32 else b

/-- `apply_answer`. -/
def applyAnswer (m : Machine) (id answer : Bytes) : Bool :=
  if id = text "hostname" then answer.map lower ≠ text "localhost"
  else if id = text "keymap" then m.loadkeys answer
  else true

/-- Whether a file may give a question an answer. -/
def accepts (m : Machine) (id answer : Bytes) : Bool :=
  match question id with
  | none => false
  | some q => !q.secret && validate m q answer && applyAnswer m id answer

/-! ## Loading -/

/-- The answers there are. -/
abbrev Given := Bytes → Option Bytes

/-- What is kept while a file is loaded. -/
structure State where
  answers : Given
  /-- `ANSWERS_REJECTED`. -/
  rejected : List Bytes
  /-- `ANSWERS_REJECTED_MORE`. -/
  more : ℕ

/-- A control character. -/
def control (b : UInt8) : Bool := b < 32 || b = 127

/-- White space. -/
def space (b : UInt8) : Bool := b = 32 || (9 ≤ b && b ≤ 13)

/-- A name as it is put on a screen. -/
def shown (name : Bytes) : Bytes :=
  let name := name.filter fun b => !control b
  if name.length ≤ 24 then name else name.take 24 ++ text "..."

/-- `answers_reject`. -/
def reject (s : State) (id : Bytes) : State :=
  if shown id = [] ∨ 8 ≤ s.rejected.length then { s with more := s.more + 1 }
  else { s with rejected := s.rejected ++ [shown id] }

/-- A line without the carriage return it ends in. -/
def withoutReturn (line : Bytes) : Bytes := if line.getLast? = some 13 then line.dropLast else line

/-- A line without a byte order mark. -/
def withoutMark (line : Bytes) : Bytes := if [239, 187, 191] <+: line then line.drop 3 else line

/-- The lines of a file. `read` passes over bytes that are zero. -/
def fileLines (content : Bytes) : List Bytes :=
  (((content.filter (· ≠ 0)).splitOn newline).map withoutReturn).modifyHead withoutMark

/-- The name and the value of a line, where it has them. -/
def entryOf (line : Bytes) : Option (Bytes × Bytes) :=
  if line = [] ∨ line.head? = some 35 then none
  else
    match splitOnce 61 line with
    | none => none
    | some (id, value) =>
      let id := (id.dropWhile space).rdropWhile space
      if id = [] then none else some (id, value)

/-- One turn of the loop. -/
def readLine (m : Machine) (s : State) (line : Bytes) : State :=
  match entryOf line with
  | none => s
  | some (id, value) =>
    if accepts m id value then { s with answers := Function.update s.answers id (some value) }
    else reject s id

/-- Whether a question has an answer. -/
def Given.answered (answers : Given) (id : Bytes) : Bool := (answers id).getD [] ≠ []

/-- `answers_load`, of a file that can be read. -/
def answersLoad (m : Machine) (before : Given) (content : Bytes) : State :=
  let s := (fileLines content).foldl (readLine m) ⟨before, [], 0⟩
  { s with rejected := s.rejected.filter fun name => !s.answers.answered name }

/-! ## Saving -/

/-- The first lines of a file that is saved. -/
def heading (m : Machine) : List Bytes :=
  [text "# AuraDE answers, written " ++ m.now,
    text "# Feed this back with: aurade-installer-tui --answers FILE",
    text "# Passwords and passphrases are deliberately not here."]

/-- The line of a question, where it has an answer and is not secret. -/
def answerLine (answers : Given) (q : Question) : Option Bytes :=
  if q.secret then none
  else if answers.answered (text q.id) then
    some (text q.id ++ 61 :: (answers (text q.id)).getD [])
  else none

/-- `answers_save`, where the file can be written. -/
def answersSave (m : Machine) (answers : Given) : Bytes :=
  (heading m ++ questions.filterMap (answerLine answers)).flatMap fun line => line ++ [newline]

/-! ## What is set -/

/-- What a line gives a question, where it is accepted. -/
def acceptedFor (m : Machine) (id line : Bytes) : Option Bytes :=
  (entryOf line).bind fun e => if e.1 = id ∧ accepts m id e.2 = true then some e.2 else none

/-- The answer of the last line that is accepted for a question. -/
def lastAccepted (m : Machine) (content id : Bytes) : Option Bytes :=
  (fileLines content).reverse.findSome? (acceptedFor m id)

/-- What a line does to the answers. -/
theorem readLine_answers (m : Machine) (s : State) (line id : Bytes) :
    (readLine m s line).answers id = (acceptedFor m id line).or (s.answers id) := by
  rw [readLine, acceptedFor]
  cases entryOf line with
  | none => rfl
  | some e =>
    obtain ⟨id', value⟩ := e
    rw [Option.bind_some]
    by_cases hid : id' = id
    · subst hid
      by_cases haccepts : accepts m id' value = true
      · simp [haccepts]
      · simp only [haccepts, Bool.false_eq_true, if_false, and_false, Option.none_or]
        unfold reject
        split <;> rfl
    · rw [if_neg fun h => hid h.1, Option.none_or]
      dsimp only
      split
      · exact Function.update_of_ne (Ne.symm hid) _ _
      · unfold reject
        split <;> rfl

theorem foldl_answers (m : Machine) (lines : List Bytes) (s : State) (id : Bytes) :
    (lines.foldl (readLine m) s).answers id =
      (lines.reverse.findSome? (acceptedFor m id)).or (s.answers id) := by
  induction lines using List.reverseRecOn with
  | nil => rfl
  | append_singleton lines line ih =>
    rw [List.foldl_append, List.foldl_cons, List.foldl_nil, readLine_answers, ih, List.reverse_append,
      List.reverse_singleton, List.singleton_append, List.findSome?_cons]
    cases acceptedFor m id line <;> simp

theorem answersLoad_answers (m : Machine) (before : Given) (content id : Bytes) :
    (answersLoad m before content).answers id = (lastAccepted m content id).or (before id) :=
  foldl_answers m (fileLines content) ⟨before, [], 0⟩ id

theorem accepts_of_lastAccepted {m : Machine} {content id value : Bytes}
    (h : lastAccepted m content id = some value) : accepts m id value = true := by
  obtain ⟨line, -, hline⟩ := List.exists_of_findSome?_eq_some h
  obtain ⟨e, -, he⟩ := Option.bind_eq_some_iff.1 hline
  split at he
  · next hid =>
    cases he
    exact hid.2
  · cases he

/-- A secret is not accepted. -/
theorem accepts_of_secret {m : Machine} {id value : Bytes} {q : Question} (hq : question id = some q)
    (hs : q.secret = true) : accepts m id value = false := by
  simp [accepts, hq, hs]

/-! ## What is reported -/

/-- The names that are reported are few, short and safe. -/
structure Safe (rejected : List Bytes) : Prop where
  few : rejected.length ≤ 8
  plain : ∀ name ∈ rejected, (∀ b ∈ name, control b = false) ∧ name.length ≤ 27

theorem shown_plain (name : Bytes) : (∀ b ∈ shown name, control b = false) ∧ (shown name).length ≤ 27 := by
  have hall : (text "...").all (fun b => !control b) = true := by decide
  have hdots : (∀ b ∈ text "...", control b = false) ∧ (text "...").length = 3 :=
    ⟨fun b hb => by simpa using List.all_eq_true.1 hall b hb, by decide⟩
  have hfilter : ∀ b ∈ name.filter fun b => !control b, control b = false := fun b hb => by
    simpa using (List.mem_filter.1 hb).2
  unfold shown
  dsimp only
  split
  · next hlen => exact ⟨hfilter, by omega⟩
  · constructor
    · intro b hb
      rcases List.mem_append.1 hb with hb | hb
      · exact hfilter b (List.mem_of_mem_take hb)
      · exact hdots.1 b hb
    · rw [List.length_append, List.length_take, hdots.2]
      omega

theorem safe_reject {s : State} (h : Safe s.rejected) (id : Bytes) : Safe (reject s id).rejected := by
  unfold reject
  split
  · exact h
  · next hfew =>
    rw [not_or, not_le] at hfew
    constructor
    · rw [List.length_append, List.length_singleton]
      exact hfew.2
    · intro name hname
      rcases List.mem_append.1 hname with hname | hname
      · exact h.plain name hname
      · rw [List.mem_singleton.1 hname]
        exact shown_plain id

theorem safe_readLine {m : Machine} {s : State} (h : Safe s.rejected) (line : Bytes) :
    Safe (readLine m s line).rejected := by
  unfold readLine
  split
  · exact h
  · split
    · exact h
    · exact safe_reject h _

theorem safe_foldl {m : Machine} (lines : List Bytes) {s : State} (h : Safe s.rejected) :
    Safe (lines.foldl (readLine m) s).rejected := by
  induction lines generalizing s with
  | nil => exact h
  | cons line lines ih => exact ih (safe_readLine h line)

/-- A name is reported, or names are counted. -/
def Told (s : State) (id : Bytes) : Prop := id ∈ s.rejected ∨ 0 < s.more

theorem told_reject {s : State} {id : Bytes} (h : Told s id) (id' : Bytes) : Told (reject s id') id := by
  unfold reject
  split
  · exact Or.inr (Nat.succ_pos _)
  · exact h.imp_left fun hmem => List.mem_append_left _ hmem

theorem told_foldl {m : Machine} (lines : List Bytes) {s : State} {id : Bytes} (h : Told s id) :
    Told (lines.foldl (readLine m) s) id := by
  induction lines generalizing s with
  | nil => exact h
  | cons line lines ih =>
    refine ih ?_
    unfold readLine
    split
    · exact h
    · split
      · exact h
      · exact told_reject h _

theorem question_spec {id : Bytes} {q : Question} (h : question id = some q) :
    q ∈ questions ∧ text q.id = id := by
  have hid := List.find?_some h
  exact ⟨List.mem_of_find?_eq_some h, by simpa using hid⟩

/-- The names of questions are shown as they are. -/
theorem shown_questions : ∀ q ∈ questions, shown (text q.id) = text q.id ∧ text q.id ≠ [] := by decide

theorem told_of_rejected {s : State} {id : Bytes} {q : Question} (hq : question id = some q) :
    Told (reject s id) id := by
  obtain ⟨hmem, rfl⟩ := question_spec hq
  obtain ⟨hshown, hne⟩ := shown_questions q hmem
  unfold reject
  split
  · exact Or.inr (Nat.succ_pos _)
  · exact Or.inl (List.mem_append_right _ (List.mem_singleton.2 hshown.symm))

/-- A question that is named with an answer that is not accepted is reported. -/
theorem told_of_mem {m : Machine} {lines : List Bytes} {s : State} {line id value : Bytes} {q : Question}
    (hline : line ∈ lines) (he : entryOf line = some (id, value)) (hq : question id = some q)
    (haccepts : accepts m id value = false) : Told (lines.foldl (readLine m) s) id := by
  induction lines generalizing s with
  | nil => exact absurd hline List.not_mem_nil
  | cons l lines ih =>
    rcases List.mem_cons.1 hline with rfl | hline
    · refine told_foldl lines ?_
      simp only [readLine, he, haccepts, Bool.false_eq_true, if_false]
      exact told_of_rejected hq
    · exact ih hline

/-! ## What is saved -/

/-- A line that a file can hold. -/
structure Holdable (line : Bytes) : Prop where
  newline : newline ∉ line
  zero : 0 ∉ line
  not_return : line.getLast? ≠ some 13

/-- The name of a question as it stands before its answer. -/
structure Named (id : Bytes) : Prop where
  ne_nil : id ≠ []
  not_comment : id.head? ≠ some 35
  no_equals : 61 ∉ id
  trimmed : (id.dropWhile space).rdropWhile space = id
  newline : newline ∉ id
  zero : 0 ∉ id

theorem questions_named {q : Question} (hq : q ∈ questions) : Named (text q.id) := by
  have hall : ∀ q ∈ questions, text q.id ≠ [] ∧ (text q.id).head? ≠ some 35 ∧ 61 ∉ text q.id ∧
      ((text q.id).dropWhile space).rdropWhile space = text q.id ∧ Aurade.newline ∉ text q.id ∧
      0 ∉ text q.id := by decide
  obtain ⟨h₁, h₂, h₃, h₄, h₅, h₆⟩ := hall q hq
  exact ⟨h₁, h₂, h₃, h₄, h₅, h₆⟩

theorem question_of_mem : ∀ q ∈ questions, question (text q.id) = some q := by decide

/-- The line of a question is read as it was written. -/
theorem entryOf_answer {id : Bytes} (h : Named id) (value : Bytes) :
    entryOf (id ++ 61 :: value) = some (id, value) := by
  have hhead : (id ++ 61 :: value).head? = id.head? := by
    obtain ⟨b, rest, rfl⟩ := List.exists_cons_of_ne_nil h.ne_nil
    rfl
  have hno : ¬(id ++ 61 :: value = [] ∨ (id ++ 61 :: value).head? = some 35) := by
    rw [hhead]
    exact not_or.2 ⟨by simp, h.not_comment⟩
  rw [entryOf, if_neg hno, splitOnce_append h.no_equals]
  simp only [h.trimmed, if_neg h.ne_nil]

/-- What can be saved: answers that are accepted, without line breaks and zeros in them. -/
def Savable (m : Machine) (answers : Given) : Prop :=
  ∀ q ∈ questions, q.secret = false → ∀ value, answers (text q.id) = some value → value ≠ [] →
    accepts m (text q.id) value = true ∧ Holdable value

/-- What is saved of the answers: those to questions that are not secret. -/
def kept (answers : Given) (id : Bytes) : Option Bytes :=
  (question id).bind fun q => if q.secret = true ∨ answers.answered id = false then none else answers id

section Saves

variable {m : Machine} {answers : Given}

theorem answered_eq_true {id : Bytes} :
    answers.answered id = true ↔ ∃ value, answers id = some value ∧ value ≠ [] := by
  unfold Given.answered
  cases answers id <;> simp

/-- The lines of answers, one by one. -/
theorem mem_answerLines {line : Bytes} (h : line ∈ questions.filterMap (answerLine answers)) :
    ∃ q ∈ questions, q.secret = false ∧ ∃ value, answers (text q.id) = some value ∧ value ≠ [] ∧
      line = text q.id ++ 61 :: value := by
  obtain ⟨q, hq, hline⟩ := List.mem_filterMap.1 h
  unfold answerLine at hline
  split at hline
  · cases hline
  · next hs =>
    split at hline
    · next ha =>
      obtain ⟨value, hvalue, hne⟩ := answered_eq_true.1 ha
      rw [hvalue] at hline
      exact ⟨q, hq, by simpa using hs, value, hvalue, hne, (Option.some.inj hline).symm⟩
    · cases hline

theorem answerLine_mem {q : Question} (hq : q ∈ questions) (hs : q.secret = false) {value : Bytes}
    (hvalue : answers (text q.id) = some value) (hne : value ≠ []) :
    text q.id ++ 61 :: value ∈ questions.filterMap (answerLine answers) := by
  have ha : answers.answered (text q.id) = true := answered_eq_true.2 ⟨value, hvalue, hne⟩
  exact List.mem_filterMap.2 ⟨q, hq, by simp [answerLine, hs, ha, hvalue]⟩

theorem holdable_answer {id value : Bytes} (hid : Named id) (hvalue : Holdable value)
    (hne : value ≠ []) : Holdable (id ++ 61 :: value) := by
  obtain ⟨hline, hzero, hreturn⟩ := hvalue
  refine ⟨by simp [hid.newline, hline, newline], by simp [hid.zero, hzero], ?_⟩
  obtain ⟨b, rest, rfl⟩ := List.exists_cons_of_ne_nil hne
  rwa [List.getLast?_append_cons, List.getLast?_cons_cons]

theorem holdable_of_plain {line : Bytes} (h : ∀ b ∈ line, 32 ≤ b) : Holdable line := by
  have hlow : ∀ b : UInt8, b < 32 → b ∉ line := fun b hb hmem => absurd (h b hmem) (by
    rw [UInt8.not_le]
    exact hb)
  refine ⟨hlow _ (by decide), hlow _ (by decide), fun hlast => ?_⟩
  exact hlow 13 (by decide) (List.mem_of_getLast? hlast)

theorem le_of_all {line : Bytes} (h : line.all (32 ≤ ·) = true) : ∀ b ∈ line, 32 ≤ b :=
  fun b hb => of_decide_eq_true (List.all_eq_true.1 h b hb)

theorem holdable_heading : ∀ line ∈ heading m, Holdable line := by
  have hplain : (∀ b ∈ text "# AuraDE answers, written ", 32 ≤ b) ∧
      (∀ b ∈ text "# Feed this back with: aurade-installer-tui --answers FILE", 32 ≤ b) ∧
      ∀ b ∈ text "# Passwords and passphrases are deliberately not here.", 32 ≤ b :=
    ⟨le_of_all (by decide), le_of_all (by decide), le_of_all (by decide)⟩
  intro line hline
  refine holdable_of_plain ?_
  simp only [heading, List.mem_cons, List.not_mem_nil, or_false] at hline
  rcases hline with rfl | rfl | rfl
  · intro b hb
    exact (List.mem_append.1 hb).elim (hplain.1 b) (m.now_plain b)
  · exact hplain.2.1
  · exact hplain.2.2

/-- The lines of a file that was saved. -/
theorem fileLines_save (h : Savable m answers) :
    fileLines (answersSave m answers) =
      heading m ++ questions.filterMap (answerLine answers) ++ [[]] := by
  have hlines : ∀ line ∈ heading m ++ questions.filterMap (answerLine answers), Holdable line := by
    intro line hline
    rcases List.mem_append.1 hline with hline | hline
    · exact holdable_heading line hline
    · obtain ⟨q, hq, hs, value, hvalue, hne, rfl⟩ := mem_answerLines hline
      exact holdable_answer (questions_named hq) (h q hq hs value hvalue hne).2 hne
  have hfilter : (answersSave m answers).filter (· ≠ 0) = answersSave m answers := by
    refine List.filter_eq_self.2 fun b hb => decide_eq_true fun h0 => ?_
    obtain ⟨line, hline, hmem⟩ := List.mem_flatMap.1 hb
    rcases List.mem_append.1 hmem with hmem | hmem
    · exact (hlines line hline).zero (h0 ▸ hmem)
    · rw [h0] at hmem
      exact absurd (List.mem_singleton.1 hmem) (by decide)
  have hreturn : (heading m ++ questions.filterMap (answerLine answers) ++ [[]]).map withoutReturn =
      heading m ++ questions.filterMap (answerLine answers) ++ [[]] := by
    refine (List.map_congr_left fun line hline => ?_).trans (List.map_id _)
    rcases List.mem_append.1 hline with hline | hline
    · exact if_neg (hlines line hline).not_return
    · rw [List.mem_singleton.1 hline]
      rfl
  rw [fileLines, hfilter, answersSave, splitOn_flatMap_lines fun l hl => (hlines l hl).newline, hreturn]
  rfl

/-- A line that is read as nothing gives no question an answer. -/
theorem acceptedFor_heading {line : Bytes} (h : line ∈ heading m) (id : Bytes) :
    acceptedFor m id line = none := by
  have hhead : line.head? = some 35 := by
    simp only [heading, List.mem_cons, List.not_mem_nil, or_false] at h
    rcases h with rfl | rfl | rfl <;> rfl
  rw [acceptedFor, entryOf, if_pos (Or.inr hhead)]
  rfl

/-- A line that gives a question an answer is the one of its own that was saved. -/
theorem acceptedFor_saved {id line value : Bytes}
    (hline : line ∈ heading m ++ questions.filterMap (answerLine answers) ++ [[]])
    (h : acceptedFor m id line = some value) : kept answers id = some value := by
  rcases List.mem_append.1 hline with hline | hline
  · rcases List.mem_append.1 hline with hline | hline
    · rw [acceptedFor_heading hline] at h
      cases h
    · obtain ⟨q, hq, hs, v, hv, hne, rfl⟩ := mem_answerLines hline
      rw [acceptedFor, entryOf_answer (questions_named hq), Option.bind_some] at h
      split at h
      · next hid =>
        obtain ⟨rfl, -⟩ := hid
        have ha : answers.answered (text q.id) = true := answered_eq_true.2 ⟨v, hv, hne⟩
        rw [kept, question_of_mem q hq, Option.bind_some, if_neg (by simp [hs, ha]), hv]
        exact h
      · cases h
  · rw [List.mem_singleton.1 hline] at h
    cases h

/-- **What was saved is loaded as it was.** -/
theorem load_save (h : Savable m answers) (id : Bytes) :
    (answersLoad m (fun _ => none) (answersSave m answers)).answers id = kept answers id := by
  have hall : ∀ line ∈ (fileLines (answersSave m answers)).reverse, ∀ value,
      acceptedFor m id line = some value → kept answers id = some value := by
    intro line hline value hvalue
    rw [List.mem_reverse, fileLines_save h] at hline
    exact acceptedFor_saved hline hvalue
  rw [answersLoad_answers, Option.or_none, lastAccepted]
  cases hlast : (fileLines (answersSave m answers)).reverse.findSome? (acceptedFor m id) with
  | some value =>
    obtain ⟨line, hline, hvalue⟩ := List.exists_of_findSome?_eq_some hlast
    exact (hall line hline value hvalue).symm
  | none =>
    cases hkept : kept answers id with
    | none => rfl
    | some value =>
      obtain ⟨q, hquestion, hq⟩ := Option.bind_eq_some_iff.1 hkept
      obtain ⟨hmem, rfl⟩ := question_spec hquestion
      split at hq
      · cases hq
      · next hno =>
        rw [not_or] at hno
        have hs : q.secret = false := by simpa using hno.1
        have hne : value ≠ [] := by
          rintro rfl
          exact hno.2 (by simp [Given.answered, hq])
        have hline := answerLine_mem hmem hs hq hne
        have hnone := List.findSome?_eq_none_iff.1 hlast (text q.id ++ 61 :: value) (by
          rw [List.mem_reverse, fileLines_save h]
          exact List.mem_append_left _ (List.mem_append_right _ hline))
        rw [acceptedFor, entryOf_answer (questions_named hmem), Option.bind_some,
          if_pos ⟨rfl, (h q hmem hs value hq hne).1⟩] at hnone
        cases hnone

end Saves

/-! ## What a file does -/

/-- What is wanted of loading a file: an answer is of the last line that is accepted, or the one there
was; a secret is left as it was; and what is refused is told, few and safe names of it. -/
structure Held (m : Machine) (before : Given) (content : Bytes) : Prop where
  set : ∀ id, (answersLoad m before content).answers id = (lastAccepted m content id).or (before id)
  accepted : ∀ id value, lastAccepted m content id = some value → accepts m id value = true
  secret : ∀ id q, question id = some q → q.secret = true →
    (answersLoad m before content).answers id = before id
  told : ∀ line ∈ fileLines content, ∀ id value, entryOf line = some (id, value) →
    (question id).isSome = true → accepts m id value = false →
    (answersLoad m before content).answers.answered id = false →
    id ∈ (answersLoad m before content).rejected ∨ 0 < (answersLoad m before content).more
  safe : ∀ name ∈ (answersLoad m before content).rejected,
    (∀ b ∈ name, control b = false) ∧ name.length ≤ 27
  few : (answersLoad m before content).rejected.length ≤ 8

theorem held (m : Machine) (before : Given) (content : Bytes) : Held m before content := by
  have hsafe : Safe ((fileLines content).foldl (readLine m) ⟨before, [], 0⟩).rejected :=
    safe_foldl _ ⟨Nat.zero_le _, fun name hname => absurd hname List.not_mem_nil⟩
  refine ⟨answersLoad_answers m before content, fun id value h => accepts_of_lastAccepted h,
    fun id q hq hs => ?_, fun line hline id value he hid haccepts hanswered => ?_,
    fun name hname => hsafe.plain name (List.mem_of_mem_filter hname),
    (List.length_filter_le _ _).trans hsafe.few⟩
  · have hnone : lastAccepted m content id = none := by
      by_contra hsome
      obtain ⟨value, hvalue⟩ := Option.ne_none_iff_exists'.1 hsome
      cases (accepts_of_lastAccepted hvalue).symm.trans (accepts_of_secret hq hs)
    rw [answersLoad_answers, hnone, Option.none_or]
  · obtain ⟨q, hq⟩ := Option.isSome_iff_exists.1 hid
    have htold : Told ((fileLines content).foldl (readLine m) ⟨before, [], 0⟩) id :=
      told_of_mem hline he hq haccepts
    exact htold.imp_left fun hmem => List.mem_filter.2 ⟨hmem, congrArg not hanswered⟩

/-- A machine that accepts what its validators look at. -/
def lenient : Machine where
  valid _ _ := true
  block _ := true
  partition _ := false
  loadkeys _ := true
  now := []
  now_plain _ h := absurd h List.not_mem_nil

/-- Eight names that are no question, and a question with an answer that is refused. -/
def crowded : Bytes := text "a=\nb=\nc=\nd=\ne=\nf=\ng=\nh=\nencrypt=\n"

end Aurade.Installer.Answers
