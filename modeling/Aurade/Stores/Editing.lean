import Aurade.Stores.Apps

/-!
# One line of a list, set

`upsertDefault` and `parseMimeSection` find a section and a line of it each in its own way. Where the
type and the application can be read back from a line (`IsKey`, `Writable`), they agree: the line that
is set is the first answer for its type, and no other answer changes (`defaults_upsertLines`,
`others_upsertLines`). As a text, the rest of the list comes through where no line that stays ends in
a carriage return (`upsertDefault_edits_iff`).
-/

namespace Aurade.Stores

open Fs

/-! ## Sections -/

/-- Whether a section is open behind some lines. -/
def insideAfter (section_ : Bytes) : Bool → List Bytes → Bool
  | inside, [] => inside
  | inside, line :: rest =>
    if (trimBytes line).head? = some 91 then
      insideAfter section_ (trimBytes line = text "[" ++ section_ ++ text "]") rest
    else insideAfter section_ inside rest

theorem mimeLines_append (section_ : Bytes) (inside : Bool) (a b : List Bytes) :
    mimeLines section_ inside (a ++ b) =
      mimeLines section_ inside a ++ mimeLines section_ (insideAfter section_ inside a) b := by
  induction a generalizing inside with
  | nil => rfl
  | cons line a ih =>
    rw [List.cons_append, mimeLines, mimeLines, insideAfter]
    split
    · exact ih _
    · split
      · exact ih _
      · split
        · rw [ih]
          rfl
        · exact ih _

/-- What a line of an open section says. -/
def entryOf (line : Bytes) : Option (Bytes × List Bytes) :=
  let line := trimBytes line
  if line = [] || line.head? = some 35 then none
  else (splitOnce equals line).map fun p => (trimBytes p.1, parseIds p.2)

/-- Lines that open no section are read one by one, or not at all. -/
theorem mimeLines_body (section_ : Bytes) (inside : Bool) {body : List Bytes}
    (h : ∀ line ∈ body, (trimBytes line).head? ≠ some 91) :
    mimeLines section_ inside body = (if inside then body.filterMap entryOf else []) ∧
      insideAfter section_ inside body = inside := by
  induction body with
  | nil => exact ⟨by cases inside <;> rfl, rfl⟩
  | cons line body ih =>
    obtain ⟨hline, hbody⟩ := List.forall_mem_cons.1 h
    obtain ⟨ihm, ihi⟩ := ih hbody
    refine ⟨?_, by rw [insideAfter, if_neg hline, ihi]⟩
    rw [mimeLines, if_neg hline, ihm, List.filterMap_cons, entryOf]
    cases inside with
    | false => simp
    | true =>
      simp only [Bool.not_true, Bool.false_or, if_true]
      by_cases hskip : (decide (trimBytes line = []) || decide ((trimBytes line).head? = some 35)) = true
      · rw [if_pos hskip, if_pos hskip]
      · rw [if_neg hskip, if_neg hskip]
        cases splitOnce equals (trimBytes line) with
        | none => rfl
        | some p => rfl

/-- Before a section is opened nothing is read. -/
theorem mimeLines_outside {section_ : Bytes} {ls : List Bytes}
    (h : ∀ line ∈ ls, trimBytes line ≠ text "[" ++ section_ ++ text "]") :
    mimeLines section_ false ls = [] ∧ insideAfter section_ false ls = false := by
  induction ls with
  | nil => exact ⟨rfl, rfl⟩
  | cons line ls ih =>
    obtain ⟨hline, hls⟩ := List.forall_mem_cons.1 h
    rw [mimeLines, insideAfter, decide_eq_false hline]
    split
    · exact ih hls
    · exact ih hls

/-- The carriage returns that `lines` drops are not read. -/
theorem mimeLines_chomp (section_ : Bytes) (inside : Bool) (ls : List Bytes) :
    mimeLines section_ inside (ls.map chomp) = mimeLines section_ inside ls := by
  induction ls generalizing inside with
  | nil => rfl
  | cons line ls ih =>
    rw [List.map_cons, mimeLines, mimeLines, trimBytes_chomp]
    simp only [ih]

theorem defaultHeader_eq : defaultHeader = text "[" ++ defaultSection ++ text "]" := by decide

theorem trim_defaultHeader : trimBytes defaultHeader = defaultHeader := by decide

/-- The first line of the defaults opens their section and closes any other. -/
theorem mimeLines_header {header : Bytes} (h : trimBytes header = defaultHeader) (section_ : Bytes)
    (inside : Bool) (rest : List Bytes) :
    mimeLines section_ inside (header :: rest) = mimeLines section_ (section_ = defaultSection) rest := by
  have hsection : (defaultHeader = text "[" ++ section_ ++ text "]") ↔ section_ = defaultSection := by
    rw [defaultHeader_eq, List.append_left_inj, List.append_right_inj]
    exact eq_comm
  rw [mimeLines, h, if_pos (by decide)]
  simp only [hsection]

theorem entryOf_nil : entryOf [] = none := rfl

/-- Empty lines say nothing. -/
theorem mimeLines_gap (section_ : Bytes) (inside : Bool) {gap : List Bytes} (h : ∀ l ∈ gap, l = []) :
    mimeLines section_ inside gap = [] ∧ insideAfter section_ inside gap = inside := by
  have hbody := @mimeLines_body section_ inside gap fun l hl => by
    rw [h l hl]
    exact nofun
  refine ⟨?_, hbody.2⟩
  rw [hbody.1, List.filterMap_eq_nil_iff.2 fun l hl => by rw [h l hl, entryOf_nil]]
  cases inside <;> rfl

/-! ## Keys and values -/

/-- An id that a list can hold: on one line, and read back as it is. -/
def Writable (id : Bytes) : Prop := newline ∉ id ∧ parseIds id = [id]

instance : DecidablePred Writable := fun _ => inferInstanceAs (Decidable (_ ∧ _))

/-- A type that a line can be about: it is read back as it is written, and opens no section and no
comment. -/
structure IsKey (mime : Bytes) : Prop where
  trim : trimBytes mime = mime
  opens : mime.head? ≠ some 91
  comments : mime.head? ≠ some 35
  notMem_newline : newline ∉ mime
  notMem_equals : equals ∉ mime

theorem solid_equals : Solid equals := by decide

theorem solid_open : Solid 91 := by decide

theorem solid_comment : Solid 35 := by decide

theorem mem_parseIds {bs id : Bytes} (h : id ∈ parseIds bs) (hnl : newline ∉ bs) : Writable id := by
  obtain ⟨hmem, hne⟩ := List.mem_filter.1 h
  obtain ⟨piece, hpiece, rfl⟩ := List.mem_map.1 hmem
  have hsub : ∀ b ∈ trimBytes piece, b ∈ piece := by
    intro b hb
    obtain ⟨ws, we, -, -, hsplit⟩ := trimBytes_split piece
    rw [hsplit]
    simp [hb]
  have hbs : ∀ b ∈ piece, b ∈ bs := fun b hb => (infix_of_mem_splitOn hpiece).subset hb
  have hsep : (59 : UInt8) ∉ trimBytes piece := fun h59 =>
    notMem_of_mem_splitOn hpiece (hsub 59 h59)
  refine ⟨fun h10 => hnl (hbs _ (hsub _ h10)), ?_⟩
  rw [parseIds, List.splitOn_eq_singleton hsep, List.map_singleton, trimBytes_idem]
  exact List.filter_eq_self.2 (by simpa using hne)

theorem Writable.trim {id : Bytes} (h : Writable id) : trimBytes id = id ∧ id ≠ [] := by
  have hmem : id ∈ parseIds id := by rw [h.2]; exact List.mem_singleton_self id
  obtain ⟨hpiece, hne⟩ := List.mem_filter.1 hmem
  obtain ⟨piece, -, hid⟩ := List.mem_map.1 hpiece
  refine ⟨?_, by simpa using hne⟩
  rw [← hid, trimBytes_idem]

/-- What an open section says is about types that a line can hold, with applications that one can. -/
theorem key_of_entryOf {line : Bytes} (hnl : newline ∉ line) (hopen : (trimBytes line).head? ≠ some 91)
    {e : Bytes × List Bytes} (h : entryOf line = some e) : IsKey e.1 ∧ ∀ id ∈ e.2, Writable id := by
  rw [entryOf] at h
  split at h
  · cases h
  · next hskip =>
    obtain ⟨⟨key, ids⟩, hsplit, rfl⟩ := Option.map_eq_some_iff.1 h
    obtain ⟨hline, hkey⟩ := eq_of_splitOnce hsplit
    have hcomment : (trimBytes line).head? ≠ some 35 := by
      intro hhead
      simp [hhead] at hskip
    have hwhole : newline ∉ trimBytes line := by
      intro hmem
      exact hnl ((infix_trimBytes line).subset hmem)
    have hstart : trimStart key = key := by
      have hline' := (trimStart_of_trim (trimBytes_idem line)).1
      rw [hline, trimStart_append_cons solid_equals] at hline'
      exact List.append_cancel_right hline'
    -- the key's first byte is the first byte of the line
    have hhead : ∀ {b : UInt8}, Solid b → (trimBytes line).head? ≠ some b →
        (trimBytes key).head? ≠ some b := by
      intro b hb hne hfirst
      rw [head_trimBytes hb, hstart] at hfirst
      rw [hline, List.head?_append, hfirst] at hne
      exact hne rfl
    have hnewline : newline ∉ key ∧ newline ∉ ids := by
      rw [hline, List.mem_append, List.mem_cons] at hwhole
      tauto
    refine ⟨⟨trimBytes_idem key, hhead solid_open hopen, hhead solid_comment hcomment,
      fun hmem => hnewline.1 ((infix_trimBytes key).subset hmem),
      fun hmem => hkey (solid_equals.mem_trimBytes.1 hmem)⟩, fun id hid => ?_⟩
    exact mem_parseIds hid hnewline.2

/-- So what a section says is about such types and applications. -/
theorem key_of_mem_mimeLines {section_ : Bytes} {inside : Bool} {ls : List Bytes}
    (hls : ∀ l ∈ ls, newline ∉ l) {e : Bytes × List Bytes} (he : e ∈ mimeLines section_ inside ls) :
    IsKey e.1 ∧ ∀ id ∈ e.2, Writable id := by
  induction ls generalizing inside with
  | nil => cases he
  | cons line ls ih =>
    obtain ⟨hline, hrest⟩ := List.forall_mem_cons.1 hls
    by_cases hopen : (trimBytes line).head? = some 91
    · rw [mimeLines, if_pos hopen] at he
      exact ih hrest he
    · have hone := (@mimeLines_body section_ inside [line] (by simpa using hopen)).1
      have hstays := (@mimeLines_body section_ inside [line] (by simpa using hopen)).2
      rw [← List.singleton_append, mimeLines_append, hone, hstays, List.mem_append] at he
      rcases he with he | he
      · cases inside with
        | false => cases he
        | true =>
          obtain ⟨l, hl, hentry⟩ := List.mem_filterMap.1 he
          obtain rfl := List.mem_singleton.1 hl
          exact key_of_entryOf hline hopen hentry
      · exact ih hrest he

section

variable {mime id : Bytes}

/-- The line of a type is read as it is written. -/
theorem entryOf_defaultLine (hkey : IsKey mime) (hid : Writable id) :
    entryOf (defaultLine mime id) = some (mime, [id]) ∧
      (trimBytes (defaultLine mime id)).head? ≠ some 91 ∧ (defaultLine mime id).getLast? ≠ some 13 := by
  obtain ⟨htrim, hne⟩ := hid.trim
  have hend : trimEnd id = id := (trimStart_of_trim htrim).2
  have hstart : trimStart mime = mime := (trimStart_of_trim hkey.trim).1
  have hline : trimBytes (defaultLine mime id) = defaultLine mime id := by
    rw [trimBytes, defaultLine, trimStart_append_cons solid_equals, hstart,
      trimEnd_append_cons solid_equals, hend]
  have hhead : ∀ b, b ≠ equals → mime.head? ≠ some b → (defaultLine mime id).head? ≠ some b := by
    intro b hb hmime
    rw [defaultLine]
    cases mime with
    | nil => simpa using hb.symm
    | cons x mime => exact hmime
  have hsplit : splitOnce equals (defaultLine mime id) = some (mime, id) :=
    splitOnce_append hkey.notMem_equals id
  refine ⟨?_, by rw [hline]; exact hhead 91 (by decide) hkey.opens, ?_⟩
  · have hread : ¬(decide (defaultLine mime id = []) ||
        decide ((defaultLine mime id).head? = some 35)) = true := by
      rw [Bool.or_eq_true, decide_eq_true_eq, decide_eq_true_eq, not_or]
      exact ⟨by simp [defaultLine], hhead 35 (by decide) hkey.comments⟩
    rw [entryOf, hline, if_neg hread, hsplit, Option.map_some, hkey.trim, hid.2]
  · intro hlast
    obtain ⟨front, hfront⟩ := List.getLast?_eq_some_iff.1 hlast
    have hcr : trimBytes (defaultLine mime id) ≠ defaultLine mime id := by
      intro htrim
      exact trimEnd_concat_ne (by decide) front (hfront ▸ (trimStart_of_trim htrim).2)
    exact hcr hline

/-- Whether a line is about a type shows in what is read of it. -/
theorem isAbout_eq (hkey : IsKey mime) (line : Bytes) :
    isAbout mime line = (entryOf line).any fun e => e.1 = mime := by
  have habout : isAbout mime line =
      ((splitOnce equals line).map fun p => trimBytes p.1).any (· = mime) := by
    rw [isAbout, Option.any_map]
  rw [habout, ← splitOnce_trimBytes solid_equals, entryOf]
  split
  · next hskip =>
    rw [Option.any_none, Bool.eq_false_iff]
    intro hany
    obtain ⟨key, hk, heq⟩ := (Option.any_eq_true _ _).1 hany
    obtain ⟨⟨key, ids⟩, hp, rfl⟩ := Option.map_eq_some_iff.1 hk
    obtain ⟨hline, -⟩ := eq_of_splitOnce hp
    rw [decide_eq_true_eq] at heq
    have hcomment : (trimBytes line).head? = some 35 := by
      rw [hline]
      rw [hline] at hskip
      simpa using hskip
    cases key with
    | nil =>
      rw [hline] at hcomment
      exact absurd (Option.some.inj hcomment) (by decide)
    | cons x key =>
      obtain rfl : x = 35 := by
        rw [hline] at hcomment
        exact Option.some.inj hcomment
      apply hkey.comments
      rw [← heq, head_trimBytes solid_comment, trimStart_cons solid_comment]
      rfl
  · rw [Option.any_map, Option.any_map]

end

/-! ## The shape of a list -/

theorem findIdx?_append_cons {α : Type} {p : α → Bool} {a b : List α} {x : α}
    (ha : ∀ y ∈ a, p y = false) (hx : p x = true) : (a ++ x :: b).findIdx? p = some a.length := by
  rw [List.findIdx?_append, List.findIdx?_eq_none_iff.2 ha, List.findIdx?_cons, if_pos hx]
  simp

theorem exists_of_findIdx {α : Type} {p : α → Bool} {ls : List α} {i : ℕ}
    (h : ls.findIdx? p = some i) :
    ∃ a x b, ls = a ++ x :: b ∧ a.length = i ∧ p x = true ∧ ∀ y ∈ a, p y = false := by
  obtain ⟨hi, hp, hbefore⟩ := List.findIdx?_eq_some_iff_getElem.1 h
  refine ⟨ls.take i, ls[i], ls.drop (i + 1), ?_, ?_, hp, fun y hy => ?_⟩
  · rw [← List.drop_eq_getElem_cons hi, List.take_append_drop]
  · rw [List.length_take]
    omega
  · obtain ⟨j, hj, rfl⟩ := List.mem_iff_getElem.1 hy
    rw [List.length_take] at hj
    rw [List.getElem_take]
    exact Bool.eq_false_iff.2 (hbefore j (by omega))

theorem set_length {α : Type} (a b : List α) (x y : α) :
    (a ++ x :: b).set a.length y = a ++ y :: b := by
  rw [List.set_append_right _ _ le_rfl, Nat.sub_self, List.set_cons_zero]

theorem insertIdx_length {α : Type} (a b : List α) (y : α) :
    (a ++ b).insertIdx a.length y = a ++ y :: b := by
  induction a with
  | nil => rfl
  | cons x a ih => rw [List.cons_append, List.length_cons, List.insertIdx_succ_cons, ih, List.cons_append]

/-- The lines before the section of the defaults, its first line, its other lines, and the lines from
the next section on. -/
structure Parted (front : List Bytes) (header : Bytes) (sect rest : List Bytes) : Prop where
  header : trimBytes header = defaultHeader
  front : ∀ l ∈ front, trimBytes l ≠ defaultHeader
  sect : ∀ l ∈ sect, (trimBytes l).head? ≠ some 91
  rest : ∀ l ∈ rest.head?, (trimBytes l).head? = some 91

/-- A list has a section of defaults or it has none. -/
theorem parted (ls : List Bytes) : (∀ l ∈ ls, trimBytes l ≠ defaultHeader) ∨
    ∃ front header sect rest, ls = front ++ header :: (sect ++ rest) ∧ Parted front header sect rest := by
  cases hstart : ls.findIdx? fun l => trimBytes l = defaultHeader with
  | none =>
    left
    simpa using List.findIdx?_eq_none_iff.1 hstart
  | some start =>
    right
    obtain ⟨front, header, body, rfl, -, hheader, hfront⟩ := exists_of_findIdx hstart
    have hheader : trimBytes header = defaultHeader := by simpa using hheader
    have hfront : ∀ l ∈ front, trimBytes l ≠ defaultHeader := by simpa using hfront
    cases hend : body.findIdx? fun l => (trimBytes l).head? = some 91 with
    | none =>
      have hsect := List.findIdx?_eq_none_iff.1 hend
      exact ⟨front, header, body, [], by rw [List.append_nil], hheader, hfront, by simpa using hsect,
        by simp⟩
    | some k =>
      obtain ⟨sect, next, rest, rfl, -, hnext, hsect⟩ := exists_of_findIdx hend
      exact ⟨front, header, sect, next :: rest, rfl, hheader, hfront, by simpa using hsect,
        by simpa using hnext⟩

/-- A section with the line of a type set. -/
def setIn (mime id : Bytes) (sect : List Bytes) : List Bytes :=
  match sect.findIdx? (isAbout mime) with
  | some k => sect.set k (defaultLine mime id)
  | none => sect ++ [defaultLine mime id]

/-- The lines of a list but the one that `upsertLines` replaces, if it replaces one. -/
def kept (ls : List Bytes) (mime : Bytes) : List Bytes :=
  match ls.findIdx? fun l => trimBytes l = defaultHeader with
  | some start =>
    let body := ls.drop (start + 1)
    let size := (body.findIdx? fun l => (trimStart l).head? = some 91).getD body.length
    ls.take (start + 1) ++ ((body.take size).eraseP (isAbout mime) ++ body.drop size)
  | none => ls

section

variable {mime id : Bytes} {front sect rest : List Bytes} {header : Bytes}

/-- The line of a type is its first line in the section, or a new one behind the section. -/
theorem setIn_cases (mime id : Bytes) (sect : List Bytes) :
    ∃ before about after, sect = before ++ about ++ after ∧
      setIn mime id sect = before ++ defaultLine mime id :: after ∧
      sect.eraseP (isAbout mime) = before ++ after ∧ (∀ l ∈ before, isAbout mime l = false) ∧
      ∀ l ∈ about, isAbout mime l = true := by
  unfold setIn
  cases h : sect.findIdx? (isAbout mime) with
  | none =>
    have hnone := List.findIdx?_eq_none_iff.1 h
    have herase : sect.eraseP (isAbout mime) = sect := List.eraseP_of_forall_not (by simpa using hnone)
    exact ⟨sect, [], [], by simp, rfl, by rw [herase, List.append_nil], hnone, by simp⟩
  | some k =>
    obtain ⟨before, x, after, rfl, rfl, hx, hbefore⟩ := exists_of_findIdx h
    refine ⟨before, [x], after, by simp, set_length _ _ _ _, ?_, hbefore, by simpa using hx⟩
    rw [List.eraseP_append_right _ (by simpa using hbefore), List.eraseP_cons_of_pos hx]

/-- A line that is set is set for good. -/
theorem setIn_setIn (h : isAbout mime (defaultLine mime id) = true) :
    setIn mime id (setIn mime id sect) = setIn mime id sect := by
  obtain ⟨before, about, after, -, hset, -, hbefore, -⟩ := setIn_cases mime id sect
  rw [hset, setIn, findIdx?_append_cons hbefore h]
  exact set_length _ _ _ _

namespace Parted

variable (h : Parted front header sect rest)

include h

theorem cut : (front ++ header :: (sect ++ rest)).findIdx? (fun l => trimBytes l = defaultHeader) =
      some front.length ∧
    (front ++ header :: (sect ++ rest)).drop (front.length + 1) = sect ++ rest ∧
    ((sect ++ rest).findIdx? fun l => (trimStart l).head? = some 91).getD (sect ++ rest).length =
      sect.length := by
  have hsect : ∀ l ∈ sect, decide ((trimStart l).head? = some 91) = false := by
    intro l hl
    rw [decide_eq_false_iff_not, ← head_trimBytes solid_open]
    exact h.sect l hl
  refine ⟨?_, ?_, ?_⟩
  · exact findIdx?_append_cons (by simpa using h.front) (by simpa using h.header)
  · rw [List.append_cons]
    exact List.drop_left' (by simp)
  · cases hrest : rest with
    | nil =>
      rw [List.append_nil, List.findIdx?_eq_none_iff.2 hsect]
      rfl
    | cons next rest =>
      have hnext := h.rest next (by rw [hrest]; rfl)
      rw [head_trimBytes solid_open] at hnext
      rw [findIdx?_append_cons hsect (by simpa using hnext)]
      rfl

/-- The call sets the line in the section and leaves all other lines. -/
theorem upsertLines_eq : upsertLines (front ++ header :: (sect ++ rest)) mime id =
    front ++ header :: (setIn mime id sect ++ rest) := by
  obtain ⟨hstart, hdrop, hsize⟩ := h.cut
  rw [upsertLines, hstart]
  simp only [hdrop, hsize, List.take_left, setIn]
  cases hk : sect.findIdx? (isAbout mime) with
  | none =>
    have hinsert := insertIdx_length (front ++ header :: sect) rest (defaultLine mime id)
    simp only [List.length_append, List.length_cons, List.append_assoc, List.cons_append] at hinsert
    rw [show front.length + 1 + sect.length = front.length + (sect.length + 1) by omega]
    dsimp only
    rw [hinsert, List.append_assoc]
    rfl
  | some k =>
    obtain ⟨before, about, after, rfl, rfl, -, -⟩ := exists_of_findIdx hk
    have hreplace := set_length (front ++ header :: before) (after ++ rest) about (defaultLine mime id)
    simp only [List.length_append, List.length_cons, List.append_assoc, List.cons_append] at hreplace
    have hat : front.length + 1 + before.length = front.length + (before.length + 1) := by omega
    dsimp only
    rw [hat, List.append_assoc, List.cons_append, hreplace, set_length, List.append_assoc,
      List.cons_append]

theorem kept_eq : kept (front ++ header :: (sect ++ rest)) mime =
    front ++ header :: (sect.eraseP (isAbout mime) ++ rest) := by
  obtain ⟨hstart, hdrop, hsize⟩ := h.cut
  have htake : (front ++ header :: (sect ++ rest)).take (front.length + 1) = front ++ [header] := by
    rw [List.append_cons]
    exact List.take_left' (by simp)
  rw [kept, hstart]
  simp only [hdrop, hsize, htake, List.take_left, List.drop_left, List.append_assoc, List.cons_append,
    List.nil_append]

/-- The section with its line set stands where the section stood. -/
theorem set (hline : (trimBytes (defaultLine mime id)).head? ≠ some 91) :
    Parted front header (setIn mime id sect) rest := by
  obtain ⟨before, about, after, hsect, hset, -, -, -⟩ := setIn_cases mime id sect
  refine ⟨h.header, h.front, fun l hl => ?_, h.rest⟩
  rw [hset] at hl
  rcases List.mem_append.1 hl with hl | hl
  · exact h.sect l (by rw [hsect]; simp [hl])
  · rcases List.mem_cons.1 hl with rfl | hl
    · exact hline
    · exact h.sect l (by rw [hsect]; simp [hl])

theorem mimeLines_defaults : mimeLines defaultSection false (front ++ header :: (sect ++ rest)) =
    sect.filterMap entryOf ++ mimeLines defaultSection true rest := by
  obtain ⟨hnone, hclosed⟩ := @mimeLines_outside defaultSection front
    fun l hl => defaultHeader_eq ▸ h.front l hl
  obtain ⟨hread, hopen⟩ := mimeLines_body defaultSection true h.sect
  rw [mimeLines_append, hnone, hclosed, mimeLines_header h.header, decide_eq_true rfl,
    mimeLines_append, hread, hopen]
  rfl

theorem mimeLines_others {section_ : Bytes} (hs : section_ ≠ defaultSection) :
    mimeLines section_ false (front ++ header :: (sect ++ rest)) =
      mimeLines section_ false front ++ mimeLines section_ false rest := by
  obtain ⟨hread, hclosed⟩ := mimeLines_body section_ false h.sect
  rw [mimeLines_append, mimeLines_header h.header, decide_eq_false hs, mimeLines_append, hread, hclosed]
  rfl

end Parted

/-- A list without a section of defaults gets one at its end. -/
theorem upsertLines_opened {ls : List Bytes} (h : ∀ l ∈ ls, trimBytes l ≠ defaultHeader) :
    kept ls mime = ls ∧ ∃ gap, (∀ l ∈ gap, l = []) ∧
      upsertLines ls mime id = (ls ++ gap) ++ defaultHeader :: [defaultLine mime id] := by
  have hstart : (ls.findIdx? fun l => trimBytes l = defaultHeader) = none :=
    List.findIdx?_eq_none_iff.2 (by simpa using h)
  refine ⟨by rw [kept, hstart], ?_⟩
  rw [upsertLines, hstart]
  dsimp only
  split
  · exact ⟨[[]], by simp, rfl⟩
  · exact ⟨[], by simp, by rw [List.append_nil]⟩

end

/-! ## What a list says before and after -/

section

variable {mime id : Bytes}

/-- What the defaults say before and after: the line that is set comes before any other about its
type, and only lines about the type go. -/
theorem defaults_upsertLines (hkey : IsKey mime) (hid : Writable id) (ls : List Bytes) :
    ∃ es₁ mids es₂, mimeLines defaultSection false ls = es₁ ++ mids ++ es₂ ∧
      mimeLines defaultSection false (upsertLines ls mime id) = es₁ ++ (mime, [id]) :: es₂ ∧
      (∀ e ∈ es₁, e.1 ≠ mime) ∧ ∀ e ∈ mids, e.1 = mime := by
  obtain ⟨hline, hhead, -⟩ := entryOf_defaultLine hkey hid
  rcases parted ls with hls | ⟨front, header, sect, rest, rfl, h⟩
  · obtain ⟨-, gap, hgap, hset⟩ := @upsertLines_opened mime id ls hls
    obtain ⟨hnone, hclosed⟩ := @mimeLines_outside defaultSection ls
      fun l hl => defaultHeader_eq ▸ hls l hl
    obtain ⟨hgapNone, hgapClosed⟩ := mimeLines_gap defaultSection false hgap
    have hlast := (@mimeLines_body defaultSection true [defaultLine mime id] (by simpa using hhead)).1
    refine ⟨[], [], [], hnone, ?_, by simp, by simp⟩
    rw [hset, List.append_assoc, mimeLines_append, hnone, hclosed, mimeLines_append, hgapNone,
      hgapClosed, mimeLines_header trim_defaultHeader, decide_eq_true rfl, hlast]
    simp [hline]
  · obtain ⟨before, about, after, hsect, hset, -, hbefore, habout⟩ := setIn_cases mime id sect
    have hany : ∀ {l e}, entryOf l = some e → (isAbout mime l = true ↔ e.1 = mime) := by
      intro l e he
      rw [isAbout_eq hkey, he, Option.any_some, decide_eq_true_eq]
    refine ⟨before.filterMap entryOf, about.filterMap entryOf,
      after.filterMap entryOf ++ mimeLines defaultSection true rest, ?_, ?_, ?_, ?_⟩
    · rw [h.mimeLines_defaults, hsect]
      simp
    · rw [h.upsertLines_eq, (h.set hhead).mimeLines_defaults, hset]
      simp [hline]
    · intro e he
      obtain ⟨l, hl, hle⟩ := List.mem_filterMap.1 he
      rw [Ne, ← hany hle, hbefore l hl]
      exact Bool.false_ne_true
    · intro e he
      obtain ⟨l, hl, hle⟩ := List.mem_filterMap.1 he
      exact (hany hle).1 (habout l hl)

/-- No other section changes. -/
theorem others_upsertLines (hkey : IsKey mime) (hid : Writable id) (ls : List Bytes) {section_ : Bytes}
    (hs : section_ ≠ defaultSection) :
    mimeLines section_ false (upsertLines ls mime id) = mimeLines section_ false ls := by
  obtain ⟨-, hhead, -⟩ := entryOf_defaultLine hkey hid
  rcases parted ls with hls | ⟨front, header, sect, rest, rfl, h⟩
  · obtain ⟨-, gap, hgap, hset⟩ := @upsertLines_opened mime id ls hls
    obtain ⟨hgapNone, -⟩ := mimeLines_gap section_ (insideAfter section_ false ls) hgap
    have hlast := (@mimeLines_body section_ false [defaultLine mime id] (by simpa using hhead)).1
    rw [hset, List.append_assoc, mimeLines_append, mimeLines_append, hgapNone,
      mimeLines_header trim_defaultHeader, decide_eq_false hs, hlast]
    simp
  · rw [h.upsertLines_eq, (h.set hhead).mimeLines_others hs, h.mimeLines_others hs]

/-- Setting the line once more changes nothing. -/
theorem upsertLines_upsertLines (hkey : IsKey mime) (hid : Writable id) (ls : List Bytes) :
    upsertLines (upsertLines ls mime id) mime id = upsertLines ls mime id := by
  obtain ⟨hline, hhead, -⟩ := entryOf_defaultLine hkey hid
  have habout : isAbout mime (defaultLine mime id) = true := by
    rw [isAbout_eq hkey, hline, Option.any_some, decide_eq_true rfl]
  rcases parted ls with hls | ⟨front, header, sect, rest, rfl, h⟩
  · obtain ⟨-, gap, hgap, hset⟩ := @upsertLines_opened mime id ls hls
    have hparted : Parted (ls ++ gap) defaultHeader [defaultLine mime id] [] := by
      refine ⟨trim_defaultHeader, fun l hl => ?_, by simpa using hhead, by simp⟩
      rcases List.mem_append.1 hl with hl | hl
      · exact hls l hl
      · rw [hgap l hl]
        decide
    have hagain := @Parted.upsertLines_eq mime id _ _ _ _ hparted
    have hone : setIn mime id [defaultLine mime id] = [defaultLine mime id] := by
      rw [setIn, List.findIdx?_cons, if_pos habout]
      rfl
    rw [hone, List.append_nil] at hagain
    rw [hset, hagain]
  · rw [h.upsertLines_eq, (h.set hhead).upsertLines_eq, setIn_setIn habout]

/-- The lines that stay are lines of the list, and of what it becomes. -/
theorem kept_sublist (ls : List Bytes) (mime id : Bytes) :
    (kept ls mime).Sublist ls ∧ (kept ls mime).Sublist (upsertLines ls mime id) := by
  rcases parted ls with hls | ⟨front, header, sect, rest, rfl, h⟩
  · obtain ⟨hkept, gap, -, hset⟩ := @upsertLines_opened mime id ls hls
    rw [hkept, hset, List.append_assoc]
    exact ⟨List.Sublist.refl _, List.sublist_append_left _ _⟩
  · obtain ⟨before, about, after, hsect, hset, herase, -, -⟩ := setIn_cases mime id sect
    rw [h.kept_eq, h.upsertLines_eq]
    refine ⟨?_, ?_⟩
    · exact (((List.eraseP_sublist).append_right rest).cons_cons header).append_left front
    · rw [hset, herase]
      have hline : (before ++ after).Sublist (before ++ defaultLine mime id :: after) :=
        (List.sublist_cons_self _ _).append_left before
      exact ((hline.append_right rest).cons_cons header).append_left front

/-- The other lines of what it becomes are of the call. -/
theorem mem_upsertLines {ls : List Bytes} {l : Bytes} (hl : l ∈ upsertLines ls mime id) :
    l ∈ kept ls mime ∨ l = [] ∨ l = defaultHeader ∨ l = defaultLine mime id := by
  rcases parted ls with hls | ⟨front, header, sect, rest, rfl, h⟩
  · obtain ⟨hkept, gap, hgap, hset⟩ := @upsertLines_opened mime id ls hls
    rw [hset] at hl
    simp only [List.mem_append, List.mem_cons, List.not_mem_nil, or_false] at hl
    rcases hl with (hl | hl) | hl
    · exact Or.inl (by rw [hkept]; exact hl)
    · exact Or.inr (Or.inl (hgap l hl))
    · exact Or.inr (Or.inr hl)
  · obtain ⟨before, about, after, -, hset, herase, -, -⟩ := setIn_cases mime id sect
    rw [h.upsertLines_eq, hset] at hl
    rw [h.kept_eq, herase]
    simp only [List.mem_append, List.mem_cons] at hl ⊢
    tauto

theorem upsertLines_ne_nil (ls : List Bytes) (mime id : Bytes) : upsertLines ls mime id ≠ [] := by
  rcases parted ls with hls | ⟨front, header, sect, rest, rfl, h⟩
  · obtain ⟨-, gap, -, hset⟩ := @upsertLines_opened mime id ls hls
    rw [hset]
    simp
  · rw [h.upsertLines_eq]
    simp

theorem lines_upsertDefault (hmime : newline ∉ mime) (hid : newline ∉ id) (list : Bytes) :
    lines (upsertDefault list mime id) = (upsertLines (lines list) mime id).map chomp := by
  apply lines_join (upsertLines_ne_nil _ _ _)
  intro l hl
  rcases mem_upsertLines hl with hl | rfl | rfl | rfl
  · exact notMem_newline_of_mem_lines ((kept_sublist _ mime id).1.subset hl)
  · exact List.not_mem_nil
  · decide
  · rw [defaultLine, List.mem_append, List.mem_cons, not_or, not_or]
    exact ⟨hmime, by decide, hid⟩

/-- The list that is written is read as its lines. -/
theorem parse_upsertDefault (hmime : newline ∉ mime) (hid : newline ∉ id) (list section_ : Bytes) :
    parseMimeSection (upsertDefault list mime id) section_ =
      mimeLines section_ false (upsertLines (lines list) mime id) := by
  rw [parseMimeSection, lines_upsertDefault hmime hid, mimeLines_chomp]

end

/-! ## One answer, and nothing else -/

/-- What is said of `upsert_default`: the application is the first answer for the type, no other
answer and no other section changes, the other lines stay in their order, and to do it twice is to do
it once. -/
structure EditsOne (list mime id : Bytes) : Prop where
  first : (parseMimeSection (upsertDefault list mime id) defaultSection).find? (fun e => e.1 = mime) =
    some (mime, [id])
  others : ∀ other, other ≠ mime →
    (parseMimeSection (upsertDefault list mime id) defaultSection).filter (fun e => e.1 = other) =
      (parseMimeSection list defaultSection).filter fun e => e.1 = other
  sections : ∀ section_, section_ ≠ defaultSection →
    parseMimeSection (upsertDefault list mime id) section_ = parseMimeSection list section_
  stay : (kept (lines list) mime).Sublist (lines (upsertDefault list mime id))
  again : upsertDefault (upsertDefault list mime id) mime id = upsertDefault list mime id

section

variable {mime id : Bytes}

theorem chomp_eq {line : Bytes} (h : line.getLast? ≠ some 13) : chomp line = line := if_neg h

/-- The lines are read again as they were, where none that stays ends in a carriage return. -/
theorem lines_upsertDefault_eq (hkey : IsKey mime) (hid : Writable id) {list : Bytes}
    (hstay : ∀ l ∈ kept (lines list) mime, l.getLast? ≠ some 13) :
    lines (upsertDefault list mime id) = upsertLines (lines list) mime id := by
  have hall : ∀ l ∈ upsertLines (lines list) mime id, chomp l = l := by
    intro l hl
    apply chomp_eq
    rcases mem_upsertLines hl with hl | rfl | rfl | rfl
    · exact hstay l hl
    · exact nofun
    · decide
    · exact (entryOf_defaultLine hkey hid).2.2
  rw [lines_upsertDefault hkey.notMem_newline hid.1, List.map_congr_left hall, List.map_id']

/-- A line that ends in a carriage return is there afterwards only in the place of a longer one. -/
theorem longer_kept (hkey : IsKey mime) (hid : Writable id) {list : Bytes}
    (hstay : (kept (lines list) mime).Sublist (lines (upsertDefault list mime id))) {l : Bytes}
    (hl : l ∈ kept (lines list) mime) (hcr : l.getLast? = some 13) :
    ∃ l' ∈ kept (lines list) mime, l'.getLast? = some 13 ∧ l'.length = l.length + 1 := by
  have hnew := hstay.subset hl
  rw [lines_upsertDefault hkey.notMem_newline hid.1] at hnew
  obtain ⟨l', hl', rfl⟩ := List.mem_map.1 hnew
  by_cases hlast : l'.getLast? = some 13
  · have hchomp : chomp l' = l'.dropLast := if_pos hlast
    have hpos : 0 < l'.length := List.length_pos_iff.2 fun hnil => by
      rw [hnil] at hlast
      cases hlast
    refine ⟨l', ?_, hlast, by rw [hchomp, List.length_dropLast]; omega⟩
    rcases mem_upsertLines hl' with hmem | rfl | rfl | rfl
    · exact hmem
    · cases hlast
    · exact absurd hlast (by decide)
    · exact absurd hlast (entryOf_defaultLine hkey hid).2.2
  · rw [chomp_eq hlast] at hcr
    exact absurd hcr hlast

/-- So no line that stays ends in one. -/
theorem no_cr_of_stay (hkey : IsKey mime) (hid : Writable id) {list : Bytes}
    (hstay : (kept (lines list) mime).Sublist (lines (upsertDefault list mime id))) :
    ∀ l ∈ kept (lines list) mime, l.getLast? ≠ some 13 := by
  intro l hl hcr
  have hlong : ∀ n, ∃ l ∈ kept (lines list) mime, l.getLast? = some 13 ∧ n ≤ l.length := by
    intro n
    induction n with
    | zero => exact ⟨l, hl, hcr, Nat.zero_le _⟩
    | succ n ih =>
      obtain ⟨l', hl', hcr', hn⟩ := ih
      obtain ⟨l'', hl'', hcr'', hlen⟩ := longer_kept hkey hid hstay hl' hcr'
      exact ⟨l'', hl'', hcr'', by omega⟩
  obtain ⟨l', hl', -, hlen⟩ := hlong ((kept (lines list) mime).flatten.length + 1)
  have hle := (List.sublist_flatten_of_mem hl').length_le
  omega

end

/-- **Exactly when setting a default touches one answer**: where the type and the id can be read back
from a line, and no line that stays ends in a carriage return of its own. -/
theorem upsertDefault_edits_iff (list mime id : Bytes) : EditsOne list mime id ↔
    IsKey mime ∧ Writable id ∧ ∀ l ∈ kept (lines list) mime, l.getLast? ≠ some 13 := by
  constructor
  · intro h
    have hread := List.mem_of_find?_eq_some h.first
    obtain ⟨hkey, hids⟩ := key_of_mem_mimeLines (fun l hl => notMem_newline_of_mem_lines hl) hread
    have hid : Writable id := hids id (List.mem_singleton_self id)
    exact ⟨hkey, hid, no_cr_of_stay hkey hid h.stay⟩
  · intro h
    obtain ⟨hkey, hid, hstay⟩ := h
    obtain ⟨es₁, mids, es₂, hold, hnew, hfront, hmids⟩ := defaults_upsertLines hkey hid (lines list)
    have hparse := fun section_ => parse_upsertDefault hkey.notMem_newline hid.1 list section_
    have hlines := lines_upsertDefault_eq hkey hid hstay
    refine ⟨?_, fun other hother => ?_, fun section_ hs => ?_, ?_, ?_⟩
    · have hskip : es₁.find? (fun e => e.1 = mime) = none :=
        List.find?_eq_none.2 (by simpa using hfront)
      rw [hparse, hnew, List.find?_append, hskip, List.find?_cons_of_pos (by simp), Option.none_or]
    · have hnone : mids.filter (fun e => e.1 = other) = [] := by
        rw [List.filter_eq_nil_iff]
        intro e he heq
        exact hother ((of_decide_eq_true heq).symm.trans (hmids e he))
      rw [hparse, hnew, parseMimeSection, hold, List.filter_append, List.filter_append,
        List.filter_append, hnone, List.append_nil,
        List.filter_cons_of_neg (by simpa using hother.symm)]
    · rw [hparse, others_upsertLines hkey hid _ hs]
      rfl
    · rw [hlines]
      exact (kept_sublist _ mime id).2
    · rw [upsertDefault, hlines, upsertLines_upsertLines hkey hid]
      rfl

/-- A line with a second carriage return loses it, at the first call and not at the second. -/
theorem upsertDefault_chomps :
    ¬EditsOne (text "# mine\r\r\n") (text "text/plain") (text "gedit.desktop") ∧
      upsertDefault (text "# mine\r\r\n") (text "text/plain") (text "gedit.desktop") =
        text "# mine\r\n\n[Default Applications]\ntext/plain=gedit.desktop\n" := by
  have hwritten : upsertDefault (text "# mine\r\r\n") (text "text/plain") (text "gedit.desktop") =
      text "# mine\r\n\n[Default Applications]\ntext/plain=gedit.desktop\n" := by decide
  refine ⟨fun h => ?_, hwritten⟩
  have hagain := h.again
  rw [hwritten] at hagain
  exact absurd hagain (by decide)

end Aurade.Stores
