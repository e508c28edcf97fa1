import Aurade.Foundations.Bytes

/-!
# Texts

A `Text` is a byte string that is UTF-8, the string type of the programs that tell text from bytes.
The functions here are the ones they cut texts with; each keeps the text a text.

* `trim` drops the spaces of Unicode at both ends. It looks for their encodings, which is the same
  on a text, where no encoding starts inside another.
* `Text.splitOn` and `Text.intercalate` split at an ASCII character and join with one.
* `lines` splits at newlines, with a carriage return before one dropped.
* `Stripped` is what trimming leaves, told by what it is and not by how it is found; a `Solid` byte
  stands in no space and stops it.
* `findSub` finds one string in another. A text put together from pieces is searched piece by piece
  with `Misses`: what is looked for does not even begin in a piece.
-/

namespace Aurade

/-- A byte string that is UTF-8. -/
abbrev Text := {bs : Bytes // Utf8.valid bs = true}

namespace Text

/-- The bytes as a text, where they are one. -/
def ofBytes? (bs : Bytes) : Option Text := if h : Utf8.valid bs = true then some ⟨bs, h⟩ else none

/-- `to_string_lossy`, `from_utf8_lossy`. -/
def lossy (bs : Bytes) : Text := ⟨Utf8.lossy bs, Utf8.valid_lossy bs⟩

@[simp] theorem ofBytes?_val (t : Text) : ofBytes? t.val = some t := dif_pos t.property

theorem lossy_val (t : Text) : lossy t.val = t :=
  Subtype.ext (Utf8.lossy_eq_self_iff.2 t.property)

instance : Ord Text := ⟨fun a b => compare a.val b.val⟩

instance : Std.TransOrd Text where
  eq_swap := Std.OrientedOrd.eq_swap (α := Bytes)
  isLE_trans := Std.TransOrd.isLE_trans (α := Bytes)

instance : Std.LawfulEqOrd Text where
  eq_of_compare h := Subtype.ext (Std.LawfulEqOrd.eq_of_compare (α := Bytes) h)
  compare_self := Std.ReflOrd.compare_self (α := Bytes)

end Text

/-! ## Spaces -/

/-- The characters with the property `White_Space`, encoded. -/
def spaces : List Bytes :=
  [[9], [10], [11], [12], [13], [32], [0xC2, 0x85], [0xC2, 0xA0], [0xE1, 0x9A, 0x80],
    [0xE2, 0x80, 0x80], [0xE2, 0x80, 0x81], [0xE2, 0x80, 0x82], [0xE2, 0x80, 0x83],
    [0xE2, 0x80, 0x84], [0xE2, 0x80, 0x85], [0xE2, 0x80, 0x86], [0xE2, 0x80, 0x87],
    [0xE2, 0x80, 0x88], [0xE2, 0x80, 0x89], [0xE2, 0x80, 0x8A], [0xE2, 0x80, 0xA8],
    [0xE2, 0x80, 0xA9], [0xE2, 0x80, 0xAF], [0xE2, 0x81, 0x9F], [0xE3, 0x80, 0x80]]

/-- Without the strings of `pats` at its front, at most `n` of them. -/
def dropAll (pats : List Bytes) : ℕ → Bytes → Bytes
  | 0, bs => bs
  | n + 1, bs =>
    match pats.find? fun p => p.isPrefixOf bs with
    | some p => dropAll pats n (bs.drop p.length)
    | none => bs

/-- `trim_start`. -/
def trimStart (bs : Bytes) : Bytes := dropAll spaces bs.length bs

/-- `trim_end`. -/
def trimEnd (bs : Bytes) : Bytes :=
  (dropAll (spaces.map List.reverse) bs.length bs.reverse).reverse

/-- `trim`. -/
def trimBytes (bs : Bytes) : Bytes := trimEnd (trimStart bs)

/-- A space is a character of its own. -/
theorem mem_spaces {s : Bytes} (h : s ∈ spaces) :
    Utf8.valid s = true ∧ ∃ c z, s = c :: z ∧ Utf8.isCont c = false := by
  have hall : spaces.all fun s => Utf8.valid s && s.head?.any fun c => !Utf8.isCont c := by
    decide
  have hs := List.all_eq_true.1 hall s h
  rw [Bool.and_eq_true] at hs
  cases s with
  | nil => simp at hs
  | cons c z => exact ⟨hs.1, c, z, rfl, by simpa using hs.2⟩

theorem dropAll_induct {pats : List Bytes} {P : Bytes → Prop}
    (hstep : ∀ p ∈ pats, ∀ bs, P (p ++ bs) → P bs) (n : ℕ) {bs : Bytes} (h : P bs) :
    P (dropAll pats n bs) := by
  induction n generalizing bs with
  | zero => exact h
  | succ n ih =>
    rw [dropAll]
    split
    · next p hp =>
      have hpre : p <+: bs := by simpa using List.find?_some hp
      obtain ⟨z, rfl⟩ := hpre
      rw [List.drop_left]
      exact ih (hstep p (List.mem_of_find?_eq_some hp) z h)
    · exact h

theorem valid_trimStart {bs : Bytes} (h : Utf8.valid bs = true) :
    Utf8.valid (trimStart bs) = true := by
  refine dropAll_induct (P := fun bs => Utf8.valid bs = true) (fun p hp z hz => ?_) _ h
  rwa [Utf8.valid_append (mem_spaces hp).1] at hz

theorem valid_trimEnd {bs : Bytes} (h : Utf8.valid bs = true) :
    Utf8.valid (trimEnd bs) = true := by
  refine dropAll_induct (P := fun bs => Utf8.valid bs.reverse = true) (fun p hp z hz => ?_) _
    (by rwa [List.reverse_reverse])
  obtain ⟨s, hs, rfl⟩ := List.mem_map.1 hp
  obtain ⟨-, c, s, rfl, hc⟩ := mem_spaces hs
  rw [List.reverse_append, List.reverse_reverse, Utf8.valid_append_cons hc, Bool.and_eq_true] at hz
  exact hz.1

namespace Text

/-- `trim`. -/
def trim (t : Text) : Text := ⟨trimBytes t.val, valid_trimEnd (valid_trimStart t.property)⟩

/-! ## Pieces between ASCII characters -/

theorem valid_intercalate {c : UInt8} (hc : c < 0x80) (parts : List Bytes) :
    Utf8.valid ([c].intercalate parts) = parts.all Utf8.valid := by
  induction parts with
  | nil => rfl
  | cons p parts ih =>
    cases parts with
    | nil => simp
    | cons q parts =>
      rw [List.intercalate_cons_cons, List.append_assoc, List.singleton_append,
        Utf8.valid_append_ascii hc, ih]
      simp only [List.all_cons]

theorem valid_of_mem_splitOn {c : UInt8} (hc : c < 0x80) {bs p : Bytes}
    (h : Utf8.valid bs = true) (hp : p ∈ bs.splitOn c) : Utf8.valid p = true := by
  have hjoin : [c].intercalate (bs.splitOn c) = bs := List.intercalate_splitOn c
  rw [← hjoin, valid_intercalate hc] at h
  exact List.all_eq_true.1 h p hp

/-- `split` at an ASCII character. -/
def splitOn (c : UInt8) (hc : c < 0x80) (t : Text) : List Text :=
  (t.val.splitOn c).attach.map fun p => ⟨p.val, valid_of_mem_splitOn hc t.property p.property⟩

/-- `join` with an ASCII character. -/
def intercalate (c : UInt8) (hc : c < 0x80) (parts : List Text) : Text :=
  ⟨[c].intercalate (parts.map Subtype.val), by
    rw [valid_intercalate hc, List.all_eq_true]
    intro p hp
    obtain ⟨t, -, rfl⟩ := List.mem_map.1 hp
    exact t.property⟩

end Text

/-! ## Lines -/

/-- The byte of a newline. -/
abbrev newline : UInt8 := 10

/-- A line without the carriage return it ends in. -/
def chomp (line : Bytes) : Bytes := if line.getLast? = some 13 then line.dropLast else line

/-- `lines`: what stands before each newline, without a carriage return before it, and what stands
behind the last one where that is anything. -/
def lines (bs : Bytes) : List Bytes :=
  let parts := bs.splitOn newline
  parts.dropLast.map chomp ++ (parts.getLast?.toList.filter (· ≠ []))

theorem lines_nil : lines [] = [] := rfl

/-- The lines up to a newline, and the lines behind it. -/
theorem lines_append_newline (a b : Bytes) :
    lines (a ++ newline :: b) = (a.splitOn newline).map chomp ++ lines b := by
  have hne : b.splitOn newline ≠ [] := List.splitOn_ne_nil newline b
  simp only [lines]
  rw [List.splitOn_append_cons_self, List.dropLast_append_of_ne_nil hne,
    List.getLast?_append_of_ne_nil _ hne, List.map_append, List.append_assoc]

/-- A line with the newline that ends it. -/
theorem lines_concat {line : Bytes} (h : newline ∉ line) : lines (line ++ [newline]) = [chomp line] := by
  rw [lines_append_newline, List.splitOn_eq_singleton h]
  rfl

/-- What is put before a text without a newline goes into its first line. -/
theorem splitOn_append {c : UInt8} {a : Bytes} (h : c ∉ a) (b : Bytes) :
    (a ++ b).splitOn c = (b.splitOn c).modifyHead (a ++ ·) := by
  induction a with
  | nil => exact (congrFun List.modifyHead_id (b.splitOn c)).symm
  | cons x a ih =>
    obtain ⟨hx, ha⟩ := not_or.1 (mt List.mem_cons.2 h)
    rw [List.cons_append, List.splitOn_cons_eq_if_modifyHead, if_neg (by simpa using Ne.symm hx),
      ih ha, List.modifyHead_modifyHead]
    rfl

/-- Lines are cut again as they were. -/
theorem splitOn_flatMap_lines {ls : List Bytes} (h : ∀ l ∈ ls, newline ∉ l) :
    (ls.flatMap fun l => l ++ [newline]).splitOn newline = ls ++ [[]] := by
  induction ls with
  | nil => rfl
  | cons l ls ih =>
    have hl := h l List.mem_cons_self
    have ih := ih fun l' hl' => h l' (List.mem_cons_of_mem l hl')
    rw [List.flatMap_cons, List.append_assoc, List.singleton_append, List.splitOn_append_cons_self,
      List.splitOn_eq_singleton hl, ih]
    rfl

/-- What a list is split at is in no piece. -/
theorem notMem_of_mem_splitOn {α : Type*} [DecidableEq α] {c : α} {bs p : List α}
    (h : p ∈ bs.splitOn c) : c ∉ p := by
  induction bs generalizing p with
  | nil =>
    rw [List.splitOn_nil, List.mem_singleton] at h
    rw [h]
    exact List.not_mem_nil
  | cons x bs ih =>
    rw [List.splitOn_cons_eq_if_modifyHead] at h
    split at h
    · rcases List.mem_cons.1 h with rfl | h
      · exact List.not_mem_nil
      · exact ih h
    · next hx =>
      cases hs : bs.splitOn c with
      | nil => exact absurd hs (List.splitOn_ne_nil c bs)
      | cons q qs =>
        rw [hs, List.modifyHead_cons] at h
        rw [hs] at ih
        rcases List.mem_cons.1 h with rfl | h
        · rw [List.mem_cons, not_or]
          exact ⟨fun heq => hx (by simp [heq]), ih List.mem_cons_self⟩
        · exact ih (List.mem_cons_of_mem q h)

/-- A line has no newline in it. -/
theorem notMem_newline_of_mem_lines {bs line : Bytes} (h : line ∈ lines bs) : newline ∉ line := by
  rw [lines, List.mem_append] at h
  rcases h with h | h
  · obtain ⟨p, hp, rfl⟩ := List.mem_map.1 h
    have hno := notMem_of_mem_splitOn (List.mem_of_mem_dropLast hp)
    rw [chomp]
    split
    · exact fun hmem => hno (List.mem_of_mem_dropLast hmem)
    · exact hno
  · exact notMem_of_mem_splitOn (List.mem_of_getLast? (Option.mem_toList.1 (List.mem_of_mem_filter h)))

/-- Lines that are joined are read again one by one. -/
theorem lines_join {ls : List Bytes} (hne : ls ≠ []) (h : ∀ l ∈ ls, newline ∉ l) :
    lines ([newline].intercalate ls ++ [newline]) = ls.map chomp := by
  rw [lines_append_newline, List.splitOn_intercalate _ h hne, lines_nil, List.append_nil]

theorem valid_of_mem_lines {bs line : Bytes} (h : Utf8.valid bs = true) (hl : line ∈ lines bs) :
    Utf8.valid line = true := by
  have hchomp : ∀ {p : Bytes}, Utf8.valid p = true → Utf8.valid (chomp p) = true := by
    intro p hp
    unfold chomp
    split
    · next hlast =>
      rw [← List.dropLast_append_getLast? 13 hlast, Utf8.valid_append_ascii (by decide),
        Bool.and_eq_true] at hp
      exact hp.1
    · exact hp
  rw [lines, List.mem_append] at hl
  rcases hl with hl | hl
  · obtain ⟨p, hp, rfl⟩ := List.mem_map.1 hl
    exact hchomp (Text.valid_of_mem_splitOn (by decide) h (List.mem_of_mem_dropLast hp))
  · have hp := List.mem_of_getLast? (Option.mem_toList.1 (List.mem_of_mem_filter hl))
    exact Text.valid_of_mem_splitOn (by decide) h hp

/-- `split_once`. -/
def splitOnce (c : UInt8) (bs : Bytes) : Option (Bytes × Bytes) :=
  if c ∈ bs then some (bs.takeWhile (· ≠ c), (bs.dropWhile (· ≠ c)).tail) else none

theorem splitOnce_append {c : UInt8} {a : Bytes} (h : c ∉ a) (b : Bytes) :
    splitOnce c (a ++ c :: b) = some (a, b) := by
  have hplain : ∀ x ∈ a, decide (x ≠ c) = true := fun x hx =>
    decide_eq_true fun heq => h (heq ▸ hx)
  rw [splitOnce, if_pos (by simp), List.takeWhile_append_of_pos hplain,
    List.dropWhile_append_of_pos hplain]
  simp

theorem infix_of_splitOnce {c : UInt8} {bs a b : Bytes} (h : splitOnce c bs = some (a, b)) :
    a <:+: bs ∧ b <:+: bs := by
  rw [splitOnce] at h
  split at h
  · obtain ⟨rfl, rfl⟩ := Prod.mk.inj (Option.some.inj h)
    exact ⟨(List.takeWhile_prefix _).isInfix,
      ((List.tail_suffix _).trans (List.dropWhile_suffix _)).isInfix⟩
  · exact nomatch h

theorem eq_of_splitOnce {c : UInt8} {bs a b : Bytes} (h : splitOnce c bs = some (a, b)) :
    bs = a ++ c :: b ∧ c ∉ a := by
  rw [splitOnce] at h
  split at h
  · next hmem =>
    obtain ⟨front, back, rfl, hfront⟩ := List.eq_append_cons_of_mem hmem
    have hcut := splitOnce_append hfront back
    rw [splitOnce, if_pos hmem, h] at hcut
    obtain ⟨rfl, rfl⟩ := Prod.mk.inj (Option.some.inj hcut)
    exact ⟨rfl, hfront⟩
  · cases h

theorem infix_getD_splitOnce (c : UInt8) (bs : Bytes) :
    ((splitOnce c bs).getD (bs, [])).1 <:+: bs ∧ ((splitOnce c bs).getD (bs, [])).2 <:+: bs := by
  cases h : splitOnce c bs with
  | none => exact ⟨List.infix_rfl, List.nil_infix⟩
  | some p => exact infix_of_splitOnce h

theorem infix_intercalate {c : UInt8} {parts : List Bytes} {p : Bytes} (h : p ∈ parts) :
    p <:+: [c].intercalate parts := by
  induction parts with
  | nil => exact absurd h List.not_mem_nil
  | cons q parts ih =>
    cases parts with
    | nil =>
      obtain rfl := List.mem_singleton.1 h
      simp
    | cons r parts =>
      rw [List.intercalate_cons_cons]
      rcases List.mem_cons.1 h with rfl | h
      · rw [List.append_assoc]
        exact (List.prefix_append _ _).isInfix
      · exact (ih h).trans (List.suffix_append _ _).isInfix

theorem infix_of_mem_splitOn {c : UInt8} {bs p : Bytes} (h : p ∈ bs.splitOn c) : p <:+: bs := by
  have hjoin : [c].intercalate (bs.splitOn c) = bs := List.intercalate_splitOn c
  rw [← hjoin]
  exact infix_intercalate h

/-! ## Finding -/

/-- `find`: where a string first comes up. -/
def findSub (needle : Bytes) : Bytes → Option ℕ
  | [] => if needle = [] then some 0 else none
  | b :: bs => if needle <+: b :: bs then some 0 else (findSub needle bs).map (· + 1)

/-- No copy of `needle` begins in the text, whatever follows it. -/
def Misses (needle : Bytes) : Bytes → Prop
  | [] => True
  | b :: bs => (¬needle <+: b :: bs ∧ ¬b :: bs <+: needle) ∧ Misses needle bs

instance decidableMisses (needle : Bytes) : (bs : Bytes) → Decidable (Misses needle bs)
  | [] => inferInstanceAs (Decidable True)
  | _ :: bs => @instDecidableAnd _ _ inferInstance (decidableMisses needle bs)

section

variable {c : UInt8} {needle a b : Bytes}

theorem not_prefix_append (h : ¬needle <+: a ∧ ¬a <+: needle) (b : Bytes) :
    ¬needle <+: a ++ b ∧ ¬a ++ b <+: needle := by
  constructor
  · intro hn
    rcases List.prefix_or_prefix_of_prefix hn (List.prefix_append a b) with hn | hn
    · exact h.1 hn
    · exact h.2 hn
  · intro hn
    exact h.2 ((List.prefix_append a b).trans hn)

theorem misses_append (ha : Misses needle a) (hb : Misses needle b) : Misses needle (a ++ b) := by
  induction a with
  | nil => exact hb
  | cons x a ih => exact ⟨not_prefix_append ha.1 b, ih ha.2⟩

/-- What begins with a byte that the text has not cannot begin in it. -/
theorem misses_of_notMem (h : c ∉ a) : Misses (c :: needle) a := by
  induction a with
  | nil => trivial
  | cons x a ih =>
    obtain ⟨hx, ha⟩ := not_or.1 (mt List.mem_cons.2 h)
    refine ⟨⟨fun hn => ?_, fun hn => ?_⟩, ih ha⟩
    · exact hx (List.cons_prefix_cons.1 hn).1
    · exact hx (List.cons_prefix_cons.1 hn).1.symm

/-- **A piece that is missed** is passed over. -/
theorem findSub_of_misses (h : Misses needle a) (b : Bytes) :
    findSub needle (a ++ b) = (findSub needle b).map (· + a.length) := by
  induction a with
  | nil => simp
  | cons x a ih =>
    have hn := (not_prefix_append h.1 b).1
    rw [List.cons_append] at hn ⊢
    rw [findSub, if_neg hn, ih h.2, Option.map_map]
    rfl

theorem findSub_append (needle b : Bytes) : findSub needle (needle ++ b) = some 0 := by
  have hn : needle <+: needle ++ b := List.prefix_append needle b
  cases hb : needle ++ b with
  | nil =>
    rw [findSub, if_pos (List.append_eq_nil_iff.1 hb).1]
  | cons x t =>
    rw [hb] at hn
    rw [findSub, if_pos hn]

/-- A string whose first byte is nowhere else in it is found behind a text without it. -/
theorem findSub_eq_none_of_not_infixed (hc : c ∉ needle) (h : ¬c :: needle <:+: a) (b : Bytes) :
    findSub (c :: needle) (a ++ (c :: needle ++ b)) = some a.length := by
  induction a with
  | nil => exact findSub_append (c :: needle) b
  | cons x a ih =>
    have hfront : ¬c :: needle <+: x :: (a ++ (c :: needle ++ b)) := by
      intro hn
      obtain ⟨hx, hrest⟩ := List.cons_prefix_cons.1 hn
      rcases List.prefix_or_prefix_of_prefix hrest (List.prefix_append a _) with hin | ⟨y, rfl⟩
      · exact h (List.cons_prefix_cons.2 ⟨hx, hin⟩).isInfix
      · -- the string would begin again within itself
        rw [List.prefix_append_right_inj] at hrest
        cases y with
        | nil => exact h (by simp [hx])
        | cons z y =>
          obtain rfl := (List.cons_prefix_cons.1 hrest).1
          exact hc (by simp)
    rw [List.cons_append, findSub, if_neg hfront, ih fun hin => h (hin.trans (List.suffix_cons x a).isInfix)]
    rfl

theorem isSome_findSub_iff : (findSub needle a).isSome ↔ needle <:+: a := by
  induction a with
  | nil =>
    rw [findSub, List.infix_nil]
    split_ifs with h <;> simp [h]
  | cons x bs ih =>
    rw [findSub, List.infix_cons_iff]
    split_ifs with h
    · simp [h]
    · simp [h, ih]

end

/-! ## Trimmed texts -/

/-- No pattern is empty and none begins with another: what is dropped can be told from what is left. -/
def PrefixFree (pats : List Bytes) : Prop := ∀ p ∈ pats, p ≠ [] ∧ ∀ q ∈ pats, p <+: q → p = q

instance (pats : List Bytes) : Decidable (PrefixFree pats) :=
  inferInstanceAs (Decidable (∀ p ∈ pats, _ ∧ ∀ q ∈ pats, _ → _))

theorem prefixFree_spaces : PrefixFree spaces ∧ PrefixFree (spaces.map List.reverse) := by
  decide

/-- `t` is `bs` without the patterns at its front. -/
def Stripped (pats : List Bytes) (bs t : Bytes) : Prop :=
  (∃ ws : List Bytes, (∀ w ∈ ws, w ∈ pats) ∧ bs = ws.flatten ++ t) ∧ ∀ p ∈ pats, ¬p <+: t

section

variable {pats : List Bytes} {bs t : Bytes}

theorem stripped_dropAll (hpats : PrefixFree pats) {n : ℕ} (hn : bs.length ≤ n) :
    Stripped pats bs (dropAll pats n bs) := by
  induction n generalizing bs with
  | zero =>
    obtain rfl : bs = [] := List.length_eq_zero_iff.1 (Nat.le_zero.1 hn)
    exact ⟨⟨[], by simp, rfl⟩, fun p hp h => (hpats p hp).1 (List.prefix_nil.1 h)⟩
  | succ n ih =>
    rw [dropAll]
    split
    · next p hp =>
      have hmem := List.mem_of_find?_eq_some hp
      have hpre : p <+: bs := by simpa using List.find?_some hp
      obtain ⟨z, rfl⟩ := hpre
      have hpos := List.length_pos_of_ne_nil (hpats p hmem).1
      rw [List.length_append] at hn
      rw [List.drop_left]
      obtain ⟨⟨ws, hws, hz⟩, hstop⟩ := ih (show z.length ≤ n by omega)
      refine ⟨⟨p :: ws, List.forall_mem_cons.2 ⟨hmem, hws⟩, ?_⟩, hstop⟩
      rw [List.flatten_cons, List.append_assoc, ← hz]
    · next hnone =>
      refine ⟨⟨[], by simp, rfl⟩, fun p hp h => ?_⟩
      simpa [h] using List.find?_eq_none.1 hnone p hp

theorem Stripped.unique (hpats : PrefixFree pats) {t' : Bytes} (h : Stripped pats bs t)
    (h' : Stripped pats bs t') : t = t' := by
  obtain ⟨⟨ws, hws, rfl⟩, hstop⟩ := h
  obtain ⟨⟨ws', hws', heq⟩, hstop'⟩ := h'
  induction ws generalizing ws' with
  | nil =>
    cases ws' with
    | nil => exact heq
    | cons w ws' =>
      rw [List.flatten_cons, List.append_assoc] at heq
      exact absurd (⟨_, heq.symm⟩ : w <+: t) (hstop w (hws' w List.mem_cons_self))
  | cons v ws ih =>
    obtain ⟨hv, hws⟩ := List.forall_mem_cons.1 hws
    cases ws' with
    | nil =>
      rw [List.flatten_cons, List.append_assoc] at heq
      have hpre : v <+: t' := by
        rw [show t' = [].flatten ++ t' from rfl, ← heq]
        exact List.prefix_append v _
      exact absurd hpre (hstop' v hv)
    | cons w ws' =>
      obtain ⟨hw, hrest⟩ := List.forall_mem_cons.1 hws'
      rw [List.flatten_cons, List.flatten_cons, List.append_assoc, List.append_assoc] at heq
      have hvw : v = w := by
        rcases List.prefix_or_prefix_of_prefix (List.prefix_append v _)
          (heq ▸ List.prefix_append w _) with h | h
        · exact (hpats v hv).2 w hw h
        · exact ((hpats w hw).2 v hv h).symm
      subst hvw
      exact ih hws ws' hrest (List.append_cancel_left heq)

theorem dropAll_eq_iff (hpats : PrefixFree pats) :
    dropAll pats bs.length bs = t ↔ Stripped pats bs t :=
  ⟨fun h => h ▸ stripped_dropAll hpats le_rfl,
    fun h => (stripped_dropAll hpats le_rfl).unique hpats h⟩

theorem trimStart_eq_iff : trimStart bs = t ↔ Stripped spaces bs t :=
  dropAll_eq_iff prefixFree_spaces.1

theorem trimEnd_eq_iff : trimEnd bs = t ↔ Stripped (spaces.map List.reverse) bs.reverse t.reverse := by
  rw [trimEnd, ← List.length_reverse, ← dropAll_eq_iff prefixFree_spaces.2, List.reverse_eq_iff]

theorem Stripped.append {ws : List Bytes} (hws : ∀ w ∈ ws, w ∈ pats) (h : Stripped pats bs t) :
    Stripped pats (ws.flatten ++ bs) t := by
  obtain ⟨⟨vs, hvs, rfl⟩, hstop⟩ := h
  refine ⟨⟨ws ++ vs, ?_, by rw [List.flatten_append, List.append_assoc]⟩, hstop⟩
  intro w hw
  rcases List.mem_append.1 hw with hw | hw
  · exact hws w hw
  · exact hvs w hw

theorem trimBytes_split (bs : Bytes) : ∃ ws we : List Bytes, (∀ w ∈ ws, w ∈ spaces) ∧
    (∀ w ∈ we, w ∈ spaces.map List.reverse) ∧
    bs = ws.flatten ++ (trimBytes bs ++ we.flatten.reverse) := by
  obtain ⟨⟨ws, hws, hbs⟩, -⟩ := trimStart_eq_iff.1 (rfl : trimStart bs = trimStart bs)
  obtain ⟨⟨we, hwe, hend⟩, -⟩ :=
    trimEnd_eq_iff.1 (rfl : trimEnd (trimStart bs) = trimEnd (trimStart bs))
  refine ⟨ws, we, hws, hwe, ?_⟩
  have hrev := congrArg List.reverse hend
  rw [List.reverse_reverse, List.reverse_append, List.reverse_reverse] at hrev
  rw [trimBytes, ← hrev]
  exact hbs

theorem infix_trimBytes (bs : Bytes) : trimBytes bs <:+: bs := by
  obtain ⟨ws, we, -, -, hbs⟩ := trimBytes_split bs
  exact ⟨ws.flatten, we.flatten.reverse, by rw [List.append_assoc, ← hbs]⟩

/-- Spaces in front are dropped. -/
theorem trimStart_append {ws : List Bytes} (hws : ∀ w ∈ ws, w ∈ spaces) (bs : Bytes) :
    trimStart (ws.flatten ++ bs) = trimStart bs :=
  trimStart_eq_iff.2 ((trimStart_eq_iff.1 rfl).append hws)

/-- A byte that is in no space stops the dropping. -/
theorem not_prefix_of_notMem {c : UInt8} (hc : ∀ p ∈ pats, c ∉ p) {a z : Bytes} {p : Bytes}
    (hp : p ∈ pats) (ha : ¬p <+: a) : ¬p <+: a ++ c :: z := by
  intro h
  rcases List.prefix_or_prefix_of_prefix h (List.prefix_append a _) with hpa | ⟨y, rfl⟩
  · exact ha hpa
  · rw [List.prefix_append_right_inj] at h
    cases y with
    | nil => exact ha (by simp)
    | cons x y =>
      obtain rfl := (List.cons_prefix_cons.1 h).1
      exact hc _ hp (by simp)

/-- A byte that stands in no space. -/
def Solid (c : UInt8) : Prop := ∀ p ∈ spaces, c ∉ p

instance : DecidablePred Solid := fun _ => inferInstanceAs (Decidable (∀ p ∈ spaces, _))

theorem Solid.reverse {c : UInt8} (h : Solid c) : ∀ p ∈ spaces.map List.reverse, c ∉ p := by
  intro p hp
  obtain ⟨q, hq, rfl⟩ := List.mem_map.1 hp
  rw [List.mem_reverse]
  exact h q hq

theorem spaces_ne_nil {p : Bytes} (h : p ∈ spaces) : p ≠ [] := (prefixFree_spaces.1 p h).1

/-- What begins with a solid byte loses nothing in front. -/
theorem trimStart_cons {c : UInt8} (hc : Solid c) (bs : Bytes) : trimStart (c :: bs) = c :: bs := by
  refine trimStart_eq_iff.2 ⟨⟨[], by simp, rfl⟩, fun p hp => ?_⟩
  exact not_prefix_of_notMem (a := []) hc hp fun h => spaces_ne_nil hp (List.prefix_nil.1 h)

/-- Before a solid byte, only what stands in front of it is trimmed. -/
theorem trimStart_append_cons {c : UInt8} (hc : Solid c) (a bs : Bytes) :
    trimStart (a ++ c :: bs) = trimStart a ++ c :: bs := by
  obtain ⟨⟨ws, hws, ha⟩, hstop⟩ := trimStart_eq_iff.1 (rfl : trimStart a = trimStart a)
  refine trimStart_eq_iff.2 ⟨⟨ws, hws, ?_⟩, fun p hp => not_prefix_of_notMem hc hp (hstop p hp)⟩
  rw [← List.append_assoc, ← ha]

/-- Behind a solid byte, only what follows it is trimmed. -/
theorem trimEnd_append_cons {c : UInt8} (hc : Solid c) (a bs : Bytes) :
    trimEnd (a ++ c :: bs) = a ++ c :: trimEnd bs := by
  obtain ⟨⟨ws, hws, hbs⟩, hstop⟩ := trimEnd_eq_iff.1 (rfl : trimEnd bs = trimEnd bs)
  refine trimEnd_eq_iff.2 ⟨⟨ws, hws, ?_⟩, fun p hp => ?_⟩
  · rw [List.reverse_append, List.reverse_cons, List.reverse_append, List.reverse_cons, hbs]
    simp
  · rw [List.reverse_append, List.reverse_cons, List.append_assoc]
    exact not_prefix_of_notMem hc.reverse hp (hstop p hp)

theorem prefix_trimEnd (bs : Bytes) : trimEnd bs <+: bs := by
  obtain ⟨⟨ws, -, hbs⟩, -⟩ := trimEnd_eq_iff.1 (rfl : trimEnd bs = trimEnd bs)
  refine ⟨ws.flatten.reverse, List.reverse_injective ?_⟩
  rw [List.reverse_append, List.reverse_reverse, hbs]

theorem trimEnd_idem (bs : Bytes) : trimEnd (trimEnd bs) = trimEnd bs :=
  trimEnd_eq_iff.2 ⟨⟨[], by simp, rfl⟩, (trimEnd_eq_iff.1 (rfl : trimEnd bs = trimEnd bs)).2⟩

/-- What ends in a blank of one byte is not trimmed. -/
theorem trimEnd_concat_ne {w : UInt8} (hw : [w] ∈ spaces) (front : Bytes) :
    trimEnd (front ++ [w]) ≠ front ++ [w] := by
  intro h
  apply (trimEnd_eq_iff.1 h).2 [w] (List.mem_map.2 ⟨[w], hw, rfl⟩)
  rw [List.reverse_append]
  exact List.prefix_append _ _

/-- Trimming twice is trimming once. -/
theorem trimBytes_idem (bs : Bytes) : trimBytes (trimBytes bs) = trimBytes bs := by
  have hstart : trimStart (trimBytes bs) = trimBytes bs :=
    trimStart_eq_iff.2 ⟨⟨[], by simp, rfl⟩, fun p hp h =>
      (trimStart_eq_iff.1 (rfl : trimStart bs = trimStart bs)).2 p hp (h.trans (prefix_trimEnd _))⟩
  rw [trimBytes, hstart, trimBytes, trimEnd_idem]

/-- What is trimmed already loses nothing at either end. -/
theorem trimStart_of_trim {bs : Bytes} (h : trimBytes bs = bs) : trimStart bs = bs ∧ trimEnd bs = bs := by
  obtain ⟨⟨ws, -, hws⟩, -⟩ := trimStart_eq_iff.1 (rfl : trimStart bs = trimStart bs)
  have hsuffix : trimStart bs <:+ bs := ⟨ws.flatten, hws.symm⟩
  have hpre : bs <+: trimStart bs := by
    have hend := prefix_trimEnd (trimStart bs)
    rwa [show trimEnd (trimStart bs) = bs from h] at hend
  have hstart := hsuffix.eq_of_length (Nat.le_antisymm hsuffix.length_le hpre.length_le)
  refine ⟨hstart, ?_⟩
  rwa [trimBytes, hstart] at h

/-- A text begins with a solid byte whether it is trimmed at its end or not. -/
theorem head_trimBytes {c : UInt8} (hc : Solid c) (bs : Bytes) :
    (trimBytes bs).head? = some c ↔ (trimStart bs).head? = some c := by
  rw [trimBytes]
  constructor
  · intro h
    obtain ⟨z, hz⟩ := prefix_trimEnd (trimStart bs)
    rw [← hz, List.head?_append, h]
    rfl
  · intro h
    cases ht : trimStart bs with
    | nil => rw [ht] at h; exact nomatch h
    | cons b t =>
      rw [ht, List.head?_cons, Option.some.injEq] at h
      subst h
      have htrim := trimEnd_append_cons hc [] t
      rw [List.nil_append] at htrim
      rw [htrim]
      rfl

theorem Solid.notMem {c : UInt8} (hc : Solid c) {ws : List Bytes} (hws : ∀ w ∈ ws, w ∈ spaces) :
    c ∉ ws.flatten := by
  intro h
  obtain ⟨w, hw, hcw⟩ := List.mem_flatten.1 h
  exact hc w (hws w hw) hcw

theorem Solid.notMem_reverse {c : UInt8} (hc : Solid c) {ws : List Bytes}
    (hws : ∀ w ∈ ws, w ∈ spaces.map List.reverse) : c ∉ ws.flatten.reverse := by
  intro h
  obtain ⟨w, hw, hcw⟩ := List.mem_flatten.1 (List.mem_reverse.1 h)
  exact hc.reverse w (hws w hw) hcw

/-- Trimming takes no solid byte away. -/
theorem Solid.mem_trimBytes {c : UInt8} (hc : Solid c) {bs : Bytes} : c ∈ trimBytes bs ↔ c ∈ bs := by
  obtain ⟨ws, we, hws, hwe, hbs⟩ := trimBytes_split bs
  constructor
  · intro h
    rw [hbs]
    exact List.mem_append_right _ (List.mem_append_left _ h)
  · intro h
    rw [hbs] at h
    rcases List.mem_append.1 h with h | h
    · exact absurd h (hc.notMem hws)
    · rcases List.mem_append.1 h with h | h
      · exact h
      · exact absurd h (hc.notMem_reverse hwe)

/-- What is made of solid bytes is trimmed. -/
theorem trimBytes_solid {bs : Bytes} (h : ∀ b ∈ bs, Solid b) : trimBytes bs = bs := by
  cases bs with
  | nil => rfl
  | cons b bs =>
    have hend : trimEnd bs = bs := by
      obtain ⟨⟨we, hwe, hbs⟩, -⟩ := trimEnd_eq_iff.1 (rfl : trimEnd bs = trimEnd bs)
      cases we with
      | nil => simpa using hbs.symm
      | cons w we =>
        obtain ⟨hw, -⟩ := List.forall_mem_cons.1 hwe
        obtain ⟨p, hp, rfl⟩ := List.mem_map.1 hw
        obtain ⟨x, xs, rfl⟩ := List.exists_cons_of_ne_nil (spaces_ne_nil hp)
        have hx : x ∈ bs := by
          rw [← List.mem_reverse, hbs]
          simp
        exact absurd List.mem_cons_self (h x (List.mem_cons_of_mem b hx) _ hp)
    have hb := h b List.mem_cons_self
    rw [trimBytes, trimStart_cons hb, ← List.nil_append (b :: bs), trimEnd_append_cons hb, hend]

/-- The key of a line is the same whether the line is trimmed or not. -/
theorem splitOnce_trimBytes {c : UInt8} (hc : Solid c) (bs : Bytes) :
    (splitOnce c (trimBytes bs)).map (fun p => trimBytes p.1) =
      (splitOnce c bs).map fun p => trimBytes p.1 := by
  rw [splitOnce, splitOnce]
  by_cases hmem : c ∈ bs
  · obtain ⟨ws, we, hws, hwe, hbs⟩ := trimBytes_split bs
    have hcore := hc.mem_trimBytes.2 hmem
    have hkey : bs.takeWhile (· ≠ c) = ws.flatten ++ (trimBytes bs).takeWhile (· ≠ c) := by
      have hfront : ∀ b ∈ ws.flatten, decide (b ≠ c) = true := fun b hb =>
        decide_eq_true fun heq => hc.notMem hws (heq ▸ hb)
      have hstop : ¬∀ b ∈ trimBytes bs, decide (b ≠ c) = true := fun hall => by
        simpa using hall c hcore
      conv_lhs => rw [hbs]
      rw [List.takeWhile_append_of_pos hfront, List.takeWhile_append]
      rw [if_neg]
      intro hlen
      refine hstop fun b hb => ?_
      rw [← (List.takeWhile_prefix _).eq_of_length hlen] at hb
      exact List.all_eq_true.1 List.all_takeWhile b hb
    have htrim : ∀ k, trimBytes (ws.flatten ++ k) = trimBytes k := fun k => by
      rw [trimBytes, trimBytes, trimStart_append hws]
    rw [if_pos hmem, if_pos hcore, Option.map_some, Option.map_some, hkey, htrim]
  · rw [if_neg hmem, if_neg (mt hc.mem_trimBytes.1 hmem)]

/-- A carriage return at the end of a line is trimmed with the rest. -/
theorem trimBytes_chomp (line : Bytes) : trimBytes (chomp line) = trimBytes line := by
  rw [chomp]
  split
  · next h =>
    obtain ⟨front, rfl⟩ : ∃ front, line = front ++ [13] := by
      rw [List.getLast?_eq_some_iff] at h
      exact h
    rw [List.dropLast_concat]
    obtain ⟨⟨ws, hws, hfront⟩, hstop⟩ := trimStart_eq_iff.1 (rfl : trimStart front = trimStart front)
    have hcr : ([13] : Bytes) ∈ spaces := by decide
    by_cases ht : trimStart front = []
    · have hall : trimStart (front ++ [13]) = [] := by
        refine trimStart_eq_iff.2 ⟨⟨ws ++ [[13]], ?_, ?_⟩, ht ▸ hstop⟩
        · intro w hw
          rcases List.mem_append.1 hw with hw | hw
          · exact hws w hw
          · exact List.mem_singleton.1 hw ▸ hcr
        · rw [hfront, ht]
          simp
      rw [trimBytes, trimBytes, hall, ht]
    · have hlast : ∀ p ∈ spaces, p.getLast? = some 13 → p = [13] := by decide
      have hkeep : trimStart (front ++ [13]) = trimStart front ++ [13] := by
        refine trimStart_eq_iff.2 ⟨⟨ws, hws, ?_⟩, fun p hp hpre => ?_⟩
        · rw [← List.append_assoc, ← hfront]
        · rcases List.prefix_concat_iff.1 hpre with heq | hpre
          · have h13 := hlast p hp (by rw [heq]; simp)
            rw [h13] at heq
            exact ht (List.append_cancel_right (heq.symm.trans (List.nil_append [13]).symm))
          · exact hstop p hp hpre
      rw [trimBytes, trimBytes, hkeep]
      symm
      refine trimEnd_eq_iff.2 ?_
      have hrest := trimEnd_eq_iff.1 (rfl : trimEnd (trimStart front) = trimEnd (trimStart front))
      rw [List.reverse_append]
      show Stripped _ ([[13]].flatten ++ _) _
      exact hrest.append (by decide)
  · rfl

end

/-! ## Lines of a text -/

namespace Text

/-- `lines`. -/
def lines (t : Text) : List Text :=
  (Aurade.lines t.val).attach.map fun l => ⟨l.val, valid_of_mem_lines t.property l.property⟩

theorem map_val_lines (t : Text) : t.lines.map Subtype.val = Aurade.lines t.val := by
  rw [lines, List.map_map]
  exact List.attach_map_subtype_val _

/-- `split_once` at an ASCII character. -/
def splitOnce (c : UInt8) (hc : c < 0x80) (t : Text) : Option (Text × Text) :=
  match h : Aurade.splitOnce c t.val with
  | none => none
  | some (a, b) =>
    have hvalid : Utf8.valid a = true ∧ Utf8.valid b = true := by
      have ht := t.property
      rw [(eq_of_splitOnce h).1, Utf8.valid_append_ascii hc, Bool.and_eq_true] at ht
      exact ht
    some (⟨a, hvalid.1⟩, ⟨b, hvalid.2⟩)

theorem splitOnce_of_val {c : UInt8} (hc : c < 0x80) {t a b : Text}
    (h : Aurade.splitOnce c t.val = some (a.val, b.val)) : t.splitOnce c hc = some (a, b) := by
  unfold splitOnce
  split
  · next h' => exact absurd (h'.symm.trans h) (Option.some_ne_none _).symm
  · next h' =>
    obtain ⟨ha, hb⟩ := Prod.mk.inj (Option.some.inj (h'.symm.trans h))
    exact congrArg some (Prod.ext (Subtype.ext ha) (Subtype.ext hb))

end Text

end Aurade
