import Aurade.Foundations.Text
import Std.Data.ExtTreeMap

/-!
# JSON of a map of string lists

Writing and reading `{"key":["a","b"],...}`, byte for byte the way a JSON library writes an ordered
map of lists of strings with no spaces. `readMap_writeMap` is the round trip. The reader takes what
the writer writes: a text with spaces, or with an escape the writer does not use, is none of its
business.
-/

namespace Aurade

namespace Json

/-- A text to the texts listed under it, in the order of the keys. -/
abbrev StringMap := Std.ExtTreeMap Text (List Text)

/-- A hexadecimal digit. -/
def hexDigit (n : ℕ) : UInt8 := if n < 10 then UInt8.ofNat (48 + n) else UInt8.ofNat (87 + n)

/-- The number a hexadecimal digit stands for. -/
def unhex (b : UInt8) : ℕ := if b < 58 then b.toNat - 48 else b.toNat - 87

/-- The control characters that have a letter of their own, with it. -/
def letters : List (UInt8 × UInt8) := [(8, 98), (9, 116), (10, 110), (12, 102), (13, 114)]

/-- A byte inside a string. -/
def escape (b : UInt8) : Bytes :=
  if b = 34 ∨ b = 92 then [92, b]
  else match letters.find? fun p => p.1 = b with
    | some p => [92, p.2]
    | none =>
      if b < 32 then [92, 117, 48, 48, hexDigit (b.toNat / 16), hexDigit (b.toNat % 16)] else [b]

/-- A string. -/
def writeString (s : Bytes) : Bytes := 34 :: (s.flatMap escape ++ [34])

/-- A string from behind its opening quote, and what follows it. -/
def readString : Bytes → Option (Bytes × Bytes)
  | 92 :: 117 :: 48 :: 48 :: h :: l :: r =>
    (readString r).map fun p => (UInt8.ofNat (16 * unhex h + unhex l) :: p.1, p.2)
  | 92 :: c :: r =>
    (readString r).map fun p =>
      (((letters.find? fun q => q.2 = c).map Prod.fst).getD c :: p.1, p.2)
  | b :: r => if b = 34 then some ([], r) else (readString r).map fun p => (b :: p.1, p.2)
  | [] => none

/-- Items between commas, up to the byte that closes them; at most `n` of them. -/
def readItems {α : Type} (item : Bytes → Option (α × Bytes)) (close : UInt8) :
    ℕ → Bytes → Option (List α × Bytes)
  | 0, _ => none
  | n + 1, bs =>
    match item bs with
    | some (a, c :: r) =>
      if c = close then some ([a], r)
      else if c = 44 then (readItems item close n r).map fun p => (a :: p.1, p.2)
      else none
    | _ => none

/-- A bracketed list of items. -/
def writeMany {α : Type} (item : α → Bytes) (opening close : UInt8) (as : List α) : Bytes :=
  opening :: ([44].intercalate (as.map item) ++ [close])

/-- A bracketed list of items, and what follows it. -/
def readMany {α : Type} (item : Bytes → Option (α × Bytes)) (opening close : UInt8) :
    Bytes → Option (List α × Bytes)
  | a :: b :: r =>
    if a ≠ opening then none
    else if b = close then some ([], r)
    else readItems item close (r.length + 1) (b :: r)
  | _ => none

/-- A string with its opening quote. -/
def readQuoted : Bytes → Option (Bytes × Bytes)
  | b :: r => if b = 34 then readString r else none
  | [] => none

/-- A string that is a text. -/
def readText (bs : Bytes) : Option (Text × Bytes) :=
  (readQuoted bs).bind fun p => (Text.ofBytes? p.1).map fun t => (t, p.2)

/-- A key and the strings under it. -/
def writeEntry (e : Text × List Text) : Bytes :=
  writeString e.1.val ++ 58 :: writeMany (fun t : Text => writeString t.val) 91 93 e.2

/-- A key and the strings under it, and what follows. -/
def readEntry (bs : Bytes) : Option ((Text × List Text) × Bytes) :=
  match readText bs with
  | some (k, c :: r) =>
    if c = 58 then (readMany readText 91 93 r).map fun p => ((k, p.1), p.2) else none
  | _ => none

/-- The bytes of a map of string lists. -/
def mapBytes (m : StringMap) : Bytes := writeMany writeEntry 123 125 m.toList

/-- The map a whole text is the JSON of. -/
def readMap (t : Text) : Option StringMap :=
  match readMany readEntry 123 125 t.val with
  | some (es, []) => some (Std.ExtTreeMap.ofList es)
  | _ => none

/-! ## Strings are read back -/

/-- The bytes that are escaped: with their number, or as a quote with one byte behind it. -/
def Escaped (b : UInt8) : Prop :=
  (escape b = [92, 117, 48, 48, hexDigit (b.toNat / 16), hexDigit (b.toNat % 16)] ∧
    UInt8.ofNat (16 * unhex (hexDigit (b.toNat / 16)) + unhex (hexDigit (b.toNat % 16))) = b) ∨
  (escape b = [92, (escape b).getD 1 0] ∧ (escape b).getD 1 0 ≠ 117 ∧
    ((letters.find? fun q => q.2 = (escape b).getD 1 0).map Prod.fst).getD
      ((escape b).getD 1 0) = b)

instance : DecidablePred Escaped := fun _ => inferInstanceAs (Decidable (_ ∨ _))

theorem unhex_hexDigit : ∀ n < 16, unhex (hexDigit n) = n := by decide

theorem escaped_or_plain (b : UInt8) : Escaped b ∨ (escape b = [b] ∧ b ≠ 34 ∧ b ≠ 92) := by
  by_cases hquote : b = 34 ∨ b = 92
  · rcases hquote with rfl | rfl <;> decide
  cases hletter : letters.find? fun p => p.1 = b with
  | some p =>
    have hp : p ∈ letters := List.mem_of_find?_eq_some hletter
    have hb : p.1 = b := by simpa using List.find?_some hletter
    have hall : (letters.all fun q => decide (Escaped q.1)) = true := by decide
    exact Or.inl (hb ▸ of_decide_eq_true (List.all_eq_true.1 hall p hp))
  | none =>
    by_cases hlow : b < 32
    · have hlt : b.toNat < 256 := b.toNat_lt
      refine Or.inl (Or.inl ⟨?_, ?_⟩)
      · simp only [escape, hquote, hletter, hlow, if_true, if_false]
      · rw [unhex_hexDigit _ (by omega), unhex_hexDigit _ (by omega), Nat.div_add_mod,
          UInt8.ofNat_toNat]
    · refine Or.inr ⟨?_, fun h => hquote (Or.inl h), fun h => hquote (Or.inr h)⟩
      simp only [escape, hquote, hletter, hlow, if_false]

theorem readString_escape (b : UInt8) (r : Bytes) :
    readString (escape b ++ r) = (readString r).map fun p => (b :: p.1, p.2) := by
  rcases escaped_or_plain b with (⟨he, hv⟩ | ⟨he, hc, hv⟩) | ⟨he, hquote, hback⟩
  · rw [he]
    show (readString r).map _ = _
    rw [hv]
  · rw [he, List.cons_append, List.cons_append, List.nil_append, readString, hv]
    intro h l r' h'
    exact absurd h' hc
  · rw [he, List.cons_append, List.nil_append, readString, if_neg hquote]
    · intro h l r' h'
      exact absurd h' hback
    · intro c r' h'
      exact absurd h' hback

theorem readString_flatMap (s r : Bytes) :
    readString (s.flatMap escape ++ 34 :: r) = some (s, r) := by
  induction s with
  | nil => rfl
  | cons b s ih => rw [List.flatMap_cons, List.append_assoc, readString_escape, ih]; rfl

theorem readQuoted_writeString (s r : Bytes) : readQuoted (writeString s ++ r) = some (s, r) := by
  rw [writeString, List.cons_append, List.append_assoc, readQuoted, if_pos rfl]
  exact readString_flatMap s r

/-! ## Lists are read back -/

section

variable {α β : Type} {read : Bytes → Option (β × Bytes)} {write : α → Bytes} {told : α → β}
  {opening close : UInt8}

theorem readItems_intercalate {as : List α}
    (hread : ∀ a ∈ as, ∀ c r, c = 44 ∨ c = close → read (write a ++ c :: r) = some (told a, c :: r))
    (hclose : close ≠ 44) (has : as ≠ []) {n : ℕ} (hn : as.length ≤ n) (r : Bytes) :
    readItems read close n ([44].intercalate (as.map write) ++ close :: r) =
      some (as.map told, r) := by
  induction as generalizing n with
  | nil => exact absurd rfl has
  | cons a as ih =>
    obtain ⟨n, rfl⟩ : ∃ m, n = m + 1 := ⟨n - 1, by simp at hn; omega⟩
    obtain ⟨ha, hall⟩ := List.forall_mem_cons.1 hread
    cases as with
    | nil => simp [readItems, ha close r (Or.inr rfl)]
    | cons b as =>
      rw [List.map_cons, List.map_cons, List.intercalate_cons_cons, List.append_assoc,
        List.append_assoc, List.singleton_append, readItems, ha 44 _ (Or.inl rfl)]
      have := ih hall (by simp) (n := n) (by simpa using hn)
      rw [List.map_cons] at this
      simp only [if_neg hclose.symm, if_true, this, Option.map_some, List.map_cons]

theorem length_le_intercalate (hne : ∀ a, write a ≠ []) (as : List α) :
    as.length ≤ ([44].intercalate (as.map write)).length := by
  induction as with
  | nil => simp
  | cons a as ih =>
    have hpos : 0 < (write a).length := List.length_pos_of_ne_nil (hne a)
    cases as with
    | nil => simp; omega
    | cons c as =>
      rw [List.map_cons, List.map_cons, List.intercalate_cons_cons]
      simp only [List.length_append, List.length_cons, List.length_nil, List.map_cons] at ih ⊢
      omega

variable (opening) in
theorem readMany_writeMany {as : List α}
    (hread : ∀ a ∈ as, ∀ c r, c = 44 ∨ c = close → read (write a ++ c :: r) = some (told a, c :: r))
    (hclose : close ≠ 44) (hhead : ∀ a, (write a).head? ≠ some close)
    (hne : ∀ a, write a ≠ []) (r : Bytes) :
    readMany read opening close (writeMany write opening close as ++ r) =
      some (as.map told, r) := by
  cases as with
  | nil => simp [writeMany, readMany]
  | cons a as =>
    obtain ⟨b, bs, hb⟩ := List.exists_cons_of_ne_nil (hne a)
    have hbclose : b ≠ close := fun h => hhead a (by rw [hb, h]; rfl)
    have hitems := readItems_intercalate hread hclose (List.cons_ne_nil a as)
      (n := ([44].intercalate ((a :: as).map write) ++ close :: r).length)
      (by have := length_le_intercalate hne (a :: as); rw [List.length_append]; omega) r
    obtain ⟨tail, htail⟩ : ∃ tail, [44].intercalate ((a :: as).map write) ++ close :: r =
        b :: tail := by
      cases as with
      | nil => exact ⟨bs ++ close :: r, by simp [hb]⟩
      | cons c as => exact ⟨_, by rw [List.map_cons, List.map_cons, List.intercalate_cons_cons, hb]; rfl⟩
    rw [writeMany, List.cons_append, List.append_assoc, List.singleton_append, htail, readMany,
      if_neg (by simp), if_neg hbclose]
    rw [htail] at hitems
    exact hitems

end

theorem readText_writeString (t : Text) (r : Bytes) :
    readText (writeString t.val ++ r) = some (t, r) := by
  rw [readText, readQuoted_writeString, Option.bind_some, Text.ofBytes?_val, Option.map_some]

theorem readEntry_writeEntry (e : Text × List Text) (r : Bytes) :
    readEntry (writeEntry e ++ r) = some (e, r) := by
  have hlist : readMany readText 91 93 (writeMany (fun t : Text => writeString t.val) 91 93 e.2 ++ r) =
      some (e.2.map id, r) :=
    readMany_writeMany 91 (fun t _ c r _ => readText_writeString t (c :: r)) (by decide)
      (by simp [writeString]) (by simp [writeString]) r
  rw [List.map_id] at hlist
  rw [writeEntry, List.append_assoc, List.cons_append, readEntry, readText_writeString]
  simp only [if_true, hlist, Option.map_some]

/-! ## What is written is a text -/

theorem valid_cons_ascii {c : UInt8} (hc : c < 0x80) (bs : Bytes) :
    Utf8.valid (c :: bs) = Utf8.valid bs := by
  rw [Utf8.valid_cons, Utf8.chunk_ascii hc]
  rfl

theorem escape_ascii : ∀ n < 128, ∀ c ∈ escape (UInt8.ofNat n), c < 0x80 := by
  have hall : ∀ n < 128, ((escape (UInt8.ofNat n)).all fun c => decide (c < 0x80)) = true := by
    decide
  intro n hn c hc
  exact of_decide_eq_true (List.all_eq_true.1 (hall n hn) c hc)

theorem escape_high {b : UInt8} (h : ¬ b < 0x80) : escape b = [b] :=
  forall_byte (P := fun b => ¬ b < 0x80 → escape b = [b]) (by decide +kernel) b h

/-- What writes ASCII for ASCII and leaves every other byte as it is makes a text of a text. -/
theorem valid_flatMap {f : UInt8 → Bytes} (hlow : ∀ b, b < 0x80 → ∀ c ∈ f b, c < 0x80)
    (hhigh : ∀ b, ¬ b < 0x80 → f b = [b]) {s : Bytes} (h : Utf8.valid s = true) :
    Utf8.valid (s.flatMap f) = true := by
  induction hlen : s.length using Nat.strong_induction_on generalizing s with
  | _ n ih =>
    cases s with
    | nil => rfl
    | cons b s =>
      by_cases hb : b < 0x80
      · have hvalid : Utf8.valid (f b) = true := by
          have := Utf8.valid_append_of_ascii (hlow b hb) []
          rwa [List.nil_append] at this
        rw [valid_cons_ascii hb] at h
        rw [List.flatMap_cons, Utf8.valid_append hvalid]
        exact ih _ (by rw [← hlen]; simp) h rfl
      · obtain ⟨u, z, rfl, hu, hbu, hz⟩ := Utf8.exists_char h
        have hsame : ∀ u : Bytes, (∀ x ∈ u, Utf8.isCont x = true) → u.flatMap f = u := by
          intro u hu
          induction u with
          | nil => rfl
          | cons x u ih =>
            obtain ⟨hx, hu⟩ := List.forall_mem_cons.1 hu
            have hx' : ¬ x < 0x80 := fun hlow => by
              rw [Utf8.not_cont_of_ascii hlow] at hx
              cases hx
            rw [List.flatMap_cons, hhigh x hx', ih hu]
            rfl
        rw [List.flatMap_cons, hhigh b hb, List.flatMap_append, hsame u hu, ← List.append_assoc,
          List.singleton_append, Utf8.valid_append hbu]
        exact ih _ (by rw [← hlen]; simp) hz rfl

theorem valid_flatMap_escape {s : Bytes} (h : Utf8.valid s = true) :
    Utf8.valid (s.flatMap escape) = true := by
  refine valid_flatMap (fun b hb => ?_) (fun b hb => escape_high hb) h
  have := escape_ascii b.toNat (by simpa using UInt8.lt_iff_toNat_lt.1 hb)
  rwa [UInt8.ofNat_toNat] at this

theorem valid_writeString (t : Text) : Utf8.valid (writeString t.val) = true := by
  rw [writeString, valid_cons_ascii (by decide), Utf8.valid_append_ascii (by decide),
    valid_flatMap_escape t.property]
  rfl

theorem valid_writeMany {α : Type} {item : α → Bytes} {opening close : UInt8} {as : List α}
    (hitem : ∀ a ∈ as, Utf8.valid (item a) = true) (hopening : opening < 0x80)
    (hclose : close < 0x80) : Utf8.valid (writeMany item opening close as) = true := by
  rw [writeMany, valid_cons_ascii hopening, Utf8.valid_append_ascii hclose,
    Text.valid_intercalate (by decide), List.all_map,
    List.all_eq_true.2 fun a ha => show (Utf8.valid ∘ item) a = true from hitem a ha]
  rfl

theorem valid_mapBytes (m : StringMap) : Utf8.valid (mapBytes m) = true := by
  refine valid_writeMany (fun e _ => ?_) (by decide) (by decide)
  rw [writeEntry, Utf8.valid_append (valid_writeString e.1), valid_cons_ascii (by decide)]
  exact valid_writeMany (fun t _ => valid_writeString t) (by decide) (by decide)

/-- A map of string lists. -/
def writeMap (m : StringMap) : Text := ⟨mapBytes m, valid_mapBytes m⟩

theorem ofList_toList (m : StringMap) : Std.ExtTreeMap.ofList m.toList = m := by
  apply Std.ExtTreeMap.ext_getElem?
  intro k
  cases hk : m[k]? with
  | some v =>
    exact Std.ExtTreeMap.getElem?_ofList_of_mem Std.ReflCmp.compare_self
      m.distinct_keys_toList (Std.ExtTreeMap.mem_toList_iff_getElem?_eq_some.2 hk)
  | none =>
    apply Std.ExtTreeMap.getElem?_ofList_of_contains_eq_false
    rw [Bool.eq_false_iff]
    intro hmem
    obtain ⟨e, he, hk'⟩ := List.mem_map.1 (List.contains_iff_mem.1 hmem)
    have hget := Std.ExtTreeMap.mem_toList_iff_getElem?_eq_some.1 he
    rw [hk', hk] at hget
    cases hget

/-- **A map is read back from its JSON.** -/
theorem readMap_writeMap (m : StringMap) : readMap (writeMap m) = some m := by
  have hentries : readMany readEntry 123 125 (writeMany writeEntry 123 125 m.toList ++ []) =
      some (m.toList.map id, []) :=
    readMany_writeMany 123 (fun e _ c r _ => readEntry_writeEntry e (c :: r)) (by decide)
      (by simp [writeEntry, writeString]) (by simp [writeEntry, writeString]) []
  rw [List.append_nil, List.map_id] at hentries
  unfold readMap writeMap mapBytes
  rw [hentries]
  exact congrArg some (ofList_toList m)

end Json

end Aurade
