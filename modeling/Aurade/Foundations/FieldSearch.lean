import Aurade.Foundations.FlatJson

/-!
# Looking for a field of flat JSON

A reader that does not parse looks for `"name":` in the text. Nothing that is written inside a string
reads like that (`misses_quote`), so what it finds first is the field of that name, wherever it
stands (`after_name`), and a text of a name with a string value is there only as that field
(`findSub_named`).
-/

namespace Aurade

namespace Json

/-! ## Names and strings without escapes -/

/-- A name as it stands before its value. -/
def mark (name : Bytes) : Bytes := 34 :: (name ++ [34, 58])

/-- A byte of a name. -/
def isName (b : UInt8) : Bool := isDigit b || (97 ≤ b && b ≤ 122) || b = 95

/-- A name of letters, digits and underscores. -/
def Plain (name : Bytes) : Prop := name ≠ [] ∧ name.all isName = true

/-- A string without quotes, backslashes and control characters. -/
def Unescaped (s : Bytes) : Prop := ∀ b ∈ s, 32 ≤ b ∧ b ≠ 34 ∧ b ≠ 92

theorem name_byte (b : UInt8) (h : isName b = true) :
    32 ≤ b ∧ b ≠ 34 ∧ b ≠ 92 ∧ b ≠ 44 ∧ b ≠ 58 ∧ b ≠ 93 ∧ b ≠ 125 :=
  forall_byte (P := fun b => isName b = true →
    32 ≤ b ∧ b ≠ 34 ∧ b ≠ 92 ∧ b ≠ 44 ∧ b ≠ 58 ∧ b ≠ 93 ∧ b ≠ 125) (by decide +kernel) b h

theorem unescaped_of_name {s : Bytes} (h : s.all isName = true) : Unescaped s := by
  intro b hb
  obtain ⟨hlow, hquote, hback, -⟩ := name_byte b (List.all_eq_true.1 h b hb)
  exact ⟨hlow, hquote, hback⟩

theorem brief_of_unescaped {b : UInt8} (h : 32 ≤ b ∧ b ≠ 34 ∧ b ≠ 92) : brief b = [b] := by
  obtain ⟨hlow, hquote, hback⟩ := h
  have hne : ∀ c : UInt8, c < 32 → b ≠ c := by
    rintro c hc rfl
    exact UInt8.not_lt.2 hlow hc
  unfold brief
  rw [if_neg (by simp [hquote, hback]), if_neg (hne 10 (by decide)), if_neg (hne 13 (by decide)),
    if_neg (hne 9 (by decide)), if_neg (UInt8.not_lt.2 hlow)]

theorem flatMap_brief_unescaped {s : Bytes} (h : Unescaped s) : s.flatMap brief = s := by
  induction s with
  | nil => rfl
  | cons b s ih =>
    obtain ⟨hb, hs⟩ := List.forall_mem_cons.1 h
    rw [List.flatMap_cons, brief_of_unescaped hb, ih hs]
    rfl

theorem kept_unescaped {s : Bytes} (h : Unescaped s) : kept s = s := by
  refine List.filter_eq_self.2 fun b hb => ?_
  simp [(h b hb).1]

theorem flatMap_brief_kept (s : Bytes) : (kept s).flatMap brief = s.flatMap brief := by
  induction s with
  | nil => rfl
  | cons b s ih =>
    rw [kept_cons, List.flatMap_append, List.flatMap_cons, ih]
    rcases brief_cases b with ⟨hb, hk⟩ | ⟨c, hb, -, hk⟩ | ⟨hb, hk, -⟩
    · rw [hb, hk]
      rfl
    · rw [hk, List.flatMap_singleton]
    · rw [hk, List.flatMap_singleton]

/-- A string without escapes is what the text is of that is left of a string. -/
theorem flatMap_brief_eq_iff {s q : Bytes} (hq : Unescaped q) :
    s.flatMap brief = q ↔ kept s = q := by
  constructor
  · intro h
    have hs := readStrict_flatMap s []
    have hq' := readStrict_flatMap q []
    rw [h] at hs
    rw [flatMap_brief_unescaped hq, kept_unescaped hq, hs] at hq'
    exact congrArg Prod.fst (Option.some.inj hq')
  · intro h
    rw [← flatMap_brief_kept, h]
    exact flatMap_brief_unescaped hq

theorem quote_plain {name : Bytes} (h : name.all isName = true) : quote name ++ [58] = mark name := by
  rw [quote, flatMap_brief_unescaped (unescaped_of_name h), mark]
  simp

/-- Neither text can be told from the other before it ends. -/
def Compat (a b : Bytes) : Prop := a <+: b ∨ b <+: a

theorem compat_cons {x y : UInt8} {a b : Bytes} : Compat (x :: a) (y :: b) ↔ x = y ∧ Compat a b := by
  unfold Compat
  rw [List.cons_prefix_cons, List.cons_prefix_cons]
  constructor
  · rintro (⟨h, hab⟩ | ⟨h, hba⟩)
    · exact ⟨h, Or.inl hab⟩
    · exact ⟨h.symm, Or.inr hba⟩
  · rintro ⟨h, hab | hba⟩
    · exact Or.inl ⟨h, hab⟩
    · exact Or.inr ⟨h.symm, hba⟩

/-- A text without quotes and backslashes is read up to its quote only where the string is it. -/
theorem eq_of_compat {q y z s : Bytes} (hq : Unescaped q)
    (h : Compat (q ++ 34 :: y) (s.flatMap brief ++ 34 :: z)) : s.flatMap brief = q ∧ Compat y z := by
  induction s generalizing q with
  | nil =>
    cases q with
    | nil => exact ⟨rfl, (compat_cons.1 h).2⟩
    | cons b q => exact absurd (compat_cons.1 h).1 (hq b List.mem_cons_self).2.1
  | cons b s ih =>
    rw [List.flatMap_cons] at h ⊢
    rcases brief_cases b with ⟨hb, -⟩ | ⟨c, hb, -⟩ | ⟨hb, -, h34, -⟩
    · rw [hb] at h ⊢
      exact ih hq h
    · rw [hb] at h
      cases q with
      | nil => exact absurd (compat_cons.1 h).1 (by decide)
      | cons b' q => exact absurd (compat_cons.1 h).1 (hq b' List.mem_cons_self).2.2
    · rw [hb] at h ⊢
      cases q with
      | nil => exact absurd (compat_cons.1 h).1.symm h34
      | cons b' q =>
        obtain ⟨rfl, hrest⟩ := compat_cons.1 h
        obtain ⟨heq, hyz⟩ := ih (fun x hx => hq x (List.mem_cons_of_mem _ hx)) hrest
        exact ⟨congrArg (b' :: ·) heq, hyz⟩

/-! ## Where a field can begin -/

section Search

variable {f w : Bytes}

theorem mark_append (f w : Bytes) : mark f ++ w = 34 :: (f ++ 34 :: 58 :: w) := by simp [mark]

theorem misses_cons {n a : Bytes} {x : UInt8} (hx : ¬ Compat n (x :: a)) (ha : Misses n a) :
    Misses n (x :: a) :=
  ⟨⟨fun h => hx (Or.inl h), fun h => hx (Or.inr h)⟩, ha⟩

theorem misses_cons_of_ne {n a : Bytes} {x : UInt8} (hx : x ≠ 34) (ha : Misses (34 :: n) a) :
    Misses (34 :: n) (x :: a) :=
  misses_cons (fun h => hx (compat_cons.1 h).1.symm) ha

/-- No field begins inside a string, nor at the quote that closes it. -/
theorem misses_inner (hf : Plain f) {s : Bytes} {c : UInt8} (hc : isName c = false) (hquote : c ≠ 34)
    (hcolon : c = 58 → s.all isName = true) :
    Misses (mark f ++ w) (s.flatMap brief ++ [34, c]) := by
  rw [mark_append]
  induction s with
  | nil =>
    refine misses_cons (fun h => ?_) (misses_cons_of_ne hquote trivial)
    obtain ⟨b, f', rfl⟩ := List.exists_cons_of_ne_nil hf.1
    have hb := (compat_cons.1 (compat_cons.1 h).2).1
    rw [← hb, List.all_eq_true.1 hf.2 b List.mem_cons_self] at hc
    cases hc
  | cons b s ih =>
    have hs := ih fun h => by
      have := hcolon h
      rw [List.all_cons, Bool.and_eq_true] at this
      exact this.2
    rw [List.flatMap_cons, List.append_assoc]
    rcases brief_cases b with ⟨hb, -⟩ | ⟨x, hb, -⟩ | ⟨hb, -, h34, -⟩
    · rw [hb]
      exact hs
    · rw [hb]
      refine misses_cons_of_ne (by decide) (misses_cons (fun h => ?_) hs)
      -- an escaped quote: what follows it up to the closing one would be the name
      obtain ⟨-, hrest⟩ := compat_cons.1 h
      have hcomma := (eq_of_compat (unescaped_of_name hf.2) hrest).2
      have h58 : c = 58 := (compat_cons.1 hcomma).1.symm
      have hall := hcolon h58
      rw [List.all_cons, Bool.and_eq_true] at hall
      have hplain := brief_of_unescaped (unescaped_of_name (s := [b]) (by simp [hall.1]) b
        List.mem_cons_self)
      rw [hplain] at hb
      cases hb
    · rw [hb]
      exact misses_cons_of_ne h34 hs

/-- No field begins in a string, unless it is that field's name. -/
theorem misses_quote (hf : Plain f) {s : Bytes} {c : UInt8} (hc : isName c = false) (hquote : c ≠ 34)
    (hcolon : c = 58 → s.all isName = true ∧ s ≠ f) :
    Misses (mark f ++ w) (quote s ++ [c]) := by
  have hinner := misses_inner (w := w) hf hc hquote fun h => (hcolon h).1
  have happend : quote s ++ [c] = 34 :: (s.flatMap brief ++ [34, c]) := by simp [quote]
  rw [happend]
  refine misses_cons (fun h => ?_) hinner
  rw [mark_append] at h
  obtain ⟨hs, hcomma⟩ := eq_of_compat (unescaped_of_name hf.2) (compat_cons.1 h).2
  have h58 : c = 58 := (compat_cons.1 hcomma).1.symm
  obtain ⟨hall, hne⟩ := hcolon h58
  rw [flatMap_brief_unescaped (unescaped_of_name hall)] at hs
  exact hne hs

theorem ends_byte {c : UInt8} (hc : Ends c) : isName c = false ∧ c ≠ 34 ∧ c ≠ 58 := by
  rcases hc with rfl | rfl | rfl <;> decide

theorem misses_scalar (hf : Plain f) (v : Scalar) {c : UInt8} (hc : Ends c) :
    Misses (mark f ++ w) (v.write ++ [c]) := by
  obtain ⟨hname, hquote, hcolon⟩ := ends_byte hc
  cases v with
  | str s => exact misses_quote hf hname hquote fun h => absurd h hcolon
  | num n =>
    rw [mark_append]
    refine misses_of_notMem fun hmem => ?_
    rcases List.mem_append.1 hmem with hmem | hmem
    · exact absurd (List.all_eq_true.1 (all_isDigit_decimal n) 34 hmem) (by decide)
    · exact hquote (List.mem_singleton.1 hmem).symm
  | bool b =>
    rw [mark_append]
    refine misses_of_notMem fun hmem => ?_
    rcases List.mem_append.1 hmem with hmem | hmem
    · cases b
      · exact absurd hmem (by decide)
      · exact absurd hmem (by decide)
    · exact hquote (List.mem_singleton.1 hmem).symm

theorem misses_named (hf : Plain f) {α : Type} {write : α → Bytes} {g : Bytes × α} {c : UInt8}
    (hname : g.1.all isName = true) (hne : g.1 ≠ f) (hwrite : Misses (mark f ++ w) (write g.2 ++ [c])) :
    Misses (mark f ++ w) (writeNamed write g ++ [c]) := by
  have hsplit : writeNamed write g ++ [c] = (quote g.1 ++ [58]) ++ (write g.2 ++ [c]) := by
    simp [writeNamed]
  rw [hsplit]
  exact misses_append
    (misses_quote hf (by decide) (by decide) fun _ => ⟨hname, hne⟩) hwrite

/-- The items before one, each with its comma. -/
def before {α : Type} (item : α → Bytes) (as : List α) : Bytes := as.flatMap fun a => item a ++ [44]

/-- What stands behind an item, from the byte that ends it. -/
def behind {α : Type} (item : α → Bytes) (close : UInt8) : List α → Bytes
  | [] => [close]
  | a :: as => 44 :: (item a ++ behind item close as)

theorem writeMany_split {α : Type} (item : α → Bytes) (opening close : UInt8) (as : List α) (a : α)
    (as' : List α) : writeMany item opening close (as ++ a :: as') =
      (opening :: before item as) ++ (item a ++ behind item close as') := by
  have hbehind : ∀ (a : α) (as' : List α),
      [44].intercalate ((a :: as').map item) ++ [close] = item a ++ behind item close as' := by
    intro a as'
    induction as' generalizing a with
    | nil => simp [behind]
    | cons b as' ih =>
      rw [List.map_cons, List.map_cons, List.intercalate_cons_cons, List.append_assoc,
        List.append_assoc, ← List.map_cons, ih b]
      rfl
  rw [writeMany, List.cons_append]
  refine congrArg (opening :: ·) ?_
  induction as with
  | nil => exact hbehind a as'
  | cons b as ih =>
    have hne : (as ++ a :: as').map item ≠ [] := by simp
    obtain ⟨x, xs, hx⟩ := List.exists_cons_of_ne_nil hne
    rw [List.cons_append, List.map_cons, hx, List.intercalate_cons_cons, ← hx, List.append_assoc,
      List.append_assoc, ih]
    simp [before]

theorem misses_before {α : Type} {item : α → Bytes} {as : List α} {n : Bytes}
    (h : ∀ a ∈ as, Misses n (item a ++ [44])) : Misses n (before item as) := by
  induction as with
  | nil => trivial
  | cons a as ih =>
    obtain ⟨ha, has⟩ := List.forall_mem_cons.1 h
    exact misses_append ha (ih has)

theorem behind_cons {α : Type} (item : α → Bytes) (close : UInt8) (as : List α) :
    ∃ c r, behind item close as = c :: r ∧ (c = 44 ∨ c = close) := by
  cases as with
  | nil => exact ⟨close, [], rfl, Or.inr rfl⟩
  | cons a as => exact ⟨44, _, rfl, Or.inl rfl⟩

theorem ends_of {c close : UInt8} (hclose : Ends close) (hc : c = 44 ∨ c = close) : Ends c :=
  hc.elim Or.inl fun h => h ▸ hclose

theorem misses_behind {α : Type} {item : α → Bytes} {close : UInt8} {as : List α} {n z : Bytes}
    (hclose : Ends close) (h : ∀ a ∈ as, ∀ c, Ends c → Misses (34 :: n) (item a ++ [c]))
    (hz : Misses (34 :: n) z) : Misses (34 :: n) (behind item close as ++ z) := by
  induction as with
  | nil => exact misses_cons_of_ne (ends_byte hclose).2.1 hz
  | cons a as ih =>
    obtain ⟨ha, has⟩ := List.forall_mem_cons.1 h
    obtain ⟨c, r, hr, hc⟩ := behind_cons item close as
    have hbehind := ih has
    rw [hr, List.cons_append] at hbehind
    show Misses (34 :: n) (44 :: ((item a ++ behind item close as) ++ z))
    rw [hr]
    have hsplit : (item a ++ c :: r) ++ z = (item a ++ [c]) ++ (r ++ z) := by simp
    rw [hsplit]
    exact misses_cons_of_ne (by decide) (misses_append (ha c (ends_of hclose hc)) hbehind.2)

theorem misses_many {α : Type} {item : α → Bytes} {opening close c : UInt8} {as : List α} {n : Bytes}
    (hopening : opening ≠ 34) (hclose : Ends close) (hc : Ends c)
    (h : ∀ a ∈ as, ∀ c, Ends c → Misses (34 :: n) (item a ++ [c])) :
    Misses (34 :: n) (writeMany item opening close as ++ [c]) := by
  have hend : Misses (34 :: n) [c] := misses_cons_of_ne (ends_byte hc).2.1 trivial
  cases as with
  | nil => exact misses_cons_of_ne hopening (misses_cons_of_ne (ends_byte hclose).2.1 hend)
  | cons a as =>
    obtain ⟨ha, has⟩ := List.forall_mem_cons.1 h
    obtain ⟨x, r, hr, hx⟩ := behind_cons item close as
    have hbehind := misses_behind (z := [c]) hclose has hend
    rw [hr, List.cons_append] at hbehind
    have hsplit := writeMany_split item opening close [] a as
    rw [List.nil_append, hr] at hsplit
    rw [hsplit]
    have hshape : (opening :: before item []) ++ (item a ++ x :: r) ++ [c] =
        opening :: ((item a ++ [x]) ++ (r ++ [c])) := by
      simp [before]
    rw [hshape]
    exact misses_cons_of_ne hopening (misses_append (ha x (ends_of hclose hx)) hbehind.2)

/-! ### Fields of an object -/

/-- The scalars that stand under a name, those of the objects inside included. -/
def leavesOf (g : Bytes × Value) : List (Bytes × Scalar) :=
  match g.2 with
  | .one v => [(g.1, v)]
  | .many _ => []
  | .fields fs => fs

def leaves (o : Object) : List (Bytes × Scalar) := o.flatMap leavesOf

/-- The names under a name, and it. -/
def namesOf (g : Bytes × Value) : List Bytes :=
  g.1 :: match g.2 with
    | .fields fs => fs.map Prod.fst
    | _ => []

/-- The names of an object, those of the objects inside included. -/
def names (o : Object) : List Bytes := o.flatMap namesOf

theorem mem_namesOf {g : Bytes × Value} {v : Scalar} (h : (f, v) ∈ leavesOf g) : f ∈ namesOf g := by
  rcases g with ⟨k, v' | vs | fs⟩
  · obtain ⟨rfl, -⟩ := Prod.mk.inj (List.mem_singleton.1 h)
    exact List.mem_cons_self
  · cases h
  · exact List.mem_cons_of_mem _ (List.mem_map.2 ⟨_, h, rfl⟩)

theorem misses_value (hf : Plain f) {g : Bytes × Value} (hplain : ∀ k ∈ namesOf g, Plain k)
    (hne : f ∉ namesOf g) {c : UInt8} (hc : Ends c) : Misses (mark f ++ w) (g.2.write ++ [c]) := by
  rcases g with ⟨k, v | vs | fs⟩
  · exact misses_scalar hf v hc
  · rw [mark_append]
    refine misses_many (by decide) (Or.inr (Or.inl rfl)) hc fun v _ c hc => ?_
    rw [← mark_append]
    exact misses_scalar hf v hc
  · rw [mark_append]
    refine misses_many (by decide) (Or.inr (Or.inr rfl)) hc fun g hg c hc => ?_
    have hmem : g.1 ∈ fs.map Prod.fst := List.mem_map.2 ⟨g, hg, rfl⟩
    rw [← mark_append]
    exact misses_named hf (hplain g.1 (List.mem_cons_of_mem _ hmem)).2
      (fun h => hne (List.mem_cons_of_mem _ (h ▸ hmem))) (misses_scalar hf g.2 hc)

theorem misses_field (hf : Plain f) {g : Bytes × Value} (hplain : ∀ k ∈ namesOf g, Plain k)
    (hne : f ∉ namesOf g) {c : UInt8} (hc : Ends c) :
    Misses (mark f ++ w) (writeNamed Value.write g ++ [c]) :=
  misses_named hf (hplain g.1 List.mem_cons_self).2
    (fun h => hne (h ▸ List.mem_cons_self)) (misses_value hf hplain hne hc)

/-- Where the field of a name stands: no field of that name begins before it or behind it. -/
structure Stands (f : Bytes) (v : Scalar) (t : Bytes) : Prop where
  split : ∃ a c r, t = a ++ (mark f ++ (v.write ++ c :: r)) ∧ (c = 44 ∨ c = 125) ∧
    ∀ w, Misses (mark f ++ w) a ∧ Misses (mark f ++ w) r

/-- A field among others. -/
theorem stands_many {α : Type} {write : α → Bytes} {fs fs' : List (Bytes × α)} {g : Bytes × α}
    {v : Scalar} {t z : Bytes}
    (hhead : ∀ w, Misses (mark f ++ w) t) (htail : ∀ w, Misses (mark f ++ w) z)
    (hother : ∀ g' ∈ fs ++ fs', ∀ c, Ends c → ∀ w, Misses (mark f ++ w) (writeNamed write g' ++ [c]))
    (hitem : ∀ c, c = 44 ∨ c = 125 → Stands f v (writeNamed write g ++ [c])) :
    Stands f v (t ++ (writeMany (writeNamed write) 123 125 (fs ++ g :: fs') ++ z)) := by
  obtain ⟨x, b, hb, hx⟩ := behind_cons (writeNamed write) 125 fs'
  obtain ⟨a, c, r, heq, hc, hmiss⟩ := (hitem x hx).split
  have hrest : ∀ w, Misses (mark f ++ w) (b ++ z) := by
    intro w
    have h : Misses (mark f ++ w) (behind (writeNamed write) 125 fs' ++ z) := by
      have hz := htail w
      rw [mark_append] at hz ⊢
      refine misses_behind (Or.inr (Or.inr rfl)) (fun g' hg' c hc => ?_) hz
      rw [← mark_append]
      exact hother g' (List.mem_append_right _ hg') c hc w
    rw [hb, List.cons_append] at h
    exact h.2
  refine ⟨⟨t ++ (123 :: before (writeNamed write) fs) ++ a, c, r ++ (b ++ z), ?_, hc, fun w => ?_⟩⟩
  · have hsplit : writeNamed write g ++ x :: b = (writeNamed write g ++ [x]) ++ b := by simp
    rw [writeMany_split, hb, hsplit, heq]
    simp [List.append_assoc]
  · refine ⟨misses_append (misses_append (hhead w) ?_) (hmiss w).1, misses_append (hmiss w).2 (hrest w)⟩
    rw [mark_append]
    refine misses_cons_of_ne (by decide) ?_
    rw [← mark_append]
    exact misses_before fun g' hg' => hother g' (List.mem_append_left _ hg') 44 (Or.inl rfl) w

theorem stands_one (hf : Plain f) (v : Scalar) {c : UInt8} (hc : c = 44 ∨ c = 125) :
    Stands f v (writeNamed Scalar.write (f, v) ++ [c]) := by
  refine ⟨⟨[], c, [], ?_, hc, fun w => ⟨trivial, trivial⟩⟩⟩
  rw [← quote_plain hf.2]
  simp [writeNamed]

theorem stands_leaf {o : Object} (hplain : ∀ k ∈ names o, Plain k) (hnodup : (names o).Nodup)
    {v : Scalar} (hmem : (f, v) ∈ leaves o) : Stands f v (writeObject o) := by
  obtain ⟨g, hg, hleaf⟩ := List.mem_flatMap.1 hmem
  obtain ⟨o₁, o₂, rfl⟩ := List.append_of_mem hg
  have hnames : names (o₁ ++ g :: o₂) = names o₁ ++ (namesOf g ++ names o₂) := by simp [names]
  rw [hnames, List.nodup_append] at hnodup
  obtain ⟨-, hnodup, hdisj₁⟩ := hnodup
  obtain ⟨hg', -, hdisj₂⟩ := List.nodup_append.1 hnodup
  have hof : f ∈ namesOf g := mem_namesOf hleaf
  have hf : Plain f := hplain f (List.mem_flatMap.2 ⟨g, hg, hof⟩)
  have hother : ∀ g' ∈ o₁ ++ o₂, ∀ c, Ends c → ∀ w,
      Misses (mark f ++ w) (writeNamed Value.write g' ++ [c]) := by
    intro g' hmem' c hc w
    refine misses_field hf (fun k hk => hplain k (List.mem_flatMap.2 ⟨g', ?_, hk⟩)) ?_ hc
    · rcases List.mem_append.1 hmem' with h | h
      · exact List.mem_append_left _ h
      · exact List.mem_append_right _ (List.mem_cons_of_mem _ h)
    · intro hfn
      rcases List.mem_append.1 hmem' with h | h
      · exact hdisj₁ f (List.mem_flatMap.2 ⟨g', h, hfn⟩) f (List.mem_append_left _ hof) rfl
      · exact hdisj₂ f hof f (List.mem_flatMap.2 ⟨g', h, hfn⟩) rfl
  have hitem : ∀ c, c = 44 ∨ c = 125 → Stands f v (writeNamed Value.write g ++ [c]) := by
    intro c hc
    rcases g with ⟨k, v' | vs | fs⟩
    · obtain ⟨rfl, rfl⟩ := Prod.mk.inj (List.mem_singleton.1 hleaf)
      exact stands_one hf v hc
    · cases hleaf
    · obtain ⟨fs₁, fs₂, rfl⟩ := List.append_of_mem (show (f, v) ∈ fs from hleaf)
      have hkne : k ≠ f := by
        rintro rfl
        exact (List.nodup_cons.1 hg').1 (List.mem_map.2 ⟨_, hleaf, rfl⟩)
      have hinner := (List.nodup_cons.1 hg').2
      simp only [List.map_append, List.map_cons] at hinner
      have hplaing : ∀ k' ∈ namesOf (k, Value.fields (fs₁ ++ (f, v) :: fs₂)), Plain k' :=
        fun k' hk' => hplain k' (List.mem_flatMap.2 ⟨_, hg, hk'⟩)
      have hsplit : writeNamed Value.write (k, .fields (fs₁ ++ (f, v) :: fs₂)) ++ [c] =
          (quote k ++ [58]) ++ (writeMany (writeNamed Scalar.write) 123 125 (fs₁ ++ (f, v) :: fs₂) ++
            [c]) := by
        simp [writeNamed, Value.write]
      rw [hsplit]
      refine stands_many (fun w => misses_quote hf (by decide) (by decide)
        fun _ => ⟨(hplaing k List.mem_cons_self).2, hkne⟩) (fun w => ?_) (fun g' hmem' c hc w => ?_)
        fun c hc => stands_one hf v hc
      · rw [mark_append]
        exact misses_cons_of_ne (ends_byte (hc.imp_right Or.inr)).2.1 trivial
      · have hin : g'.1 ∈ (fs₁ ++ (f, v) :: fs₂).map Prod.fst := by
          refine List.mem_map.2 ⟨g', ?_, rfl⟩
          rcases List.mem_append.1 hmem' with h | h
          · exact List.mem_append_left _ h
          · exact List.mem_append_right _ (List.mem_cons_of_mem _ h)
        refine misses_named hf (hplaing g'.1 (List.mem_cons_of_mem _ hin)).2 (fun h => ?_)
          (misses_scalar hf g'.2 hc)
        rw [List.nodup_append] at hinner
        obtain ⟨-, hfs₂, hdisj⟩ := hinner
        rcases List.mem_append.1 hmem' with hm | hm
        · exact hdisj g'.1 (List.mem_map.2 ⟨g', hm, rfl⟩) f List.mem_cons_self h
        · exact (List.nodup_cons.1 hfs₂).1 (List.mem_map.2 ⟨g', hm, h⟩)
  have h : Stands f v ([] ++ (writeObject (o₁ ++ g :: o₂) ++ [])) :=
    stands_many (fun w => trivial) (fun w => trivial) hother hitem
  rwa [List.nil_append, List.append_nil] at h

/-! ### What a search finds -/

/-- What follows the first copy of a text. -/
def after (needle t : Bytes) : Option Bytes :=
  (findSub needle t).map fun i => t.drop (i + needle.length)

/-- **The first copy of a name before its value** is the field's. -/
theorem after_name {o : Object} (hplain : ∀ k ∈ names o, Plain k) (hnodup : (names o).Nodup)
    {v : Scalar} (hmem : (f, v) ∈ leaves o) :
    ∃ c r, after (mark f) (writeObject o) = some (v.write ++ c :: r) ∧
      (c = 44 ∨ c = 125) := by
  obtain ⟨a, c, r, heq, hc, hmiss⟩ := (stands_leaf hplain hnodup hmem).split
  have ha := (hmiss []).1
  rw [List.append_nil] at ha
  refine ⟨c, r, ?_, hc⟩
  rw [after, heq, findSub_of_misses ha, findSub_append, ← List.append_assoc]
  have hlen : 0 + a.length + (mark f).length = (a ++ mark f).length := by
    rw [List.length_append, Nat.zero_add]
  simp only [Option.map_some, hlen, List.drop_left]

/-- **A name with a string** is found exactly where the field of that name has it. -/
theorem findSub_named {o : Object} (hplain : ∀ k ∈ names o, Plain k) (hnodup : (names o).Nodup)
    {s q : Bytes} (hq : Unescaped q) (hmem : (f, .str s) ∈ leaves o) :
    (findSub (mark f ++ 34 :: (q ++ [34])) (writeObject o)).isSome = true ↔ kept s = q := by
  obtain ⟨a, c, r, heq, hc, hmiss⟩ := (stands_leaf hplain hnodup hmem).split
  have hf : Plain f := by
    obtain ⟨g, hg, hleaf⟩ := List.mem_flatMap.1 hmem
    exact hplain f (List.mem_flatMap.2 ⟨g, hg, mem_namesOf hleaf⟩)
  rw [heq, findSub_of_misses (hmiss _).1, Option.isSome_map, ← flatMap_brief_eq_iff hq]
  have hshape : mark f ++ ((Scalar.str s).write ++ c :: r) =
      mark f ++ 34 :: (s.flatMap brief ++ 34 :: c :: r) := by
    simp [Scalar.write, quote]
  rw [hshape]
  constructor
  · intro hsome
    by_contra hne
    have hmisses : Misses (mark f ++ 34 :: (q ++ [34]))
        (mark f ++ 34 :: (s.flatMap brief ++ 34 :: c :: r)) := by
      have hname : mark f ++ 34 :: (s.flatMap brief ++ 34 :: c :: r) =
          34 :: (f.flatMap brief ++ [34, 58]) ++ ((quote s ++ [c]) ++ r) := by
        rw [flatMap_brief_unescaped (unescaped_of_name hf.2)]
        simp [mark, quote]
      have hvalue := misses_scalar (w := 34 :: (q ++ [34])) hf (.str s) (hc.imp_right Or.inr)
      have hrest := misses_append
        (misses_inner (w := 34 :: (q ++ [34])) hf (s := f) (c := 58) (by decide) (by decide)
          fun _ => hf.2) (misses_append hvalue (hmiss _).2)
      rw [hname, List.cons_append]
      refine misses_cons (fun h => ?_) hrest
      rw [mark_append, flatMap_brief_unescaped (unescaped_of_name hf.2)] at h
      obtain ⟨-, h⟩ := compat_cons.1 h
      have hafter : Compat (34 :: 58 :: 34 :: (q ++ [34]))
          (34 :: 58 :: 34 :: (s.flatMap brief ++ 34 :: c :: r)) := by
        have hcut : f ++ [34, 58] ++ (quote s ++ [c] ++ r) =
            f ++ 34 :: 58 :: 34 :: (s.flatMap brief ++ 34 :: c :: r) := by
          simp [quote]
        rw [hcut] at h
        unfold Compat at h ⊢
        rwa [List.prefix_append_right_inj, List.prefix_append_right_inj] at h
      obtain ⟨-, h1⟩ := compat_cons.1 hafter
      obtain ⟨-, h2⟩ := compat_cons.1 h1
      obtain ⟨-, h3⟩ := compat_cons.1 h2
      exact hne (eq_of_compat hq h3).1
    have hnone := findSub_of_misses hmisses []
    rw [List.append_nil] at hnone
    rw [hnone] at hsome
    simp [findSub, mark] at hsome
  · intro h
    have hpre : mark f ++ 34 :: (s.flatMap brief ++ 34 :: c :: r) =
        (mark f ++ 34 :: (q ++ [34])) ++ c :: r := by
      rw [h]
      simp
    rw [hpre, findSub_append]
    rfl

end Search

end Json

end Aurade
