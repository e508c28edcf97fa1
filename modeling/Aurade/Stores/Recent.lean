import Aurade.Foundations.Replace
import Aurade.Stores.Pins

/-!
# Noting a recent file

`split_bookmarks` cuts the entries out of the text of `recently-used.xbel` by looking for marks, and
`add_recent` writes the pieces again with one more. Where an entry ends is decided by the first `>` of
its tag (`Block.Sealed`); an entry that closes itself and has a `>` in its tag is cut right only as
long as no close tag follows, and behind it `add_recent` writes one (`addRecent_notes_iff`).
-/

namespace Aurade.Stores

open Fs

/-! ## Looking for a mark -/

section

variable {needle a : Bytes} {i : ℕ}

/-- What is found is there. -/
theorem eq_of_findSub (h : findSub needle a = some i) : ∃ z, a = a.take i ++ (needle ++ z) := by
  induction a generalizing i with
  | nil =>
    rw [findSub] at h
    split at h
    · next hnil => exact ⟨[], by simp [hnil]⟩
    · cases h
  | cons x a ih =>
    rw [findSub] at h
    split at h
    · next hp =>
      obtain rfl := Option.some.inj h
      obtain ⟨z, hz⟩ := hp
      exact ⟨z, by rw [hz]; rfl⟩
    · obtain ⟨j, hj, rfl⟩ := Option.map_eq_some_iff.1 h
      obtain ⟨z, hz⟩ := ih hj
      refine ⟨z, ?_⟩
      rw [List.take_succ_cons, List.cons_append, ← hz]

/-- It is found no later than where it is. -/
theorem findSub_le (needle s z : Bytes) : ∃ j ≤ s.length, findSub needle (s ++ (needle ++ z)) = some j := by
  induction s with
  | nil => exact ⟨0, le_rfl, findSub_append needle z⟩
  | cons x s ih =>
    obtain ⟨j, hj, hfound⟩ := ih
    rw [List.cons_append, findSub]
    split
    · exact ⟨0, Nat.zero_le _, rfl⟩
    · exact ⟨j + 1, Nat.succ_le_succ hj, by rw [hfound]; rfl⟩

end

theorem takeWhile_append_of_mem {c : UInt8} {a : Bytes} (h : c ∈ a) (z : Bytes) :
    (a ++ z).takeWhile (· ≠ c) = a.takeWhile (· ≠ c) := by
  rw [List.takeWhile_append, if_neg]
  intro hall
  have hself := (List.takeWhile_prefix (fun x : UInt8 => decide (x ≠ c))).eq_of_length hall
  rw [← hself] at h
  simpa using List.mem_takeWhile_imp h

theorem exists_takeWhile {c : UInt8} {a : Bytes} (h : c ∈ a) :
    ∃ z, a = a.takeWhile (· ≠ c) ++ c :: z := by
  obtain ⟨u, z, rfl, hu⟩ := List.eq_append_cons_of_mem h
  have hplain : ∀ x ∈ u, decide (x ≠ c) = true := fun x hx => decide_eq_true fun heq => hu (heq ▸ hx)
  refine ⟨z, ?_⟩
  rw [List.takeWhile_append_of_pos hplain, List.takeWhile_cons_of_neg (by simp), List.append_nil]

/-- The mark at the end of a tag that closes itself. -/
abbrev shortMark : Bytes := text "/>"

/-- Where the self closing tag that an entry begins with ends, if it begins with one. -/
def innerMark (after : Bytes) (end_ : ℕ) : Option ℕ :=
  (findSub shortMark (after.take end_)).filter fun i => 62 ∉ after.take i

/-- Where an entry ends. -/
def endOf (after : Bytes) : Option ℕ :=
  (((findSub recentClose after).map (· + 11)).or ((findSub shortMark after).map (· + 2))).map fun end_ =>
    ((innerMark after end_).map (· + 2)).getD end_

/-- What begins a bookmark. -/
abbrev openMark : Bytes := text "<bookmark"

theorem nextBookmark_eq {gap : Bytes} (hgap : ¬openMark <:+: gap) (more : Bytes) :
    nextBookmark (gap ++ (openMark ++ more)) =
      (endOf (openMark ++ more)).map fun e => ((openMark ++ more).take e, (openMark ++ more).drop e) := by
  have hstart : findSub openMark (gap ++ (openMark ++ more)) = some gap.length :=
    @findSub_eq_none_of_not_infixed 60 (text "bookmark") gap (by decide) hgap more
  rw [nextBookmark, hstart, Option.bind_some, List.drop_left, endOf, Option.map_map]
  rfl

theorem nextBookmark_none {gap : Bytes} (hgap : ¬openMark <:+: gap) : nextBookmark gap = none := by
  have hnone : findSub openMark gap = none := by
    rw [← Option.not_isSome_iff_eq_none, isSome_findSub_iff]
    exact hgap
  rw [nextBookmark, hnone]
  rfl

section

variable {after u z : Bytes} {end_ i : ℕ}

/-- The mark stands at the first bracket. -/
theorem takeWhile_of_innerMark (h : innerMark after end_ = some i) :
    after.takeWhile (· ≠ 62) = after.take i ++ [47] ∧ i + 2 ≤ min end_ after.length := by
  obtain ⟨hfound, hplain⟩ := Option.filter_eq_some_iff.1 h
  obtain ⟨z, hz⟩ := eq_of_findSub hfound
  have hlen := congrArg List.length hz
  have htwo : (shortMark ++ z).length = z.length + 2 := by
    rw [List.length_append, Nat.add_comm]
    rfl
  rw [@List.length_append _ _ (shortMark ++ z), htwo] at hlen
  simp only [List.length_take] at hlen
  have hi : i + 2 ≤ min end_ after.length := by omega
  have htake : (after.take end_).take i = after.take i := by
    rw [List.take_take, Nat.min_eq_left (by omega)]
  rw [htake] at hz
  have hafter : after = after.take i ++ 47 :: 62 :: (z ++ after.drop end_) := by
    conv_lhs => rw [← List.take_append_drop end_ after, hz]
    rw [List.append_assoc]
    rfl
  refine ⟨?_, hi⟩
  have hall : ∀ b ∈ after.take i ++ [47], decide (b ≠ 62) = true := by
    intro b hb
    apply decide_eq_true
    rintro rfl
    rcases List.mem_append.1 hb with hb | hb
    · exact of_decide_eq_true hplain hb
    · revert hb
      decide
  conv_lhs => rw [hafter, List.append_cons, List.takeWhile_append_of_pos hall]
  rw [List.takeWhile_cons_of_neg (by simp), List.append_nil]

/-- And where the first bracket makes the mark, it is found. -/
theorem innerMark_eq (hu : 62 ∉ u) (hend : u.length + 2 ≤ end_) :
    innerMark (u ++ 47 :: 62 :: z) end_ = some u.length := by
  obtain ⟨k, hk⟩ := Nat.exists_eq_add_of_le hend
  have htake : (u ++ 47 :: 62 :: z).take end_ = u ++ ([47, 62] ++ z.take k) := by
    rw [hk, List.take_append, List.take_of_length_le (by omega),
      show u.length + 2 + k - u.length = k + 2 by omega]
    rfl
  have hnot : ¬([47, 62] : Bytes) <:+: u := fun h => hu (h.subset (by decide))
  have hfound : findSub shortMark ((u ++ 47 :: 62 :: z).take end_) = some u.length := by
    rw [htake]
    exact @findSub_eq_none_of_not_infixed 47 [62] u (by decide) hnot _
  rw [innerMark, hfound, Option.filter_some, List.take_left, if_pos (by simpa using hu)]

end

/-! ## Entries -/

/-- A bookmark: what stands in its tag, and the text between its tags if it does not close itself. -/
structure Block where
  tag : Bytes
  inner : Option Bytes

namespace Block

variable (b : Block)

/-- The entry up to the end of what stands in its tag. -/
def front : Bytes := openMark ++ b.tag

/-- The rest of the entry. -/
def back : Bytes := b.inner.elim shortMark fun inner => 62 :: (inner ++ recentClose)

def text : Bytes := b.front ++ b.back

/-- A tag opens no other, and what stands between the tags does not close the entry. -/
structure WellFormed : Prop where
  tag : 60 ∉ b.tag
  inner : ∀ inner ∈ b.inner, ¬recentClose <:+: inner

/-- The first `>` of the entry tells how its tag ends. -/
def Sealed : Prop :=
  match b.inner with
  | none => 62 ∉ b.front
  | some _ => (b.front.takeWhile (· ≠ 62)).getLast? ≠ some 47

instance : Decidable b.Sealed := by
  unfold Sealed
  split <;> infer_instance

/-- An entry that is cut right where no close tag follows: the first `/>` of it closes it. -/
def Ends : Prop := b.inner = none ∧ ¬shortMark <:+: b.front

instance : Decidable b.Ends := inferInstanceAs (Decidable (_ ∧ _))

/-- What an entry must be to be cut right before more text. -/
def CutBefore (rest : Bytes) : Prop := b.Sealed ∨ (b.Ends ∧ ¬recentClose <:+: rest)

theorem text_eq : b.text = openMark ++ (b.tag ++ b.back) := by
  rw [text, front, List.append_assoc]

variable {b} {rest : Bytes}

variable (b) in
theorem text_pos : 0 < b.text.length := by
  rw [text_eq, List.length_append]
  exact Nat.lt_of_lt_of_le (by decide) (Nat.le_add_right openMark.length _)

theorem misses_front (h : 60 ∉ b.tag) : Misses recentClose b.front := by
  apply misses_append
  · decide
  · exact misses_of_notMem h

/-- An entry without a close tag does not begin one either. -/
theorem WellFormed.misses_text (h : b.WellFormed) (hclose : ¬recentClose <:+: b.text) :
    Misses recentClose b.text := by
  rw [text, back] at hclose ⊢
  cases hinner : b.inner with
  | none => exact misses_append (misses_front h.tag) (by decide)
  | some inner =>
    rw [hinner] at hclose
    refine absurd ?_ hclose
    exact ⟨b.front ++ 62 :: inner, [], by simp⟩

/-- An entry with text between its tags is cut right where its tag ends with its first bracket. -/
theorem endOf_closed (hwf : b.WellFormed) {inner : Bytes} (hinner : b.inner = some inner) :
    ∃ e, endOf (b.text ++ rest) = some e ∧
      (b.Sealed → e = b.text.length) ∧ (¬b.Sealed → e < b.text.length) := by
  have heleven : recentClose.length = 11 := by decide
  have htext : b.text = b.front ++ 62 :: (inner ++ recentClose) := by
    rw [text, back, hinner]
    rfl
  have hlen : b.text.length = b.front.length + inner.length + 12 := by
    rw [htext]
    simp only [List.length_append, List.length_cons, heleven]
    omega
  have hafter : b.text ++ rest = b.front ++ 62 :: (inner ++ (recentClose ++ rest)) := by
    rw [htext]
    simp only [List.append_assoc, List.cons_append]
  have hclose : findSub recentClose (b.text ++ rest) = some (b.front.length + inner.length + 1) := by
    have hin : findSub recentClose (inner ++ (recentClose ++ rest)) = some inner.length :=
      @findSub_eq_none_of_not_infixed 60 (Aurade.text "/bookmark>") inner (by decide)
        (hwf.inner inner hinner) rest
    have hskip : Misses recentClose (b.front ++ [62]) :=
      misses_append (misses_front hwf.tag) (by decide)
    rw [hafter, List.append_cons, findSub_of_misses hskip, hin, Option.map_some,
      List.length_append, List.length_singleton]
    congr 1
    omega
  have hend : endOf (b.text ++ rest) =
      some (((innerMark (b.text ++ rest) b.text.length).map (· + 2)).getD b.text.length) := by
    rw [endOf, hclose, Option.map_some, Option.some_or, Option.map_some, hlen]
  have hfirst : (b.text ++ rest).takeWhile (· ≠ 62) = b.front.takeWhile (· ≠ 62) := by
    rw [hafter]
    by_cases hmem : 62 ∈ b.front
    · exact takeWhile_append_of_mem hmem _
    · have hplain : ∀ x ∈ b.front, decide (x ≠ 62) = true := fun x hx =>
        decide_eq_true fun heq => hmem (heq ▸ hx)
      rw [List.takeWhile_append_of_pos hplain, List.takeWhile_cons_of_neg (by simp),
        List.append_nil, List.takeWhile_eq_self_iff.2 hplain]
  refine ⟨_, hend, fun hsealed => ?_, fun hopen => ?_⟩
  · -- the first bracket makes no mark
    have hnone : innerMark (b.text ++ rest) b.text.length = none := by
      rw [Option.eq_none_iff_forall_ne_some]
      intro i hi
      rw [Sealed, hinner] at hsealed
      apply hsealed
      rw [← hfirst, (takeWhile_of_innerMark hi).1, List.getLast?_concat]
    rw [hnone]
    rfl
  · rw [Sealed, hinner] at hopen
    obtain ⟨u, hu⟩ := List.getLast?_eq_some_iff.1 (not_not.1 hopen)
    have hplain : 62 ∉ u := by
      intro hmem
      have hin : (62 : UInt8) ∈ b.front.takeWhile (· ≠ 62) := by
        rw [hu]
        exact List.mem_append_left _ hmem
      simpa using List.mem_takeWhile_imp hin
    have hle : u.length + 1 ≤ b.front.length := by
      have hpre := (List.takeWhile_prefix (fun x : UInt8 => decide (x ≠ 62)) (l := b.front)).length_le
      rw [hu, List.length_append] at hpre
      exact hpre
    obtain ⟨z, hz⟩ : ∃ z, b.text ++ rest = u ++ 47 :: 62 :: z := by
      have hin : (62 : UInt8) ∈ b.text ++ rest := by
        rw [hafter]
        simp
      obtain ⟨z, hz⟩ := exists_takeWhile hin
      rw [hfirst, hu, List.append_assoc] at hz
      exact ⟨z, hz⟩
    rw [hz, innerMark_eq hplain (by omega), Option.map_some, Option.getD_some]
    omega

/-- A mark that begins an entry comes before its own where a bracket is in its tag. -/
theorem innerMark_front {front z : Bytes} {e i : ℕ} (hmem : 62 ∈ front)
    (hi : innerMark (front ++ z) e = some i) : i + 2 ≤ front.length ∧ shortMark <:+: front := by
  obtain ⟨hfirst, hle⟩ := takeWhile_of_innerMark hi
  obtain ⟨w, hw⟩ := exists_takeWhile hmem
  rw [takeWhile_append_of_mem hmem] at hfirst
  rw [hfirst, List.append_assoc] at hw
  constructor
  · have hcount := congrArg List.length hw
    simp only [List.length_append, List.length_take, List.length_cons, List.length_nil] at hcount hle
    omega
  · rw [hw]
    exact ⟨_, w, by rw [List.append_assoc]; rfl⟩

/-- An entry that closes itself is cut right without another bracket, or where no close tag follows
and its own mark is the first. -/
theorem endOf_short (htag : 60 ∉ b.tag) (hinner : b.inner = none) :
    ∃ e, endOf (b.text ++ rest) = some e ∧ (b.CutBefore rest → e = b.text.length) ∧
      (¬b.CutBefore rest → e ≠ b.text.length ∧ e ≤ (b.text ++ rest).length) := by
  have heleven : recentClose.length = 11 := by decide
  have htext : b.text = b.front ++ [47, 62] := by
    rw [text, back, hinner]
    rfl
  have hlen : b.text.length = b.front.length + 2 := by rw [htext, List.length_append]; rfl
  have hafter : b.text ++ rest = b.front ++ 47 :: 62 :: rest := by
    rw [htext, List.append_assoc]
    rfl
  have hskip : Misses recentClose b.text := by
    rw [htext]
    exact misses_append (misses_front htag) (by decide)
  have hclose : findSub recentClose (b.text ++ rest) =
      (findSub recentClose rest).map (· + b.text.length) := findSub_of_misses hskip rest
  have hsealed : b.Sealed ↔ 62 ∉ b.front := by rw [Sealed, hinner]
  have hbefore : ∀ {e i}, 62 ∈ b.front → innerMark (b.text ++ rest) e = some i →
      i + 2 ≤ b.front.length ∧ shortMark <:+: b.front := by
    intro e i hmem hi
    rw [hafter] at hi
    exact innerMark_front hmem hi
  have hend : ∀ e, ((findSub recentClose (b.text ++ rest)).map (· + 11)).or
      ((findSub shortMark (b.text ++ rest)).map (· + 2)) = some e → endOf (b.text ++ rest) =
        some (((innerMark (b.text ++ rest) e).map (· + 2)).getD e) := by
    intro e he
    rw [endOf, he, Option.map_some]
  by_cases hmem : 62 ∈ b.front
  · have hopen : ¬b.Sealed := fun h => hsealed.1 h hmem
    have hcut : b.CutBefore rest ↔ ¬shortMark <:+: b.front ∧ ¬recentClose <:+: rest := by
      rw [CutBefore, or_iff_right hopen, Ends, and_iff_right hinner]
    cases hrest : findSub recentClose rest with
    | some p =>
      -- the entry is not closed before the next close tag
      have hin : recentClose <:+: rest := isSome_findSub_iff.1 (by rw [hrest]; rfl)
      have hle : p + 11 ≤ rest.length := by
        obtain ⟨z, hz⟩ := eq_of_findSub hrest
        have hcount := congrArg List.length hz
        simp only [List.length_append, List.length_take, heleven] at hcount
        omega
      rw [hrest, Option.map_some] at hclose
      refine ⟨_, hend (p + b.text.length + 11) (by rw [hclose]; rfl), fun h => absurd hin (hcut.1 h).2,
        fun _ => ?_⟩
      rw [List.length_append]
      cases hmark : innerMark (b.text ++ rest) (p + b.text.length + 11) with
      | none =>
        rw [Option.map_none, Option.getD_none]
        omega
      | some i =>
        have hi := (hbefore hmem hmark).1
        rw [Option.map_some, Option.getD_some]
        omega
    | none =>
      have hout : ¬recentClose <:+: rest := by
        rw [← isSome_findSub_iff, hrest]
        exact Bool.false_ne_true
      rw [hrest, Option.map_none] at hclose
      by_cases hin : shortMark <:+: b.front
      · obtain ⟨s, t, hst⟩ := hin
        obtain ⟨j, hj, hfound⟩ := findSub_le shortMark s (t ++ 47 :: 62 :: rest)
        have hwhole : b.text ++ rest = s ++ (shortMark ++ (t ++ 47 :: 62 :: rest)) := by
          rw [hafter, ← hst, List.append_assoc, List.append_assoc]
        have hcount := congrArg List.length hst
        rw [List.length_append, List.length_append, show shortMark.length = 2 from rfl] at hcount
        refine ⟨_, hend (j + 2) (by rw [hclose, hwhole, hfound]; rfl),
          fun h => absurd ⟨s, t, hst⟩ (hcut.1 h).1, fun _ => ?_⟩
        rw [List.length_append]
        cases hmark : innerMark (b.text ++ rest) (j + 2) with
        | none =>
          rw [Option.map_none, Option.getD_none]
          omega
        | some i =>
          have hi := (hbefore hmem hmark).1
          rw [Option.map_some, Option.getD_some]
          omega
      · have hfound : findSub shortMark (b.text ++ rest) = some b.front.length := by
          rw [hafter]
          exact @findSub_eq_none_of_not_infixed 47 [62] b.front (by decide) hin rest
        have hnone : innerMark (b.text ++ rest) (b.front.length + 2) = none := by
          rw [Option.eq_none_iff_forall_ne_some]
          exact fun i hi => hin (hbefore hmem hi).2
        refine ⟨_, hend (b.front.length + 2) (by rw [hclose, hfound]; rfl), fun _ => ?_,
          fun h => absurd (hcut.2 ⟨hin, hout⟩) h⟩
        rw [hnone, hlen]
        rfl
  · -- its own mark is the first, whatever follows
    have hcut : b.CutBefore rest := Or.inl (hsealed.2 hmem)
    have hmark : ∀ e, b.front.length + 2 ≤ e → innerMark (b.text ++ rest) e = some b.front.length := by
      intro e he
      rw [hafter]
      exact innerMark_eq hmem he
    have hany : ∀ e, b.front.length + 2 ≤ e → (((findSub recentClose (b.text ++ rest)).map (· + 11)).or
        ((findSub shortMark (b.text ++ rest)).map (· + 2)) = some e) →
        ∃ e, endOf (b.text ++ rest) = some e ∧ (b.CutBefore rest → e = b.text.length) ∧
          (¬b.CutBefore rest → e ≠ b.text.length ∧ e ≤ (b.text ++ rest).length) := by
      intro e he hfound
      refine ⟨_, hend e hfound, fun _ => ?_, fun h => absurd hcut h⟩
      rw [hmark e he, hlen]
      rfl
    cases hrest : findSub recentClose rest with
    | some p =>
      refine hany (p + b.text.length + 11) (by omega) ?_
      rw [hclose, hrest]
      rfl
    | none =>
      have hfound : findSub shortMark (b.text ++ rest) = some b.front.length := by
        rw [hafter]
        exact @findSub_eq_none_of_not_infixed 47 [62] b.front (by decide) (fun h => hmem (h.subset (by decide))) rest
      refine hany (b.front.length + 2) le_rfl ?_
      rw [hclose, hrest, hfound]
      rfl

/-- **Where an entry is cut right**, and that it is cut there or elsewhere. -/
theorem nextBookmark_text (hwf : b.WellFormed) {gap : Bytes} (hgap : ¬openMark <:+: gap) :
    ∃ x y, nextBookmark (gap ++ (b.text ++ rest)) = some (x, y) ∧
      (b.CutBefore rest → x = b.text ∧ y = rest) ∧ (¬b.CutBefore rest → x ≠ b.text) := by
  obtain ⟨e, he, hcut, hnot⟩ : ∃ e, endOf (b.text ++ rest) = some e ∧
      (b.CutBefore rest → e = b.text.length) ∧
      (¬b.CutBefore rest → e ≠ b.text.length ∧ e ≤ (b.text ++ rest).length) := by
    cases hinner : b.inner with
    | none => exact endOf_short hwf.tag hinner
    | some inner =>
      obtain ⟨e, he, hsealed, hopen⟩ := @endOf_closed b rest hwf inner hinner
      have hiff : b.CutBefore rest ↔ b.Sealed := by
        rw [CutBefore, or_iff_left]
        intro h
        have hnone : b.inner = none := h.1.1
        rw [hinner] at hnone
        cases hnone
      refine ⟨e, he, fun h => hsealed (hiff.1 h), fun h => ?_⟩
      have hlt := hopen fun hs => h (hiff.2 hs)
      rw [List.length_append]
      omega
  have hnext := nextBookmark_eq hgap (b.tag ++ b.back ++ rest)
  have htext : openMark ++ (b.tag ++ b.back ++ rest) = b.text ++ rest := by
    rw [b.text_eq, List.append_assoc, List.append_assoc, List.append_assoc]
  rw [htext, he, Option.map_some] at hnext
  refine ⟨_, _, hnext, fun h => ?_, fun h htake => ?_⟩
  · rw [hcut h, List.take_left, List.drop_left]
    exact ⟨rfl, rfl⟩
  · have hlen := congrArg List.length htake
    rw [List.length_take, Nat.min_eq_left (hnot h).2] at hlen
    exact (hnot h).1 hlen

end Block

/-! ## Sequences of entries -/

/-- Entries, each with what follows it. -/
def sequence : List (Block × Bytes) → Bytes
  | [] => []
  | (b, gap) :: more => b.text ++ (gap ++ sequence more)

/-- Each entry is cut right where it stands. -/
def CutInPlace : List (Block × Bytes) → Prop
  | [] => True
  | (b, gap) :: more => b.CutBefore (gap ++ sequence more) ∧ CutInPlace more

/-- A sequence of bookmark elements, with no bookmark begun between them. -/
def IsSequence (bs : List (Block × Bytes)) : Prop :=
  ∀ q ∈ bs, q.1.WellFormed ∧ ¬openMark <:+: q.2

theorem splitFrom_nil {gap : Bytes} (hgap : ¬openMark <:+: gap) (n : ℕ) : splitFrom n gap = [] := by
  cases n with
  | zero => rfl
  | succ n =>
    rw [splitFrom, nextBookmark_none hgap]
    rfl

/-- **A list is split into its entries** exactly where each is cut right. -/
theorem splitFrom_sequence {gap : Bytes} (hgap : ¬openMark <:+: gap) {bs : List (Block × Bytes)}
    (hwf : IsSequence bs) {n : ℕ} (hn : (gap ++ sequence bs).length ≤ n) :
    splitFrom n (gap ++ sequence bs) = bs.map (fun q => q.1.text) ↔ CutInPlace bs := by
  induction bs generalizing gap n with
  | nil =>
    rw [sequence, List.append_nil, splitFrom_nil hgap]
    exact iff_of_true rfl trivial
  | cons q more ih =>
    obtain ⟨b, gap'⟩ := q
    obtain ⟨⟨hb, hgap'⟩, hmore⟩ := List.forall_mem_cons.1 hwf
    obtain ⟨x, y, hnext, hcut, hnot⟩ := @Block.nextBookmark_text b (gap' ++ sequence more) hb gap hgap
    rw [sequence] at hn ⊢
    have hpos : 0 < b.text.length := b.text_pos
    simp only [List.length_append] at hn
    obtain ⟨m, rfl⟩ := Nat.exists_eq_add_of_le' (show 1 ≤ n by omega)
    rw [splitFrom, hnext, Option.elim_some, List.map_cons, List.cons.injEq, CutInPlace]
    by_cases h : b.CutBefore (gap' ++ sequence more)
    · obtain ⟨rfl, rfl⟩ := hcut h
      rw [and_iff_right rfl, and_iff_right h]
      apply ih hgap' hmore
      simp only [List.length_append]
      omega
    · exact iff_of_false (fun hsplit => hnot h hsplit.1) fun hplace => h hplace.1

theorem text_infix_sequence {bs : List (Block × Bytes)} {b : Block} (h : b ∈ bs.map Prod.fst) :
    b.text <:+: sequence bs := by
  induction bs with
  | nil => cases h
  | cons q more ih =>
    rcases List.mem_cons.1 h with rfl | h
    · exact (List.prefix_append _ _).isInfix
    · have hrest := (List.suffix_append q.2 (sequence more)).isInfix
      exact (ih h).trans (hrest.trans (List.suffix_append q.1.text _).isInfix)

/-- In a list that is cut right, an entry that is not sealed ends with its own mark, and no entry
behind it has a close tag. -/
theorem open_of_cutInPlace {bs : List (Block × Bytes)} (h : CutInPlace bs) :
    (∀ b ∈ bs.map Prod.fst, ¬b.Sealed → b.Ends) ∧
      (bs.map Prod.fst).Pairwise fun b b' => ¬b.Sealed → ¬recentClose <:+: b'.text := by
  induction bs with
  | nil => exact ⟨by simp, List.Pairwise.nil⟩
  | cons q more ih =>
    obtain ⟨b, gap⟩ := q
    obtain ⟨hb, hmore⟩ := h
    obtain ⟨hends, hlater⟩ := ih hmore
    refine ⟨List.forall_mem_cons.2 ⟨fun hopen => (hb.resolve_left hopen).1, hends⟩,
      List.pairwise_cons.2 ⟨fun b' hb' hopen hclose => ?_, hlater⟩⟩
    apply (hb.resolve_left hopen).2
    exact (hclose.trans (text_infix_sequence hb')).trans (List.suffix_append gap _).isInfix

/-! ## The list that is written -/

/-- What stands between two entries that are written. -/
def recentGap : Bytes := text "\n  "

/-- Entries that are carried over, and the new one behind them. -/
def written (kept : List Block) (entry : Block) : List (Block × Bytes) :=
  kept.map (fun b => (b, recentGap)) ++ [(entry, xbelTail)]

/-- The entry of a file, as an element. -/
def entryBlock (uri now mime app : Bytes) : Block where
  tag := (recentTag uri now).drop 9
  inner := some ((recentInfo now mime app).drop 1)

theorem text_entryBlock (uri now mime app : Bytes) :
    (entryBlock uri now mime app).text = recentEntry uri now mime app := by
  have htag : (entryBlock uri now mime app).front = recentTag uri now := rfl
  have hinfo : 62 :: (recentInfo now mime app).drop 1 = recentInfo now mime app := rfl
  rw [Block.text, htag, recentEntry, List.append_assoc, ← hinfo]
  rfl

theorem text_written (kept : List Block) (entry : Block) :
    (written kept entry).map (fun q => q.1.text) = kept.map Block.text ++ [entry.text] := by
  rw [written, List.map_append, List.map_map]
  rfl

/-- What `add_recent` writes is such a list. -/
theorem sequence_written (kept : List Block) (entry : Block) :
    sequence (written kept entry) =
      recentGap.intercalate (kept.map Block.text ++ [entry.text]) ++ xbelTail := by
  induction kept with
  | nil =>
    rw [List.map_nil, List.nil_append, List.intercalate_singleton]
    show entry.text ++ (xbelTail ++ []) = _
    rw [List.append_nil]
  | cons b kept ih =>
    obtain ⟨x, xs, hx⟩ : ∃ x xs, kept.map Block.text ++ [entry.text] = x :: xs :=
      List.exists_cons_of_ne_nil (by simp)
    rw [List.map_cons, List.cons_append, hx, List.intercalate_cons_cons, ← hx]
    show b.text ++ (recentGap ++ sequence (written kept entry)) = _
    rw [ih]
    simp only [List.append_assoc]

theorem isSequence_written {kept : List Block} {entry : Block} (hkept : ∀ b ∈ kept, b.WellFormed)
    (hentry : entry.WellFormed) : IsSequence (written kept entry) := by
  have hgap : ¬openMark <:+: recentGap := by decide
  have htail : ¬openMark <:+: xbelTail := by decide
  intro q hq
  rcases List.mem_append.1 hq with hq | hq
  · obtain ⟨b, hb, rfl⟩ := List.mem_map.1 hq
    exact ⟨hkept b hb, hgap⟩
  · obtain rfl := List.mem_singleton.1 hq
    exact ⟨hentry, htail⟩

/-- Before the new entry each of the others has to be sealed. -/
theorem cutInPlace_written {kept : List Block} {entry : Block} (hsealed : entry.Sealed)
    (hclose : recentClose <:+: entry.text) :
    CutInPlace (written kept entry) ↔ ∀ b ∈ kept, b.Sealed := by
  induction kept with
  | nil => exact iff_of_true ⟨Or.inl hsealed, trivial⟩ (by simp)
  | cons b kept ih =>
    have hin : recentClose <:+: recentGap ++ sequence (written kept entry) := by
      have hlast : entry.text <:+: sequence (written kept entry) :=
        text_infix_sequence (by rw [written]; simp)
      exact (hclose.trans hlast).trans (List.suffix_append _ _).isInfix
    show b.CutBefore (recentGap ++ sequence (written kept entry)) ∧ CutInPlace (written kept entry) ↔ _
    rw [ih, List.forall_mem_cons, Block.CutBefore, or_iff_left fun h => h.2 hin]

theorem splitFrom_ne_nil {gap : Bytes} (hgap : ¬openMark <:+: gap) {bs : List (Block × Bytes)}
    (hne : bs ≠ []) (hwf : IsSequence bs) {n : ℕ} (hn : (gap ++ sequence bs).length ≤ n) :
    splitFrom n (gap ++ sequence bs) ≠ [] := by
  obtain ⟨⟨b, gap'⟩, more, rfl⟩ := List.exists_cons_of_ne_nil hne
  obtain ⟨hb, -⟩ := hwf _ List.mem_cons_self
  obtain ⟨x, y, hnext, -⟩ := @Block.nextBookmark_text b (gap' ++ sequence more) hb gap hgap
  have hpos : 0 < b.text.length := b.text_pos
  rw [sequence] at hn ⊢
  simp only [List.length_append] at hn
  obtain ⟨m, rfl⟩ := Nat.exists_eq_add_of_le' (show 1 ≤ n by omega)
  rw [splitFrom, hnext]
  exact List.cons_ne_nil _ _

/-- Entries without a close tag put none before the new one. -/
theorem sequence_written_eq {kept : List Block} (hkept : ∀ b ∈ kept, b.WellFormed)
    (hclose : ∀ b ∈ kept, ¬recentClose <:+: b.text) (entry : Block) :
    ∃ front, sequence (written kept entry) = front ++ (entry.text ++ xbelTail) ∧
      Misses recentClose front := by
  induction kept with
  | nil =>
    refine ⟨[], ?_, trivial⟩
    show entry.text ++ (xbelTail ++ []) = _
    rw [List.append_nil]
    rfl
  | cons b kept ih =>
    obtain ⟨hb, hkept⟩ := List.forall_mem_cons.1 hkept
    obtain ⟨hbclose, hclose⟩ := List.forall_mem_cons.1 hclose
    obtain ⟨front, hfront, hmisses⟩ := ih hkept hclose
    refine ⟨b.text ++ (recentGap ++ front), ?_, ?_⟩
    · show b.text ++ (recentGap ++ sequence (written kept entry)) = _
      rw [hfront]
      simp only [List.append_assoc]
    · exact misses_append (hb.misses_text hbclose) (misses_append (by decide) hmisses)

/-- Behind an entry that is not sealed the list ends with one piece that has the new entry in it. -/
theorem sealed_of_last {kept : List Block} {uri now mime app : Bytes}
    (hquotable : Quotable uri now mime app) (hkept : ∀ b ∈ kept, b.WellFormed)
    (hentry : (entryBlock uri now mime app).WellFormed)
    (hends : ∀ b ∈ kept, ¬b.Sealed → b.Ends)
    (hlater : kept.Pairwise fun b b' => ¬b.Sealed → ¬recentClose <:+: b'.text) {gap : Bytes}
    (hgap : ¬openMark <:+: gap) {n : ℕ}
    (hn : (gap ++ sequence (written kept (entryBlock uri now mime app))).length ≤ n)
    (hlast : (splitFrom n (gap ++ sequence (written kept (entryBlock uri now mime app)))).getLast? =
      some (recentEntry uri now mime app)) : ∀ b ∈ kept, b.Sealed := by
  induction kept generalizing gap n with
  | nil => exact fun b hb => absurd hb List.not_mem_nil
  | cons b kept ih =>
    obtain ⟨hb, hkept⟩ := List.forall_mem_cons.1 hkept
    obtain ⟨hbends, hends⟩ := List.forall_mem_cons.1 hends
    obtain ⟨hblater, hlater⟩ := List.pairwise_cons.1 hlater
    have hpos : 0 < b.text.length := b.text_pos
    have hseq : sequence (written (b :: kept) (entryBlock uri now mime app)) =
        b.text ++ (recentGap ++ sequence (written kept (entryBlock uri now mime app))) := rfl
    rw [hseq] at hn hlast
    have hlen := hn
    simp only [List.length_append] at hlen
    obtain ⟨m, rfl⟩ := Nat.exists_eq_add_of_le' (show 1 ≤ n by omega)
    have hmarks : ¬openMark <:+: recentGap := by decide
    by_cases hopen : b.Sealed
    · obtain ⟨x, y, hnext, hcut, -⟩ := @Block.nextBookmark_text b
        (recentGap ++ sequence (written kept (entryBlock uri now mime app))) hb gap hgap
      obtain ⟨rfl, rfl⟩ := hcut (Or.inl hopen)
      have hm : (recentGap ++ sequence (written kept (entryBlock uri now mime app))).length ≤ m := by
        rw [List.length_append]
        omega
      have hrest := splitFrom_ne_nil hmarks (by rw [written]; simp) (isSequence_written hkept hentry) hm
      rw [splitFrom, hnext, Option.elim_some, List.getLast?_cons_of_ne_nil hrest] at hlast
      exact List.forall_mem_cons.2 ⟨hopen, ih hkept hends hlater hmarks hm hlast⟩
    · -- the close tag of the new entry is the first one behind it
      exfalso
      obtain ⟨hinner, hfirst⟩ := hbends hopen
      have hmiss : Misses recentClose b.text := by
        rw [Block.text, Block.back, hinner]
        exact misses_append (Block.misses_front hb.tag) (by decide)
      obtain ⟨front, hfront, hmisses⟩ := sequence_written_eq hkept (fun b' hb' => hblater b' hb' hopen)
        (entryBlock uri now mime app)
      rw [text_entryBlock] at hfront
      have hwhole : b.text ++ (recentGap ++ sequence (written kept (entryBlock uri now mime app))) =
          (b.text ++ (recentGap ++ front)) ++ (recentEntry uri now mime app ++ xbelTail) := by
        rw [hfront]
        simp only [List.append_assoc]
      have hskip : Misses recentClose (b.text ++ (recentGap ++ front)) :=
        misses_append hmiss (misses_append (by decide) hmisses)
      have hclose : findSub recentClose (b.text ++ (recentGap ++
          sequence (written kept (entryBlock uri now mime app)))) =
            some ((recentTag uri now ++ recentInfo now mime app).length +
              (b.text ++ (recentGap ++ front)).length) := by
        rw [hwhole, findSub_of_misses hskip, recentEntry, List.append_assoc,
          findSub_of_misses hquotable.misses_close, findSub_append, Option.map_some, Option.map_some,
          Nat.zero_add]
      have heleven : recentClose.length = 11 := by decide
      have hlength : ((b.text ++ (recentGap ++ front)) ++ recentEntry uri now mime app).length =
          (recentTag uri now ++ recentInfo now mime app).length +
            (b.text ++ (recentGap ++ front)).length + 11 := by
        rw [recentEntry]
        simp only [List.length_append, heleven]
        omega
      have hmem : 62 ∈ b.front := by
        rw [Block.Sealed, hinner] at hopen
        exact not_not.1 hopen
      have hmark : ∀ e, innerMark (b.text ++ (recentGap ++
          sequence (written kept (entryBlock uri now mime app)))) e = none := by
        intro e
        rw [Option.eq_none_iff_forall_ne_some, Block.text, List.append_assoc]
        exact fun i hi => hfirst (Block.innerMark_front hmem hi).2
      have hend : endOf (b.text ++ (recentGap ++
          sequence (written kept (entryBlock uri now mime app)))) =
            some ((b.text ++ (recentGap ++ front)) ++ recentEntry uri now mime app).length := by
        rw [endOf, hclose, Option.map_some, Option.some_or, Option.map_some, hmark, hlength]
        rfl
      obtain ⟨x, y, hnext, hx⟩ : ∃ x y, nextBookmark (gap ++ (b.text ++ (recentGap ++
          sequence (written kept (entryBlock uri now mime app))))) = some (x, y) ∧
            x = (b.text ++ (recentGap ++ front)) ++ recentEntry uri now mime app ∧ y = xbelTail := by
        have hnext := nextBookmark_eq hgap (b.tag ++ b.back ++
          (recentGap ++ sequence (written kept (entryBlock uri now mime app))))
        rw [← List.append_assoc openMark, ← b.text_eq, hend, Option.map_some, hwhole,
          ← List.append_assoc _ (recentEntry _ _ _ _), List.take_left, List.drop_left] at hnext
        refine ⟨_, _, ?_, rfl, rfl⟩
        rw [hwhole, ← List.append_assoc _ (recentEntry _ _ _ _)]
        exact hnext
      obtain ⟨rfl, rfl⟩ := hx
      have htail : ¬openMark <:+: xbelTail := by decide
      rw [splitFrom, hnext, Option.elim_some, splitFrom_nil htail, List.getLast?_singleton,
        Option.some.injEq] at hlast
      have hcount := congrArg List.length hlast
      simp only [List.length_append] at hcount
      omega

/-! ## Texts -/

theorem valid_flatten {parts : List Bytes} (h : ∀ p ∈ parts, Utf8.valid p = true) :
    Utf8.valid parts.flatten = true := by
  induction parts with
  | nil => rfl
  | cons p parts ih =>
    obtain ⟨hp, hparts⟩ := List.forall_mem_cons.1 h
    rw [List.flatten_cons, Utf8.valid_append hp]
    exact ih hparts

theorem valid_replaceByte {b : UInt8} (hb : b < 0x80) {by_ bs : Bytes} (hby : Utf8.valid by_ = true)
    (hbs : Utf8.valid bs = true) : Utf8.valid (replaceByte b by_ bs) = true := by
  have hjoin : replaceByte b by_ bs = by_.intercalate (bs.splitOn b) := by
    rw [replaceByte, flatMap_eq_intercalate _ b, if_pos rfl]
    have hkeep : ∀ part ∈ bs.splitOn b, (part.flatMap fun x => if x = b then by_ else [x]) = part := by
      intro part hpart
      have hone : ∀ x ∈ part, (if x = b then by_ else [x]) = [x] := by
        intro x hx
        rw [if_neg]
        rintro rfl
        exact notMem_of_mem_splitOn hpart hx
      rw [List.flatMap_congr hone, List.flatMap_singleton']
    rw [List.map_congr_left hkeep, List.map_id']
  have hall : ∀ parts : List Bytes, (∀ p ∈ parts, Utf8.valid p = true) →
      Utf8.valid (by_.intercalate parts) = true := by
    intro parts
    induction parts with
    | nil => exact fun _ => rfl
    | cons p parts ih =>
      intro h
      obtain ⟨hp, hparts⟩ := List.forall_mem_cons.1 h
      cases parts with
      | nil =>
        rw [List.intercalate_singleton]
        exact hp
      | cons q parts =>
        rw [List.intercalate_cons_cons, Utf8.valid_append (by rw [Utf8.valid_append hp]; exact hby)]
        exact ih hparts
  rw [hjoin]
  exact hall _ fun p hp => Text.valid_of_mem_splitOn hb hbs hp

theorem valid_escapeXml {value : Bytes} (h : Utf8.valid value = true) :
    Utf8.valid (escapeXml value) = true := by
  have hentity : Utf8.valid (text "&amp;") = true ∧ Utf8.valid (text "&lt;") = true ∧
      Utf8.valid (text "&gt;") = true ∧ Utf8.valid (text "&quot;") = true := by decide
  obtain ⟨hamp, hlt, hgt, hquot⟩ := hentity
  exact valid_replaceByte (by decide) hquot (valid_replaceByte (by decide) hgt
    (valid_replaceByte (by decide) hlt (valid_replaceByte (by decide) hamp h)))

theorem valid_of_ascii {bs : Bytes} (h : ∀ b ∈ bs, b < 0x80) : Utf8.valid bs = true := by
  rw [← List.nil_append bs, Utf8.valid_append_of_ascii h]
  rfl

theorem valid_timestamp (secs : ℤ) : Utf8.valid (timestamp secs) = true := by
  have hdigit : ∀ b, isDigit b = true → b < 0x80 := fun b => by
    revert b
    exact forall_byte (by decide +kernel)
  have hpadded : ∀ w n, ∀ b ∈ padded w n, b < 0x80 := fun w n b hb =>
    hdigit b (List.all_eq_true.1 (all_isDigit_padded w n) b hb)
  have hsigned : ∀ w n, ∀ b ∈ signed w n, b < 0x80 := by
    intro w n b hb
    rw [signed] at hb
    split at hb
    · rcases List.mem_cons.1 hb with rfl | hb
      · decide
      · exact hpadded _ _ b hb
    · exact hpadded _ _ b hb
  apply valid_of_ascii
  simp only [timestamp, List.forall_mem_append, List.forall_mem_cons]
  exact ⟨⟨⟨⟨⟨⟨hsigned _ _, by decide, hpadded _ _⟩, by decide, hpadded _ _⟩, by decide, hpadded _ _⟩,
    by decide, hpadded _ _⟩, by decide, hpadded _ _⟩, by decide, by simp⟩

/-- The entry that is written for a file. -/
def entryFor (secs : ℤ) (path mime app : Bytes) : Bytes :=
  recentEntry (escapeXml (fileUrl path)) (timestamp secs) (escapeXml mime) (escapeXml app)

theorem valid_entryFor (secs : ℤ) (path : Bytes) (mime app : Text) :
    Utf8.valid (entryFor secs path mime.val app.val) = true := by
  have huri : Utf8.valid (escapeXml (fileUrl path)) = true :=
    valid_escapeXml (valid_of_ascii fun b hb => ascii_of_urlSafe b (urlSafe_fileUrl path b hb))
  have hmime := valid_escapeXml mime.property
  have happ := valid_escapeXml app.property
  have hnow := valid_timestamp secs
  have htag : Utf8.valid (recentTag (escapeXml (fileUrl path)) (timestamp secs)) = true := by
    apply valid_flatten
    simp only [List.forall_mem_cons, huri, hnow]
    decide
  have hinfo : Utf8.valid (recentInfo (timestamp secs) (escapeXml mime.val) (escapeXml app.val)) = true := by
    apply valid_flatten
    simp only [List.forall_mem_cons, hmime, happ, hnow]
    decide
  rw [entryFor, recentEntry, List.append_assoc, Utf8.valid_append htag, Utf8.valid_append hinfo]
  decide

/-- An entry of a text is a text. -/
theorem valid_blockText {b : Block} {x y : Bytes} (h : Utf8.valid (x ++ (b.text ++ y)) = true) :
    Utf8.valid b.text = true := by
  obtain ⟨m, hm⟩ : ∃ m, b.text = 60 :: (m ++ [62]) := by
    have hopen : openMark = 60 :: text "bookmark" := by decide
    have hclose : recentClose = text "</bookmark" ++ [62] := by decide
    have hshort : shortMark = [47] ++ [62] := by decide
    rw [Block.text, Block.back, Block.front, hopen, hclose, hshort]
    cases b.inner with
    | none => exact ⟨text "bookmark" ++ b.tag ++ [47], by simp⟩
    | some inner => exact ⟨text "bookmark" ++ b.tag ++ 62 :: (inner ++ text "</bookmark"), by simp⟩
  rw [hm] at h ⊢
  rw [List.cons_append, List.append_assoc, List.singleton_append, Utf8.valid_append_ascii (by decide),
    Utf8.valid_append_ascii (by decide), Bool.and_eq_true, Bool.and_eq_true] at h
  have hwhole := @Utf8.valid_append_ascii 60 (by decide) [] (m ++ 62 :: [])
  rw [List.nil_append, Utf8.valid_append_ascii (by decide)] at hwhole
  rw [hwhole, h.2.1]
  rfl

theorem valid_of_mem_sequence {bs : List (Block × Bytes)} {x : Bytes}
    (h : Utf8.valid (x ++ sequence bs) = true) : ∀ b ∈ bs.map Prod.fst, Utf8.valid b.text = true := by
  induction bs generalizing x with
  | nil => simp
  | cons q more ih =>
    obtain ⟨b, gap⟩ := q
    rw [sequence] at h
    refine List.forall_mem_cons.2 ⟨valid_blockText h, ?_⟩
    apply @ih (x ++ b.text ++ gap)
    rw [List.append_assoc, List.append_assoc]
    exact h

/-! ## Paths of entries -/

/-- `unescape_xml`. -/
def unescapeXml (value : Bytes) : Bytes :=
  replaceAll (text "&apos;") [39] (replaceAll (text "&quot;") [34] (replaceAll (text "&gt;") [62]
    (replaceAll (text "&lt;") [60] (replaceAll (text "&amp;") [38] value))))

/-- The path of an entry, as `parse_recent` reads it. Nothing at all is the stop of the program. -/
def hrefPath (entry : Bytes) : Option (Option Bytes) :=
  match attributeOf entry (text "href") with
  | none => some none
  | some href => fromFileUrl (unescapeXml href)

/-- An entry of a file, as paths are compared. -/
def isFor (path entry : Bytes) : Bool :=
  (hrefPath entry).join.any fun found => components found = components path

/-- A URL has nothing to escape. -/
theorem escapeXml_fileUrl (path : Bytes) : escapeXml (fileUrl path) = fileUrl path := by
  have hkeep : ∀ {b : UInt8} {by_ : Bytes}, urlSafe b = false →
      replaceByte b by_ (fileUrl path) = fileUrl path := by
    intro b by_ hb
    have hone : ∀ x ∈ fileUrl path, (if x = b then by_ else [x]) = [x] := by
      intro x hx
      rw [if_neg]
      rintro rfl
      rw [urlSafe_fileUrl path x hx] at hb
      cases hb
    rw [replaceByte, List.flatMap_congr hone, List.flatMap_singleton']
  rw [escapeXml, hkeep (by decide), hkeep (by decide), hkeep (by decide), hkeep (by decide)]

theorem unescapeXml_fileUrl (path : Bytes) : unescapeXml (fileUrl path) = fileUrl path := by
  have hkeep : ∀ {pat new : Bytes}, 38 ∈ pat → replaceAll pat new (fileUrl path) = fileUrl path := by
    intro pat new hpat
    apply replaceAll_absent
    intro h
    have hsafe := urlSafe_fileUrl path 38 (h.subset hpat)
    revert hsafe
    decide
  rw [unescapeXml, hkeep (by decide), hkeep (by decide), hkeep (by decide),
    hkeep (by decide), hkeep (by decide)]

/-- A path is read back from its URL where it is absolute and a text. -/
theorem fromFileUrl_fileUrl_iff (path : Bytes) : fromFileUrl (fileUrl path) = some (some path) ↔
    path.head? = some 47 ∧ Utf8.valid path = true := by
  constructor
  · intro h
    have hroot := head_of_fromFileUrl h
    rw [fromFileUrl_fileUrl hroot, Option.some.injEq, Option.some.injEq] at h
    exact ⟨hroot, Utf8.lossy_eq_self_iff.1 h⟩
  · intro h
    rw [fromFileUrl_fileUrl h.1, Utf8.lossy_eq_self_iff.2 h.2]

section

variable (secs : ℤ) (path mime app : Bytes)

theorem attributeOf_entryFor :
    attributeOf (entryFor secs path mime app) (text "href") = some (fileUrl path) := by
  rw [entryFor, (quotable (fileUrl path) mime app secs).attributeOf_eq, escapeXml_fileUrl]

theorem hrefPath_entryFor : hrefPath (entryFor secs path mime app) = fromFileUrl (fileUrl path) := by
  rw [hrefPath, attributeOf_entryFor]
  exact congrArg fromFileUrl (unescapeXml_fileUrl path)

/-- What stands in the tag of the new entry. -/
theorem drop_recentTag (uri now : Bytes) : (recentTag uri now).drop 9 = List.flatten
    [text " href=\"", uri, text "\" added=\"", now, text "\" modified=\"", now, text "\" visited=\"",
      now, text "\""] := rfl

theorem not_infix_of_misses {needle a : Bytes} (hne : needle ≠ []) (h : Misses needle a) :
    ¬needle <:+: a := by
  have hfind := findSub_of_misses h []
  rw [List.append_nil, findSub, if_neg hne] at hfind
  rw [← isSome_findSub_iff, hfind]
  exact Bool.false_ne_true

/-- The new entry is a bookmark element. -/
theorem wellFormed_entryBlock : (entryBlock (escapeXml (fileUrl path)) (timestamp secs)
    (escapeXml mime) (escapeXml app)).WellFormed := by
  have hquotable := quotable (fileUrl path) mime app secs
  constructor
  · have huri := hquotable.uri_plain 60 (Or.inl rfl)
    have hnow := hquotable.now_plain 60 (Or.inl rfl)
    show 60 ∉ (recentTag _ _).drop 9
    rw [drop_recentTag, List.mem_flatten]
    rintro ⟨p, hp, hmem⟩
    revert hmem
    revert p
    simp only [List.forall_mem_cons, huri, hnow]
    decide
  · intro inner hinner hclose
    obtain rfl := Option.some.inj hinner
    apply not_infix_of_misses (by decide) hquotable.misses_close
    exact hclose.trans ((List.drop_suffix _ _).trans (List.suffix_append _ _)).isInfix

/-- And its tag ends with its first bracket. -/
theorem sealed_entryBlock : (entryBlock (escapeXml (fileUrl path)) (timestamp secs)
    (escapeXml mime) (escapeXml app)).Sealed := by
  have hquotable := quotable (fileUrl path) mime app secs
  have huri := hquotable.uri_plain 62 (Or.inr (Or.inl rfl))
  have hnow := hquotable.now_plain 62 (Or.inr (Or.inl rfl))
  have hplain : 62 ∉ recentTag (escapeXml (fileUrl path)) (timestamp secs) := by
    rw [recentTag, List.mem_flatten]
    rintro ⟨p, hp, hmem⟩
    revert hmem
    revert p
    simp only [List.forall_mem_cons, huri, hnow]
    decide
  have hall : ∀ x ∈ recentTag (escapeXml (fileUrl path)) (timestamp secs), decide (x ≠ 62) = true :=
    fun x hx => decide_eq_true fun heq => hplain (heq ▸ hx)
  have hlast : (recentTag (escapeXml (fileUrl path)) (timestamp secs)).getLast? = some 34 := by
    have hquote : recentTag (escapeXml (fileUrl path)) (timestamp secs) = List.flatten
        [text "<bookmark href=\"", escapeXml (fileUrl path), text "\" added=\"", timestamp secs,
          text "\" modified=\"", timestamp secs, text "\" visited=\"", timestamp secs] ++ [34] := by
      simp only [recentTag, List.flatten_cons, List.append_assoc]
      rfl
    rw [hquote, List.getLast?_concat]
  show ((recentTag (escapeXml (fileUrl path)) (timestamp secs)).takeWhile (· ≠ 62)).getLast? ≠ some 47
  rw [List.takeWhile_eq_self_iff.2 hall, hlast]
  decide

end

/-! ## The call -/

/-- The entries of the list on the disk. -/
def recentIn (file : Option Bytes) : List Bytes :=
  splitBookmarks (((readToString false file).map Subtype.val).getD [])

/-- The entries of other files as they were, and behind them one of this file. -/
structure Notes (path : Bytes) (old : List Bytes) (entry : Bytes) (after : Option Bytes) : Prop where
  entries : recentIn after = (old.filter fun b => !isFor path b) ++ [entry]
  path : hrefPath entry = some (some path)
  few : (recentIn after).length ≤ maxRecent

/-- The entries are cut right where they stand and those that stay also before another; an entry of
the file has its URL as `fileUrl` writes it; and the path can be read back from that. -/
structure Notable (path : Bytes) (bs : List (Block × Bytes)) : Prop where
  cut : CutInPlace bs
  stay : ∀ b ∈ bs.map Prod.fst, attributeOf b.text (text "href") ≠ some (fileUrl path) → b.Sealed
  spelled : ∀ b ∈ bs.map Prod.fst, isFor path b.text = true →
    attributeOf b.text (text "href") = some (fileUrl path)
  path : path.head? = some 47 ∧ Utf8.valid path = true

section

variable {p : Place} {c : SaveCalls} {secs : ℤ} {path mime app : Bytes} {file after : Option Bytes}

/-- A file that is noted. -/
theorem addRecent_ok (hworks : c.Works) :
    addRecent (some p) false c secs path mime app file = (.ok (), some
      (noted (((readToString false file).map Subtype.val).getD []) (escapeXml (fileUrl path))
        (timestamp secs) mime app)) := by
  unfold addRecent
  simp only
  rw [Act.bind_of_ok (show Act.get file = (.ok file, file) from rfl)]
  exact writeNew_ok _ _ _ _ _ hworks

/-- What a call that notes a file has done. -/
theorem addRecent_returned (h : addRecent (some p) false c secs path mime app file = (.ok (), after)) :
    after = some (noted (((readToString false file).map Subtype.val).getD [])
      (escapeXml (fileUrl path)) (timestamp secs) mime app) := by
  by_cases hworks : c.Works
  · rw [addRecent_ok hworks] at h
    exact (Prod.mk.inj h).2.symm
  · unfold addRecent at h
    simp only at h
    rw [Act.bind_of_ok (show Act.get file = (.ok file, file) from rfl)] at h
    obtain ⟨e, he⟩ := writeNew_error c p (fun bs _ => some bs)
      (noted (((readToString false file).map Subtype.val).getD []) (escapeXml (fileUrl path))
        (timestamp secs) mime app) file hworks
    rw [he] at h
    cases h

/-- What is written is a sequence of entries again. -/
theorem noted_eq {list : Bytes} {blocks : List Block} (hsplit : splitBookmarks list = blocks.map Block.text)
    (hfew : (blocks.filter fun b => attributeOf b.text (text "href") ≠ some (fileUrl path)).length <
      maxRecent) :
    noted list (escapeXml (fileUrl path)) (timestamp secs) mime app =
      xbelHead ++ sequence (written
        (blocks.filter fun b => attributeOf b.text (text "href") ≠ some (fileUrl path))
        (entryBlock (escapeXml (fileUrl path)) (timestamp secs) (escapeXml mime) (escapeXml app))) := by
  have hkept : (splitBookmarks list).filter (fun b => attributeOf b (text "href") ≠
      some (escapeXml (fileUrl path))) =
        (blocks.filter fun b => attributeOf b.text (text "href") ≠ some (fileUrl path)).map Block.text := by
    rw [hsplit, escapeXml_fileUrl, List.filter_map]
    rfl
  rw [noted, hkept, sequence_written, text_entryBlock, List.length_map,
    Nat.sub_eq_zero_of_le (show _ + 1 ≤ maxRecent from hfew), List.drop_zero, List.append_assoc]
  rfl

end

/-- The entries that are carried over. -/
def carried (path : Bytes) (blocks : List Block) : List Block :=
  blocks.filter fun b => attributeOf b.text (text "href") ≠ some (fileUrl path)

/-- The element of the new entry. -/
def newBlock (secs : ℤ) (path mime app : Bytes) : Block :=
  entryBlock (escapeXml (fileUrl path)) (timestamp secs) (escapeXml mime) (escapeXml app)

theorem text_newBlock (secs : ℤ) (path mime app : Bytes) :
    (newBlock secs path mime app).text = entryFor secs path mime app := text_entryBlock _ _ _ _

section

variable {p : Place} {c : SaveCalls} {secs : ℤ} {path : Bytes} {mime app list : Text}
  {after : Option Bytes} {blocks : List Block}

/-- What is on the disk after a call, of a list that was split into entries. -/
theorem written_of_run (hsplit : splitBookmarks list.val = blocks.map Block.text)
    (hvalid : ∀ b ∈ blocks, Utf8.valid b.text = true) (hfew : (carried path blocks).length < maxRecent)
    (hrun : addRecent (some p) false c secs path mime.val app.val (some list.val) = (.ok (), after)) :
    ∃ new : Text, after = some new.val ∧ new.val = xbelHead ++
      sequence (written (carried path blocks) (newBlock secs path mime.val app.val)) := by
  have hnew := @noted_eq secs path mime.val app.val list.val blocks hsplit hfew
  have hread : ((readToString false (some list.val)).map Subtype.val).getD [] = list.val := by
    rw [readToString_text]
    rfl
  have hafter := addRecent_returned hrun
  rw [hread, hnew] at hafter
  have hseq : ∀ bs : List (Block × Bytes),
      (∀ q ∈ bs, Utf8.valid q.1.text = true ∧ Utf8.valid q.2 = true) →
        Utf8.valid (sequence bs) = true := by
    intro bs
    induction bs with
    | nil => exact fun _ => rfl
    | cons q bs ih =>
      intro h
      obtain ⟨⟨htext, hgap⟩, hbs⟩ := List.forall_mem_cons.1 h
      rw [sequence, Utf8.valid_append htext, Utf8.valid_append hgap]
      exact ih hbs
  have hgap : Utf8.valid recentGap = true := by decide
  have htail : Utf8.valid xbelTail = true := by decide
  have hwritten : ∀ q ∈ written (carried path blocks) (newBlock secs path mime.val app.val),
      Utf8.valid q.1.text = true ∧ Utf8.valid q.2 = true := by
    intro q hq
    rcases List.mem_append.1 hq with hq | hq
    · obtain ⟨b, hb, rfl⟩ := List.mem_map.1 hq
      exact ⟨hvalid b (List.mem_of_mem_filter hb), hgap⟩
    · obtain rfl := List.mem_singleton.1 hq
      exact ⟨by rw [text_newBlock]; exact valid_entryFor secs path mime app, htail⟩
  have hhead : Utf8.valid xbelHead = true := by decide +kernel
  refine ⟨⟨_, ?_⟩, hafter, rfl⟩
  rw [Utf8.valid_append hhead]
  exact hseq _ hwritten

theorem recentIn_text (list : Text) : recentIn (some list.val) = splitBookmarks list.val := by
  rw [recentIn, readToString_text]
  rfl

/-- The list that is written is split into its entries where those that stay are sealed. -/
theorem split_written (hwf : ∀ b ∈ blocks, b.WellFormed) (mime app : Bytes) :
    splitBookmarks (xbelHead ++ sequence (written (carried path blocks) (newBlock secs path mime app))) =
        (carried path blocks ++ [newBlock secs path mime app]).map Block.text ↔
      ∀ b ∈ carried path blocks, b.Sealed := by
  have hhead : ¬openMark <:+: xbelHead := by
    rw [← isSome_findSub_iff]
    decide +kernel
  have hnew : (newBlock secs path mime app).WellFormed := wellFormed_entryBlock secs path mime app
  have hclose : recentClose <:+: (newBlock secs path mime app).text := by
    rw [text_newBlock]
    exact ⟨_, [], List.append_nil _⟩
  have hkept : ∀ b ∈ carried path blocks, b.WellFormed := fun b hb => hwf b (List.mem_of_mem_filter hb)
  have hseq := isSequence_written hkept hnew
  have hsplit := splitFrom_sequence hhead hseq
    (le_refl (xbelHead ++ sequence (written (carried path blocks) (newBlock secs path mime app))).length)
  rw [text_written] at hsplit
  rw [splitBookmarks, List.map_append]
  exact hsplit.trans (cutInPlace_written (sealed_entryBlock secs path mime app) hclose)

/-- An entry with the file's URL is the file's. -/
theorem isFor_of_href (hpath : path.head? = some 47 ∧ Utf8.valid path = true) {entry : Bytes}
    (h : attributeOf entry (text "href") = some (fileUrl path)) : isFor path entry = true := by
  rw [isFor, hrefPath, h]
  dsimp only
  rw [unescapeXml_fileUrl, (fromFileUrl_fileUrl_iff path).2 hpath]
  exact decide_eq_true rfl

/-- Where no entry of the file is spelled in another way, all others are carried over. -/
theorem filter_isFor (hpath : path.head? = some 47 ∧ Utf8.valid path = true)
    (hspelled : ∀ b ∈ blocks, isFor path b.text = true →
      attributeOf b.text (text "href") = some (fileUrl path)) :
    (blocks.map Block.text).filter (fun b => !isFor path b) = (carried path blocks).map Block.text := by
  rw [List.filter_map, carried]
  congr 1
  apply List.filter_congr
  intro b hb
  rw [Function.comp_apply, Bool.eq_iff_iff, Bool.not_eq_true', decide_eq_true_eq, ← Bool.not_eq_true]
  exact not_congr ⟨hspelled b hb, isFor_of_href hpath⟩

/-- **One call**, on a list whose other entries can be carried over. -/
theorem notes_of_run (hsplit : splitBookmarks list.val = blocks.map Block.text)
    (hwf : ∀ b ∈ blocks, b.WellFormed) (hvalid : ∀ b ∈ blocks, Utf8.valid b.text = true)
    (hfew : (carried path blocks).length < maxRecent)
    (hstay : ∀ b ∈ carried path blocks, b.Sealed)
    (hspelled : ∀ b ∈ blocks, isFor path b.text = true →
      attributeOf b.text (text "href") = some (fileUrl path))
    (hpath : path.head? = some 47 ∧ Utf8.valid path = true)
    (hrun : addRecent (some p) false c secs path mime.val app.val (some list.val) = (.ok (), after)) :
    Notes path (blocks.map Block.text) (entryFor secs path mime.val app.val) after ∧
      ∃ new : Text, after = some new.val ∧ splitBookmarks new.val =
        (carried path blocks ++ [newBlock secs path mime.val app.val]).map Block.text := by
  obtain ⟨new, rfl, hnew⟩ := written_of_run hsplit hvalid hfew hrun
  have hwritten := (@split_written secs path blocks hwf mime.val app.val).2 hstay
  rw [← hnew] at hwritten
  refine ⟨⟨?_, ?_, ?_⟩, new, rfl, hwritten⟩
  · rw [recentIn_text, hwritten, filter_isFor hpath hspelled, List.map_append, List.map_singleton,
      text_newBlock]
  · rw [hrefPath_entryFor]
    exact (fromFileUrl_fileUrl_iff path).2 hpath
  · rw [recentIn_text, hwritten, List.length_map, List.length_append, List.length_singleton]
    exact hfew

end

/-- **Exactly when noting a file keeps the others**, and does so again: the entries are cut right, in
the list and before one more; those of the file have its URL as `fileUrl` writes it; and the file's
path is absolute and a text. -/
theorem addRecent_notes_iff {p : Place} {c : SaveCalls} {secs : ℤ} {path head : Bytes}
    {mime app list : Text} {bs : List (Block × Bytes)} {after : Option Bytes}
    (hlist : list.val = head ++ sequence bs) (hhead : ¬openMark <:+: head) (hbs : IsSequence bs)
    (hfew : bs.length < maxRecent)
    (hrun : addRecent (some p) false c secs path mime.val app.val (some list.val) = (.ok (), after)) :
    (recentIn (some list.val) = bs.map (fun q => q.1.text) ∧
      Notes path (bs.map fun q => q.1.text) (entryFor secs path mime.val app.val) after ∧
      ∀ (c' : SaveCalls) (secs' : ℤ) (mime' app' : Text) (again : Option Bytes),
        addRecent (some p) false c' secs' path mime'.val app'.val after = (.ok (), again) →
        Notes path (bs.map fun q => q.1.text) (entryFor secs' path mime'.val app'.val) again) ↔
      Notable path bs := by
  have htexts : (bs.map fun q => q.1.text) = (bs.map Prod.fst).map Block.text := by
    rw [List.map_map]
    rfl
  have hwf : ∀ b ∈ bs.map Prod.fst, b.WellFormed := by
    intro b hb
    obtain ⟨q, hq, rfl⟩ := List.mem_map.1 hb
    exact (hbs q hq).1
  have hvalid : ∀ b ∈ bs.map Prod.fst, Utf8.valid b.text = true :=
    valid_of_mem_sequence (by rw [← hlist]; exact list.property)
  have hcarried : (carried path (bs.map Prod.fst)).length < maxRecent := by
    have hle := List.length_filter_le
      (fun b : Block => decide (attributeOf b.text (text "href") ≠ some (fileUrl path))) (bs.map Prod.fst)
    rw [List.length_map] at hle
    exact Nat.lt_of_le_of_lt hle hfew
  have hread : recentIn (some list.val) = bs.map (fun q => q.1.text) ↔ CutInPlace bs := by
    rw [recentIn_text, splitBookmarks, hlist]
    exact splitFrom_sequence hhead hbs le_rfl
  constructor
  · rintro ⟨hsplit, hnotes, -⟩
    have hcut := hread.1 hsplit
    rw [recentIn_text, htexts] at hsplit
    obtain ⟨new, rfl, hnew⟩ := written_of_run hsplit hvalid hcarried hrun
    obtain ⟨hends, hlater⟩ := open_of_cutInPlace hcut
    -- the new entry is the last one, so the entries before it are sealed
    have hstay : ∀ b ∈ carried path (bs.map Prod.fst), b.Sealed := by
      have hmarks : ¬openMark <:+: xbelHead := by
        rw [← isSome_findSub_iff]
        decide +kernel
      have hlast := congrArg List.getLast? hnotes.entries
      rw [recentIn_text, hnew, List.getLast?_concat] at hlast
      exact sealed_of_last (quotable (fileUrl path) mime.val app.val secs)
        (fun b hb => hwf b (List.mem_of_mem_filter hb)) (wellFormed_entryBlock secs path mime.val app.val)
        (fun b hb => hends b (List.mem_of_mem_filter hb)) (hlater.sublist List.filter_sublist) hmarks
        le_rfl hlast
    have hwritten := (@split_written secs path (bs.map Prod.fst) hwf mime.val app.val).2 hstay
    have hentries := hnotes.entries
    rw [recentIn_text, hnew, hwritten, List.map_append, List.map_singleton, text_newBlock,
      List.append_cancel_right_eq, htexts] at hentries
    have hpath := hnotes.path
    rw [hrefPath_entryFor, fromFileUrl_fileUrl_iff] at hpath
    refine ⟨hcut, fun b hb hhref => hstay b (List.mem_filter.2 ⟨hb, by simpa using hhref⟩),
      fun b hb hfor => ?_, hpath⟩
    by_contra hhref
    have hmem : b.text ∈ (carried path (bs.map Prod.fst)).map Block.text :=
      List.mem_map_of_mem (List.mem_filter.2 ⟨hb, by simpa using hhref⟩)
    rw [hentries, List.mem_filter, hfor] at hmem
    cases hmem.2
  · intro h
    have hsplit := hread.2 h.cut
    refine ⟨hsplit, ?_⟩
    rw [recentIn_text, htexts] at hsplit
    have hstay : ∀ b ∈ carried path (bs.map Prod.fst), b.Sealed := by
      intro b hb
      obtain ⟨hmem, hhref⟩ := List.mem_filter.1 hb
      exact h.stay b hmem (of_decide_eq_true hhref)
    obtain ⟨hnotes, new, rfl, hnew⟩ :=
      notes_of_run hsplit hwf hvalid hcarried hstay h.spelled h.path hrun
    rw [htexts]
    refine ⟨hnotes, fun c' secs' mime' app' again hagain => ?_⟩
    -- the second call takes its own entry out again, and carries the same ones over
    have hsame : carried path (carried path (bs.map Prod.fst) ++ [newBlock secs path mime.val app.val]) =
        carried path (bs.map Prod.fst) := by
      have hself : carried path (carried path (bs.map Prod.fst)) = carried path (bs.map Prod.fst) :=
        List.filter_eq_self.2 fun b hb => (List.mem_filter.1 hb).2
      have hnone : carried path [newBlock secs path mime.val app.val] = [] := by
        rw [carried, List.filter_cons_of_neg, List.filter_nil]
        rw [text_newBlock, attributeOf_entryFor]
        simp
      rw [carried, List.filter_append]
      exact (congrArg₂ (· ++ ·) hself hnone).trans (List.append_nil _)
    have hmem : ∀ b ∈ carried path (bs.map Prod.fst) ++ [newBlock secs path mime.val app.val],
        b ∈ bs.map Prod.fst ∨ b = newBlock secs path mime.val app.val := by
      intro b hb
      rcases List.mem_append.1 hb with hb | hb
      · exact Or.inl (List.mem_of_mem_filter hb)
      · exact Or.inr (List.mem_singleton.1 hb)
    have hspelled : ∀ b ∈ carried path (bs.map Prod.fst) ++ [newBlock secs path mime.val app.val],
        isFor path b.text = true → attributeOf b.text (text "href") = some (fileUrl path) := by
      intro b hb
      rcases hmem b hb with hb | rfl
      · exact h.spelled b hb
      · rw [text_newBlock]
        exact fun _ => attributeOf_entryFor secs path mime.val app.val
    have hboth := notes_of_run hnew
      (fun b hb => (hmem b hb).elim (hwf b) fun heq => heq ▸ wellFormed_entryBlock _ _ _ _)
      (fun b hb => (hmem b hb).elim (hvalid b) fun heq => by
        rw [heq, text_newBlock]
        exact valid_entryFor secs path mime app)
      (by rw [hsame]; exact hcarried) (by rw [hsame]; exact hstay) hspelled h.path hagain
    obtain ⟨hentries, hpath, hcount⟩ := hboth.1
    rw [filter_isFor h.path hspelled, hsame, ← filter_isFor h.path h.spelled] at hentries
    exact ⟨hentries, hpath, hcount⟩

/-- A list of two files, the second entry closing itself. -/
def twoEntries : List (Block × Bytes) :=
  [(⟨text " href=\"file:///etc/hosts\"", some (text "<info/>")⟩, recentGap),
    (⟨text " href=\"file:///a\"", none⟩, xbelTail)]

/-- The list of an entry that closes itself and has a bracket in its tag. -/
def bracketEntry : List (Block × Bytes) :=
  [(⟨text " href=\"file:///a\" title=\"x>y\"", none⟩, xbelTail)]

/-- A list of such entries, as a text. -/
def listOf (bs : List (Block × Bytes)) (h : Utf8.valid (xbelHead ++ sequence bs) = true) : Text :=
  ⟨xbelHead ++ sequence bs, h⟩

theorem valid_twoEntries : Utf8.valid (xbelHead ++ sequence twoEntries) = true := by decide +kernel

theorem valid_bracketEntry : Utf8.valid (xbelHead ++ sequence bracketEntry) = true := by decide +kernel

/-- A type and a program. -/
def plainFiles : Text × Text := (⟨text "text/plain", by decide⟩, ⟨text "files", by decide⟩)

/-- Noted again, the second file's entry is replaced and the first one's stays. -/
theorem notes_twoEntries :
    Notes (text "/a") (twoEntries.map fun q => q.1.text)
      (entryFor 0 (text "/a") plainFiles.1.val plainFiles.2.val)
      (some (noted (listOf twoEntries valid_twoEntries).val (escapeXml (fileUrl (text "/a")))
        (timestamp 0) plainFiles.1.val plainFiles.2.val)) := by
  have hrun := @addRecent_ok somewhere {} 0 (text "/a") plainFiles.1.val plainFiles.2.val
    (some (listOf twoEntries valid_twoEntries).val) (by decide)
  rw [readToString_text] at hrun
  have hsequence : IsSequence twoEntries := by
    intro q hq
    rcases List.mem_pair.1 hq with rfl | rfl
    · refine ⟨⟨by decide, fun inner hinner => ?_⟩, by decide⟩
      obtain rfl := Option.some.inj hinner
      decide
    · exact ⟨⟨by decide, fun inner hinner => by cases hinner⟩, by decide⟩
  refine ((addRecent_notes_iff rfl ?_ hsequence (by decide) hrun).2 ?_).2.1
  · rw [← isSome_findSub_iff]
    decide +kernel
  · exact ⟨⟨Or.inl (by decide), Or.inl (by decide), trivial⟩, by decide,
      by decide, by decide⟩

/-- **An entry with a bracket in its tag**: the new entry is written behind it, and is read as a part of
it. -/
theorem bracketEntry_swallows :
    IsSequence bracketEntry ∧
      recentIn (some (listOf bracketEntry valid_bracketEntry).val) =
        bracketEntry.map (fun q => q.1.text) ∧
      ∃ after, addRecent (some somewhere) false {} 0 (text "/b") plainFiles.1.val plainFiles.2.val
          (some (listOf bracketEntry valid_bracketEntry).val) = (.ok (), after) ∧
        ¬Notes (text "/b") (bracketEntry.map fun q => q.1.text)
          (entryFor 0 (text "/b") plainFiles.1.val plainFiles.2.val) after := by
  have hrun := @addRecent_ok somewhere {} 0 (text "/b") plainFiles.1.val plainFiles.2.val
    (some (listOf bracketEntry valid_bracketEntry).val) (by decide)
  refine ⟨?_, by decide +kernel, _, hrun, fun h => ?_⟩
  · intro q hq
    obtain rfl := List.mem_singleton.1 hq
    exact ⟨⟨by decide, fun inner hinner => by cases hinner⟩, by decide⟩
  · have hone : (recentIn (some (noted (((readToString false (some (listOf bracketEntry
        valid_bracketEntry).val)).map Subtype.val).getD []) (escapeXml (fileUrl (text "/b")))
          (timestamp 0) plainFiles.1.val plainFiles.2.val))).length = 1 := by decide +kernel
    have htwo : ((bracketEntry.map fun q => q.1.text).filter fun b => !isFor (text "/b") b).length = 1 := by
      decide
    have hcount := congrArg List.length h.entries
    rw [hone, List.length_append, htwo] at hcount
    cases hcount

end Aurade.Stores
