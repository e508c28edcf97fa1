import Aurade.Foundations.Bytes

/-!
# Images written piece by piece

A byte image is made of zeros that pieces are copied over (`write`, `writes`), and read by taking out
what is at an offset (`slice`). Where the pieces follow one another (`Ascending`), each can be read back
where it was written (`slice_writes`), and what none of them covers is as it was.

`le` and `both` are numbers as bytes, low first, and low first and high first one behind the other.
`read?` reads a number in either order, where its bytes are all there.
-/

namespace Aurade

/-! ## Numbers -/

/-- The low `k` bytes of a number, the lowest first. -/
def le : ℕ → ℕ → Bytes
  | 0, _ => []
  | k + 1, v => UInt8.ofNat v :: le k (v / 256)

/-- The low `k` bytes of a number, the lowest last. -/
def be (k v : ℕ) : Bytes := (le k v).reverse

/-- The low `k` bytes of a number in both orders. -/
def both (k v : ℕ) : Bytes := le k v ++ be k v

/-- The number that bytes stand for, the lowest first. -/
def ofLE : Bytes → ℕ
  | [] => 0
  | b :: bs => b.toNat + 256 * ofLE bs

@[simp] theorem length_le (k v : ℕ) : (le k v).length = k := by
  induction k generalizing v with
  | zero => rfl
  | succ k ih => rw [le, List.length_cons, ih]

@[simp] theorem length_be (k v : ℕ) : (be k v).length = k := by
  rw [be, List.length_reverse, length_le]

@[simp] theorem length_both (k v : ℕ) : (both k v).length = k + k := by
  rw [both, List.length_append, length_le, length_be]

theorem ofLE_lt (bs : Bytes) : ofLE bs < 256 ^ bs.length := by
  induction bs with
  | nil => exact Nat.one_pos
  | cons b bs ih =>
    have hb := b.toNat_lt
    rw [ofLE, List.length_cons, pow_succ']
    omega

theorem ofLE_le (k v : ℕ) : ofLE (le k v) = v % 256 ^ k := by
  induction k generalizing v with
  | zero => rw [le, ofLE, pow_zero, Nat.mod_one]
  | succ k ih => rw [le, ofLE, ih, UInt8.toNat_ofNat', show 2 ^ 8 = 256 from rfl, pow_succ', Nat.mod_mul]

/-! ## Images -/

/-- What is at an offset. -/
def slice (img : Bytes) (off n : ℕ) : Bytes := (img.drop off).take n

/-- An image with bytes copied over it from an offset on, as far as it goes. -/
def write (img : Bytes) (off : ℕ) (bs : Bytes) : Bytes :=
  img.take off ++ bs.take (img.length - off) ++ img.drop (off + bs.length)

/-- An image with pieces copied over it in turn. -/
def writes (img : Bytes) (ws : List (ℕ × Bytes)) : Bytes :=
  ws.foldl (fun img w => write img w.1 w.2) img

/-- The pieces follow one another. -/
def Ascending (ws : List (ℕ × Bytes)) : Prop :=
  ws.Pairwise fun v w => v.1 + v.2.length ≤ w.1

/-- The pieces follow one another between two offsets. -/
def Laid : ℕ → List (ℕ × Bytes) → ℕ → Prop
  | a, [], b => a ≤ b
  | a, w :: ws, b => a ≤ w.1 ∧ Laid (w.1 + w.2.length) ws b

section

variable {img bs : Bytes} {off a n m : ℕ} {ws : List (ℕ × Bytes)}

@[simp] theorem length_write : (write img off bs).length = img.length := by
  simp only [write, List.length_append, List.length_take, List.length_drop]
  omega

@[simp] theorem length_writes : (writes img ws).length = img.length := by
  induction ws generalizing img with
  | nil => rfl
  | cons w ws ih => exact ih.trans length_write

theorem getElem?_write (i : ℕ) : (write img off bs)[i]? =
    if off ≤ i ∧ i < off + bs.length ∧ i < img.length then bs[i - off]? else img[i]? := by
  rw [write, List.append_assoc, List.getElem?_append, List.length_take]
  split
  · rw [List.getElem?_take_of_lt (by omega), if_neg (by omega)]
  · rw [List.getElem?_append, List.length_take]
    split
    · rw [List.getElem?_take_of_lt (by omega), if_pos (by omega)]
      congr 1
      omega
    · rw [List.getElem?_drop]
      by_cases h : i < img.length
      · rw [if_neg (by omega)]
        congr 1
        omega
      · rw [if_neg (by omega), List.getElem?_eq_none (by omega), List.getElem?_eq_none (by omega)]

theorem getElem?_slice (i : ℕ) : (slice img a n)[i]? = if i < n then img[a + i]? else none := by
  rw [slice, List.getElem?_take]
  split
  · rw [List.getElem?_drop]
  · rfl

theorem length_slice (h : a + n ≤ img.length) : (slice img a n).length = n := by
  rw [slice, List.length_take, List.length_drop]
  omega

/-- What is written can be read. -/
theorem slice_write (h : off + bs.length ≤ img.length) : slice (write img off bs) off bs.length = bs := by
  apply List.ext_getElem?
  intro i
  rw [getElem?_slice, getElem?_write]
  split
  · rw [if_pos (by omega)]
    congr 1
    omega
  · rw [List.getElem?_eq_none (by omega)]

/-- What is not written over is as it was. -/
theorem slice_write_of_apart (h : a + n ≤ off ∨ off + bs.length ≤ a) :
    slice (write img off bs) a n = slice img a n := by
  apply List.ext_getElem?
  intro i
  rw [getElem?_slice, getElem?_slice, getElem?_write]
  split
  · rw [if_neg (by omega)]
  · rfl

/-- What no piece covers is as it was. -/
theorem slice_writes_of_apart (h : ∀ w ∈ ws, a + n ≤ w.1 ∨ w.1 + w.2.length ≤ a) :
    slice (writes img ws) a n = slice img a n := by
  induction ws generalizing img with
  | nil => rfl
  | cons w ws ih =>
    obtain ⟨hw, hws⟩ := List.forall_mem_cons.1 h
    exact (ih hws).trans (slice_write_of_apart hw)

/-- **Pieces that follow one another can be read back.** -/
theorem slice_writes (hasc : Ascending ws) {w : ℕ × Bytes} (hw : w ∈ ws)
    (hfits : w.1 + w.2.length ≤ img.length) : slice (writes img ws) w.1 w.2.length = w.2 := by
  induction ws generalizing img with
  | nil => cases hw
  | cons v ws ih =>
    obtain ⟨hv, hws⟩ := List.pairwise_cons.1 hasc
    rcases List.mem_cons.1 hw with rfl | hw
    · exact (slice_writes_of_apart fun u hu => Or.inl (hv u hu)).trans (slice_write hfits)
    · exact ih hws hw (by rwa [length_write])

theorem slice_slice {b : ℕ} (h : b + m ≤ n) : slice (slice img a n) b m = slice img (a + b) m := by
  apply List.ext_getElem?
  intro i
  rw [getElem?_slice, getElem?_slice, getElem?_slice]
  split
  · rw [if_pos (by omega), Nat.add_assoc]
  · rfl

theorem slice_add : slice img a (n + m) = slice img a n ++ slice img (a + n) m := by
  rw [slice, slice, slice, List.take_add, List.drop_drop]

/-- What is written inside a part of an image is written in the part. -/
theorem slice_write_inside {p : ℕ} (hn : a + n ≤ img.length) :
    slice (write img (a + p) bs) a n = write (slice img a n) p bs := by
  apply List.ext_getElem?
  intro i
  have hlen : (slice img a n).length = n := length_slice hn
  rw [getElem?_slice, getElem?_write, getElem?_write, getElem?_slice, hlen]
  by_cases hi : i < n
  · rw [if_pos hi]
    by_cases hin : p ≤ i ∧ i < p + bs.length
    · rw [if_pos (by omega), if_pos (by omega)]
      congr 1
      omega
    · rw [if_neg (by omega), if_neg (by omega), if_pos hi]
  · rw [if_neg hi, if_neg (by omega), if_neg hi]

theorem slice_replicate {c : UInt8} (h : a + n ≤ m) :
    slice (List.replicate m c) a n = List.replicate n c := by
  rw [slice, List.drop_replicate, List.take_replicate, Nat.min_eq_left (by omega)]

end

section

variable {v w : List (ℕ × Bytes)} {a b c k : ℕ}

theorem Laid.le (h : Laid a w b) : a ≤ b := by
  induction w generalizing a with
  | nil => exact h
  | cons x w ih => exact h.1.trans ((Nat.le_add_right _ _).trans (ih h.2))

theorem Laid.mono (h : Laid a w b) (hbc : b ≤ c) : Laid a w c := by
  induction w generalizing a with
  | nil => exact Nat.le_trans h hbc
  | cons x w ih => exact ⟨h.1, ih h.2⟩

theorem Laid.append (hv : Laid a v b) (hw : Laid b w c) : Laid a (v ++ w) c := by
  induction v generalizing a with
  | nil =>
    cases w with
    | nil => exact Nat.le_trans hv hw
    | cons x w => exact ⟨Nat.le_trans hv hw.1, hw.2⟩
  | cons x v ih => exact ⟨hv.1, ih hv.2⟩

theorem Laid.shift (h : Laid a w b) (k : ℕ) :
    Laid (k + a) (w.map fun x => (k + x.1, x.2)) (k + b) := by
  induction w generalizing a with
  | nil => exact Nat.add_le_add_left h k
  | cons x w ih =>
    refine ⟨Nat.add_le_add_left h.1 k, ?_⟩
    have hrest := ih h.2
    rwa [← Nat.add_assoc] at hrest

theorem Laid.within (h : Laid a w b) : ∀ x ∈ w, a ≤ x.1 ∧ x.1 + x.2.length ≤ b := by
  induction w generalizing a with
  | nil => exact fun x hx => absurd hx List.not_mem_nil
  | cons y w ih =>
    have hrest := ih h.2
    refine List.forall_mem_cons.2 ⟨⟨h.1, h.2.le⟩, fun x hx => ?_⟩
    have hx := hrest x hx
    have hy := h.1
    omega

theorem Laid.ascending (h : Laid a w b) : Ascending w := by
  induction w generalizing a with
  | nil => exact List.Pairwise.nil
  | cons x w ih => exact List.pairwise_cons.2 ⟨fun y hy => (h.2.within y hy).1, ih h.2⟩

end

/-! ## Reading a number in either order -/

/-- What is at an offset, where it is all there. -/
def slice? (img : Bytes) (off n : ℕ) : Option Bytes :=
  if off + n ≤ img.length then some (slice img off n) else none

/-- A number as bytes, in the order told. -/
def ordered (big : Bool) (k v : ℕ) : Bytes := if big then be k v else le k v

/-- The number that bytes stand for in the order told. -/
def ofOrdered (big : Bool) (bs : Bytes) : ℕ := if big then ofLE bs.reverse else ofLE bs

/-- The number at an offset, where its bytes are all there. -/
def read? (big : Bool) (k : ℕ) (img : Bytes) (off : ℕ) : Option ℕ := (slice? img off k).map (ofOrdered big)

section

variable {img bs : Bytes} {big : Bool} {off a n k v : ℕ}

@[simp] theorem length_ordered : (ordered big k v).length = k := by
  cases big with
  | true => exact length_be k v
  | false => exact length_le k v

theorem ofOrdered_ordered : ofOrdered big (ordered big k v) = v % 256 ^ k := by
  cases big with
  | true =>
    change ofLE (be k v).reverse = _
    rw [be, List.reverse_reverse, ofLE_le]
  | false => exact ofLE_le k v

theorem slice?_eq_none (h : img.length < off + n) : slice? img off n = none := if_neg (by omega)

theorem slice?_of_le (h : off + n ≤ img.length) : slice? img off n = some (slice img off n) := if_pos h

theorem slice?_eq_some_iff : slice? img off n = some bs ↔ off + n ≤ img.length ∧ slice img off n = bs := by
  rw [slice?]
  split <;> simp [*]

theorem read?_isSome_iff : (read? big k img off).isSome ↔ off + k ≤ img.length := by
  rw [read?, Option.isSome_map, slice?]
  split <;> simp [*]

theorem read?_eq_none_iff : read? big k img off = none ↔ img.length < off + k := by
  rw [← Option.not_isSome_iff_eq_none, read?_isSome_iff, not_le]

theorem read?_lt (h : read? big k img off = some v) : v < 256 ^ k := by
  obtain ⟨raw, hraw, rfl⟩ := Option.map_eq_some_iff.1 h
  obtain ⟨hlen, rfl⟩ := slice?_eq_some_iff.1 hraw
  have hk : (slice img off k).length = k := length_slice hlen
  cases big with
  | true =>
    have hlt := ofLE_lt (slice img off k).reverse
    rwa [List.length_reverse, hk] at hlt
  | false =>
    have hlt := ofLE_lt (slice img off k)
    rwa [hk] at hlt

/-- A byte is read as a number. -/
theorem read?_one : read? big 1 img off = img[off]?.map UInt8.toNat := by
  rcases hget : img[off]? with _ | c
  · rw [read?_eq_none_iff.2 (by have := List.getElem?_eq_none_iff.1 hget; omega), Option.map_none]
  · obtain ⟨hlen, -⟩ := List.getElem?_eq_some_iff.1 hget
    have hslice : slice img off 1 = [c] := by
      rw [slice, List.take_one, List.head?_drop, hget]
      rfl
    rw [read?, slice?_of_le hlen, hslice, Option.map_some, Option.map_some]
    cases big <;> rfl

/-- Two bytes are read as a number. -/
theorem read?_two {c d : UInt8} (hc : img[off]? = some c) (hd : img[off + 1]? = some d) :
    read? big 2 img off =
      some (if big then 256 * c.toNat + d.toNat else c.toNat + 256 * d.toNat) := by
  obtain ⟨hlen, -⟩ := List.getElem?_eq_some_iff.1 hd
  have hslice : slice img off 2 = [c, d] := by
    apply List.ext_getElem?
    intro i
    rw [getElem?_slice]
    rcases i with _ | _ | i
    · exact hc
    · exact hd
    · rfl
  rw [read?, slice?_of_le hlen, hslice, Option.map_some]
  cases big with
  | true =>
    simp only [ofOrdered, List.reverse_cons, List.reverse_nil, List.nil_append, List.cons_append, ofLE,
      if_true]
    congr 1
    omega
  | false => rfl

/-- The low half of a number of four bytes is read at its place in the order told. -/
theorem read?_four_mod (h : off + 4 ≤ img.length) : (read? big 4 img off).map (· % 65536) =
    read? big 2 img (if big then off + 2 else off) := by
  obtain ⟨b, hb⟩ : ∃ b, img[off]? = some b := ⟨_, List.getElem?_eq_getElem (by omega)⟩
  obtain ⟨c, hc⟩ : ∃ c, img[off + 1]? = some c := ⟨_, List.getElem?_eq_getElem (by omega)⟩
  obtain ⟨d, hd⟩ : ∃ d, img[off + 2]? = some d := ⟨_, List.getElem?_eq_getElem (by omega)⟩
  obtain ⟨e, he⟩ : ∃ e, img[off + 3]? = some e := ⟨_, List.getElem?_eq_getElem (by omega)⟩
  have hslice : slice img off 4 = [b, c, d, e] := by
    apply List.ext_getElem?
    intro i
    rw [getElem?_slice]
    rcases i with _ | _ | _ | _ | i
    · exact hb
    · exact hc
    · exact hd
    · exact he
    · exact if_neg (by omega)
  have blt := b.toNat_lt
  have clt := c.toNat_lt
  have dlt := d.toNat_lt
  have elt := e.toNat_lt
  rw [read?, slice?_of_le h, hslice, Option.map_some, Option.map_some]
  cases big with
  | true =>
    rw [if_pos rfl, @read?_two img true (off + 2) d e hd he, if_pos rfl]
    simp only [ofOrdered, List.reverse_cons, List.reverse_nil, List.nil_append, List.cons_append, ofLE,
      if_true, Option.some.injEq]
    omega
  | false =>
    rw [if_neg Bool.false_ne_true, @read?_two img false off b c hb hc,
      if_neg Bool.false_ne_true]
    simp only [ofOrdered, Bool.false_eq_true, if_false, ofLE, Option.some.injEq]
    omega

theorem slice?_write_of_apart (h : a + n ≤ off ∨ off + bs.length ≤ a) :
    slice? (write img off bs) a n = slice? img a n := by
  rw [slice?, slice?, length_write, slice_write_of_apart h]

/-- What is not written over reads as it did. -/
theorem read?_write_of_apart (h : a + k ≤ off ∨ off + bs.length ≤ a) :
    read? big k (write img off bs) a = read? big k img a := by
  rw [read?, read?, slice?_write_of_apart h]

/-- A number that is written is read. -/
theorem read?_write (h : off + k ≤ img.length) :
    read? big k (write img off (ordered big k v)) off = some (v % 256 ^ k) := by
  have hlen : (ordered big k v).length = k := length_ordered
  have hback : slice (write img off (ordered big k v)) off k = ordered big k v := by
    have h := @slice_write img (ordered big k v) off (by omega)
    rwa [hlen] at h
  rw [read?, slice?_of_le (by rwa [length_write]), hback, Option.map_some, ofOrdered_ordered]

end

/-! ## Reading a number in both orders -/

/-- The number that stands at an offset in both orders, where they agree. -/
def both? (k : ℕ) (r : Bytes) (off : ℕ) : Option ℕ :=
  let v := ofLE (slice r off k)
  if v = ofLE (slice r (off + k) k).reverse then some v else none

theorem both?_eq {k v off : ℕ} {r : Bytes} (h : slice r off (k + k) = both k v) :
    both? k r off = some (v % 256 ^ k) := by
  rw [slice_add, both] at h
  obtain ⟨hlow, hhigh⟩ := List.append_inj' h (by
    have hlen := congrArg List.length h
    simp only [List.length_append, length_le, length_be] at hlen
    have hbound : (slice r off k).length ≤ k := List.length_take_le _ _
    have hbound' : (slice r (off + k) k).length ≤ k := List.length_take_le _ _
    rw [length_be]
    omega)
  rw [both?, hlow, hhigh, be, List.reverse_reverse, ofLE_le]
  exact if_pos rfl

end Aurade
