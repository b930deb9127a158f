import Spreadsheet.Archive.Field

/-! # Fields, read and written

A header is a byte string that stands somewhere in an archive. Its fields are the same wherever it stands, so what is
read from the archive is a fact about the header alone.

* `numberAt`, `piece`: a field of a byte string as a total function.
* `Stands`: a byte string stands at a place of another.
* `capacity`: how many numbers a field holds.
* `numberAt_patch_self`, `piece_patch_of_disjoint`, `getElem?_patch`: what a written number changes. -/

set_option autoImplicit false

namespace Spreadsheet.Archive

/-! ## Numbers -/

def capacity : Nat → Nat
  | 0 => 1
  | width + 1 => 256 * capacity width

theorem capacity_mono {v w : Nat} (h : v ≤ w) : capacity v ≤ capacity w := by
  induction h with
  | refl => exact Nat.le_refl _
  | step _ ih => exact Nat.le_trans ih (Nat.le_mul_of_pos_left _ (by decide))

theorem number_numeral {width n : Nat} (h : n < capacity width) : number (numeral width n) = n := by
  induction width generalizing n with
  | zero =>
    obtain rfl : n = 0 := Nat.lt_one_iff.mp h
    rfl
  | succ width ih =>
    have hrest : n / 256 < capacity width := Nat.div_lt_of_lt_mul h
    have hfirst : (UInt8.ofNat n).toNat = n % 256 := by simp
    rw [numeral, number, ih hrest, hfirst]
    exact Nat.mod_add_div n 256

theorem number_lt (s : Bytes) : number s < capacity s.length := by
  induction s with
  | nil => exact Nat.one_pos
  | cons b s ih =>
    have hb : b.toNat < 256 := b.toNat_lt
    rw [number, List.length_cons, capacity]
    omega

theorem numeral_number (s : Bytes) : numeral s.length (number s) = s := by
  induction s with
  | nil => rfl
  | cons b s ih =>
    have hb : b.toNat < 256 := b.toNat_lt
    have hrest : (b.toNat + 256 * number s) / 256 = number s := by omega
    have hfirst : UInt8.ofNat (b.toNat + 256 * number s) = b := by
      apply UInt8.toNat_inj.mp
      simp
    rw [number, List.length_cons, numeral, hrest, hfirst, ih]

def piece (data : Bytes) (offset width : Nat) : Bytes := (data.drop offset).take width

def numberAt (data : Bytes) (offset width : Nat) : Nat := number (piece data offset width)

theorem length_piece {data : Bytes} {offset width : Nat} (h : offset + width ≤ data.length) :
    (piece data offset width).length = width := by
  rw [piece, List.length_take, List.length_drop]
  omega

theorem numberAt_lt (data : Bytes) (offset width : Nat) : numberAt data offset width < capacity width := by
  have hlength : (piece data offset width).length ≤ width := List.length_take_le _ _
  exact Nat.lt_of_lt_of_le (number_lt _) (capacity_mono hlength)

theorem numberAt_two_lt (data : Bytes) (offset : Nat) : numberAt data offset 2 < 0x10000 := numberAt_lt data offset 2

theorem numberAt_four_lt (data : Bytes) (offset : Nat) : numberAt data offset 4 < 0x100000000 := numberAt_lt data offset 4

theorem piece_zero_length (data : Bytes) : piece data 0 data.length = data := by
  rw [piece, List.drop_zero, List.take_length]

/-! ## Reading -/

theorem slice_of_le {data : Bytes} {offset size : Nat} (h : offset + size ≤ data.length) :
    slice data offset size = .ok (piece data offset size) := by
  rw [slice, if_pos h]
  rfl

theorem slice_eq_ok {data s : Bytes} {offset size : Nat} (h : slice data offset size = .ok s) :
    offset + size ≤ data.length ∧ s = piece data offset size := by
  by_cases hle : offset + size ≤ data.length
  · rw [slice_of_le hle] at h
    exact ⟨hle, (Except.ok.inj h).symm⟩
  · rw [slice, if_neg hle] at h
    cases h

/-! ## Bytes at a place -/

/-- A byte string stands at a place of another. -/
def Stands (data : Bytes) (position : Nat) (h : Bytes) : Prop :=
  ∃ before after, data = before ++ (h ++ after) ∧ before.length = position

theorem Stands.le {data h : Bytes} {position : Nat} (hs : Stands data position h) :
    position + h.length ≤ data.length := by
  obtain ⟨before, after, rfl, rfl⟩ := hs
  rw [List.length_append, List.length_append]
  omega

theorem Stands.piece {data h : Bytes} {position : Nat} (hs : Stands data position h) {o w : Nat}
    (hle : o + w ≤ h.length) : piece data (position + o) w = Archive.piece h o w := by
  obtain ⟨before, after, rfl, rfl⟩ := hs
  have hdrop : (before ++ (h ++ after)).drop (before.length + o) = h.drop o ++ after := by
    rw [← List.drop_drop, List.drop_left, List.drop_append_of_le_length (by omega)]
  rw [Archive.piece, hdrop, List.take_append_of_le_length (by rw [List.length_drop]; omega)]
  rfl

theorem Stands.slice {data h : Bytes} {position : Nat} (hs : Stands data position h) {o w : Nat}
    (hle : o + w ≤ h.length) : slice data (position + o) w = .ok (Archive.piece h o w) := by
  have := hs.le
  rw [slice_of_le (by omega), hs.piece hle]

theorem Stands.field {data h : Bytes} {position : Nat} (hs : Stands data position h) {o w : Nat}
    (hle : o + w ≤ h.length) : field data (position + o) w = .ok (numberAt h o w) := by
  rw [Archive.field, hs.slice hle]
  rfl

theorem Stands.whole {data h : Bytes} {position : Nat} (hs : Stands data position h) :
    Archive.slice data position h.length = .ok h := by
  have hslice := hs.slice (o := 0) (w := h.length) (by omega)
  rw [Nat.add_zero, piece_zero_length] at hslice
  exact hslice

theorem stands_of_slice {data s : Bytes} {offset size : Nat} (h : slice data offset size = .ok s) :
    Stands data offset s ∧ s.length = size := by
  obtain ⟨hle, rfl⟩ := slice_eq_ok h
  refine ⟨⟨data.take offset, (data.drop offset).drop size, ?_, ?_⟩, length_piece hle⟩
  · rw [piece, List.take_append_drop, List.take_append_drop]
  · rw [List.length_take]
    omega

theorem stands_append {data h t : Bytes} {position : Nat} :
    Stands data position (h ++ t) ↔ Stands data position h ∧ Stands data (position + h.length) t := by
  constructor
  · rintro ⟨before, after, rfl, rfl⟩
    refine ⟨⟨before, t ++ after, by rw [List.append_assoc], rfl⟩, ⟨before ++ h, after, ?_, ?_⟩⟩
    · simp only [List.append_assoc]
    · rw [List.length_append]
  · rintro ⟨⟨before, after, rfl, rfl⟩, ht⟩
    obtain ⟨front, rest, heq, hlength⟩ := ht
    rw [← List.append_assoc, ← List.length_append] at *
    obtain ⟨rfl, rfl⟩ := List.append_inj heq hlength.symm
    exact ⟨before, rest, by simp only [List.append_assoc], rfl⟩

theorem stands_nil_of_le {data : Bytes} {position : Nat} (h : position ≤ data.length) : Stands data position [] := by
  refine ⟨data.take position, data.drop position, ?_, ?_⟩
  · rw [List.nil_append, List.take_append_drop]
  · rw [List.length_take]
    omega

theorem stands_middle (before h after : Bytes) : Stands (before ++ (h ++ after)) before.length h :=
  ⟨before, after, rfl, rfl⟩

/-! ## Writing -/

theorem piece_patch_self {data : Bytes} {offset width n : Nat} (h : offset + width ≤ data.length) :
    piece (patch data offset width n) offset width = numeral width n := by
  have htake : (data.take offset).length = offset := by
    rw [List.length_take]
    omega
  rw [piece, patch, overwrite, List.append_assoc, List.drop_append_of_le_length (by omega),
    List.drop_of_length_le (by omega), List.nil_append, List.take_append_of_le_length (by simp),
    List.take_of_length_le (by simp)]

theorem numberAt_patch_self {data : Bytes} {offset width n : Nat} (h : offset + width ≤ data.length)
    (hn : n < capacity width) : numberAt (patch data offset width n) offset width = n := by
  rw [numberAt, piece_patch_self h, number_numeral hn]

theorem numberAt_patch_two {data : Bytes} {offset n : Nat} (h : offset + 2 ≤ data.length) (hn : n < 0x10000) :
    numberAt (patch data offset 2 n) offset 2 = n := numberAt_patch_self h hn

theorem numberAt_patch_four {data : Bytes} {offset n : Nat} (h : offset + 4 ≤ data.length) (hn : n < 0x100000000) :
    numberAt (patch data offset 4 n) offset 4 = n := numberAt_patch_self h hn

theorem piece_patch_of_disjoint {data : Bytes} {offset width n o w : Nat} (h : offset + width ≤ data.length)
    (hne : o + w ≤ offset ∨ offset + width ≤ o) : piece (patch data offset width n) o w = piece data o w := by
  have htake : (data.take offset).length = offset := by
    rw [List.length_take]
    omega
  rw [piece, piece, patch, overwrite, length_numeral]
  obtain hbefore | hbehind := hne
  · rw [List.append_assoc, List.drop_append_of_le_length (by omega),
      List.take_append_of_le_length (by rw [List.length_drop]; omega), List.drop_take, List.take_take,
      Nat.min_eq_left (by omega)]
  · have hfront : (data.take offset ++ numeral width n).length = offset + width := by
      rw [List.length_append, htake, length_numeral]
    obtain ⟨k, rfl⟩ : ∃ k, o = offset + width + k := ⟨o - (offset + width), by omega⟩
    rw [← hfront, ← List.drop_drop, List.drop_left, List.drop_drop, hfront]

theorem patch_numberAt {data : Bytes} {offset width : Nat} (h : offset + width ≤ data.length) :
    patch data offset width (numberAt data offset width) = data := by
  have hnumeral : numeral width (numberAt data offset width) = (data.drop offset).take width := by
    have hself := numeral_number (piece data offset width)
    rw [length_piece h] at hself
    exact hself
  have hlength : ((data.drop offset).take width).length = width := length_piece h
  rw [patch, overwrite, hnumeral, hlength, List.append_assoc, ← List.drop_drop, List.take_append_drop,
    List.take_append_drop]

theorem getElem?_patch {data : Bytes} {offset width n : Nat} (h : offset + width ≤ data.length) (i : Nat) :
    (patch data offset width n)[i]? =
      if offset ≤ i ∧ i < offset + width then (numeral width n)[i - offset]? else data[i]? := by
  have htake : (data.take offset).length = offset := by
    rw [List.length_take]
    omega
  rw [patch, overwrite, List.append_assoc, length_numeral]
  by_cases hbefore : i < offset
  · rw [List.getElem?_append_left (by omega), List.getElem?_take_of_lt hbefore, if_neg (by omega)]
  by_cases hinside : i < offset + width
  · rw [List.getElem?_append_right (by omega), htake, List.getElem?_append_left (by simp; omega), if_pos (by omega)]
  · rw [List.getElem?_append_right (by omega), htake, List.getElem?_append_right (by simp; omega), length_numeral,
      List.getElem?_drop, if_neg (by omega)]
    congr 1
    omega

end Spreadsheet.Archive
