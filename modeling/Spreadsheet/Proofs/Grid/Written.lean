import Spreadsheet.Grid.Address
import Spreadsheet.Proofs.Text.Numeral

/-! # Written addresses are read back

* `lettersValue_columnLetters`: a column's letters, as a numeral without a digit zero, have the value one above the
  column's number.
* `ofParts?_eq_some`: the letters and the digits name the address on the grid that has their values. -/

set_option autoImplicit false

namespace Spreadsheet.Grid

open Text

/-! ## Columns -/

theorem isLetter_letter (n : Nat) : isLetter (letter n) = true := by
  have h : ∀ d, d < 26 → isLetter (Char.ofNat (65 + d)) = true := by decide
  exact h (n % 26) (by omega)

theorem letterValue_letter (n : Nat) : letterValue (letter n) = n % 26 + 1 := by
  have h : ∀ d, d < 26 → letterValue (Char.ofNat (65 + d)) = d + 1 := by decide
  exact h (n % 26) (by omega)

theorem lettersValue_append_letter (s : List Char) (n : Nat) :
    lettersValue (s ++ [letter n]) = 26 * lettersValue s + (n % 26 + 1) := by
  rw [lettersValue, List.foldl_append, List.foldl_cons, List.foldl_nil, letterValue_letter]
  rfl

theorem columnLetters_ne_nil (n : Nat) : columnLetters n ≠ [] := by
  rw [columnLetters]
  split
  · exact List.cons_ne_nil _ _
  · exact List.append_ne_nil_of_right_ne_nil _ (List.cons_ne_nil _ _)

theorem isLetter_of_mem_columnLetters {n : Nat} {c : Char} (h : c ∈ columnLetters n) : isLetter c = true := by
  induction n using Nat.strongRecOn with
  | ind n ih =>
    rw [columnLetters] at h
    split at h
    next =>
      rw [List.mem_singleton.mp h]
      exact isLetter_letter n
    next hn =>
      obtain h | h := List.mem_append.mp h
      · exact ih (n / 26 - 1) (by omega) h
      · rw [List.mem_singleton.mp h]
        exact isLetter_letter n

theorem lettersValue_columnLetters (n : Nat) : lettersValue (columnLetters n) = n + 1 := by
  induction n using Nat.strongRecOn with
  | ind n ih =>
    rw [columnLetters]
    split
    next hn =>
      have h := lettersValue_append_letter [] n
      rw [List.nil_append] at h
      rw [h]
      simp only [lettersValue, List.foldl_nil]
      omega
    next hn =>
      rw [lettersValue_append_letter, ih (n / 26 - 1) (by omega)]
      omega

theorem letterValue_pos {c : Char} (h : isLetter c = true) : 1 ≤ letterValue c := by
  simp only [isLetter, Bool.and_eq_true, decide_eq_true_eq] at h
  have hlow : 65 ≤ c.toNat := h.1
  rw [letterValue]
  omega

theorem lettersValue_pos {s : List Char} (hs : ∀ c ∈ s, isLetter c = true) (hne : s ≠ []) : 1 ≤ lettersValue s := by
  have hlast := letterValue_pos (hs _ (List.getLast_mem hne))
  rw [← List.dropLast_concat_getLast hne, lettersValue, List.foldl_append, List.foldl_cons, List.foldl_nil]
  omega

/-! ### Words of 32 bits -/

theorem word?_eq_some {n : Nat} {w : UInt32} : word? n = some w ↔ n = w.toNat := by
  rw [word?]
  constructor
  · intro h
    split at h
    next hlt =>
      cases h
      exact (UInt32.toNat_ofNat_of_lt' hlt).symm
    next => cases h
  · rintro rfl
    rw [if_pos w.toNat_lt_size, UInt32.ofNat_toNat]

/-- One more letter is read when the exact value is a word: the product is not greater. -/
theorem extended?_eq_some {n m : UInt32} {c : Char} :
    extended? n c = some m ↔ isLetter c = true ∧ 26 * n.toNat + letterValue c = m.toNat := by
  rw [extended?]
  constructor
  · intro h
    split at h
    next hc =>
      obtain ⟨k, hk, hm⟩ := Option.bind_eq_some_iff.mp h
      rw [word?_eq_some] at hk hm
      exact ⟨hc, by omega⟩
    next => cases h
  · rintro ⟨hc, hvalue⟩
    have hsize := m.toNat_lt_size
    have hproduct : (UInt32.ofNat (n.toNat * 26)).toNat = n.toNat * 26 := UInt32.toNat_ofNat_of_lt' (by omega)
    rw [if_pos hc, Option.bind_eq_some_iff]
    exact ⟨UInt32.ofNat (n.toNat * 26), word?_eq_some.mpr hproduct.symm, word?_eq_some.mpr (by omega)⟩

theorem le_foldl_letterValue (s : List Char) (n : Nat) : n ≤ s.foldl (fun n c => 26 * n + letterValue c) n := by
  induction s generalizing n with
  | nil => exact Nat.le_refl n
  | cons c s ih =>
    have h := ih (26 * n + letterValue c)
    rw [List.foldl_cons]
    omega

/-- The value that is found in words is the exact one. A value that is no word does not become one again, because more letters
only make it greater. -/
theorem foldlM_extended?_eq_some {s : List Char} {n m : UInt32} :
    s.foldlM extended? n = some m ↔
      (∀ c ∈ s, isLetter c = true) ∧ s.foldl (fun n c => 26 * n + letterValue c) n.toNat = m.toNat := by
  induction s generalizing n with
  | nil =>
    rw [List.foldlM_nil, List.foldl_nil, UInt32.toNat_inj]
    simp
  | cons c s ih =>
    rw [List.foldlM_cons, List.foldl_cons, List.forall_mem_cons]
    change (extended? n c).bind (fun k => s.foldlM extended? k) = some m ↔ _
    rw [Option.bind_eq_some_iff]
    constructor
    · rintro ⟨k, hk, hm⟩
      obtain ⟨hc, hvalue⟩ := extended?_eq_some.mp hk
      obtain ⟨hs, htotal⟩ := ih.mp hm
      rw [hvalue]
      exact ⟨⟨hc, hs⟩, htotal⟩
    · rintro ⟨⟨hc, hs⟩, htotal⟩
      have hle := le_foldl_letterValue s (26 * n.toNat + letterValue c)
      have hsize := m.toNat_lt_size
      have hword : (UInt32.ofNat (26 * n.toNat + letterValue c)).toNat = 26 * n.toNat + letterValue c :=
        UInt32.toNat_ofNat_of_lt' (by omega)
      refine ⟨UInt32.ofNat (26 * n.toNat + letterValue c), extended?_eq_some.mpr ⟨hc, hword.symm⟩, ih.mpr ⟨hs, ?_⟩⟩
      rw [hword]
      exact htotal

theorem readColumn?_eq_some {s : List Char} {n : Nat} :
    readColumn? s = some n ↔
      s ≠ [] ∧ (∀ c ∈ s, isLetter c = true) ∧ lettersValue s = n + 1 ∧ n < maxColumns := by
  unfold readColumn?
  constructor
  · intro h
    split at h
    · cases h
    next hne =>
      rw [List.isEmpty_iff] at hne
      obtain ⟨m, hm, h⟩ := Option.bind_eq_some_iff.mp h
      obtain ⟨hall, hvalue⟩ := foldlM_extended?_eq_some.mp hm
      replace hvalue : lettersValue s = m.toNat := hvalue
      have hpos := lettersValue_pos hall hne
      have hone : (1 : UInt32) ≤ m := UInt32.le_iff_toNat_le.mpr (by rw [← hvalue]; exact hpos)
      have hsub : (m - 1).toNat = m.toNat - 1 := UInt32.toNat_sub_of_le _ _ hone
      split at h
      next hlt =>
        cases h
        exact ⟨hne, hall, by omega, hlt⟩
      next => cases h
  · rintro ⟨hne, hall, hvalue, hlt⟩
    have hcolumns : maxColumns + 1 < UInt32.size := by decide
    have hword : (UInt32.ofNat (n + 1)).toNat = n + 1 := UInt32.toNat_ofNat_of_lt' (by omega)
    have hfold : s.foldlM extended? 0 = some (UInt32.ofNat (n + 1)) :=
      foldlM_extended?_eq_some.mpr ⟨hall, by rw [hword]; exact hvalue⟩
    have hone : (1 : UInt32) ≤ UInt32.ofNat (n + 1) := UInt32.le_iff_toNat_le.mpr (by rw [hword]; exact Nat.le_add_left 1 n)
    have hsub : (UInt32.ofNat (n + 1) - 1).toNat = n := by
      rw [UInt32.toNat_sub_of_le _ _ hone, hword]
      rfl
    rw [List.isEmpty_eq_false_iff.mpr hne, hfold, Option.bind_some, hsub, if_pos hlt]
    rfl

namespace Address

/-! ## Addresses -/

theorem readRow?_eq_some {s : List Char} {n : Nat} :
    readRow? s = some n ↔
      s ≠ [] ∧ (∀ c ∈ s, Numeral.isDigit c = true) ∧ Numeral.valueFrom 0 s = n ∧ 1 ≤ n ∧ n ≤ maxRows := by
  rw [readRow?]
  constructor
  · intro h
    split at h
    · cases h
    next hword =>
      simp only [Bool.or_eq_true, List.isEmpty_iff, Bool.not_eq_true', not_or, Bool.not_eq_false,
        List.all_eq_true] at hword
      obtain ⟨hread, hbounds⟩ := Option.filter_eq_some_iff.mp h
      simp only [Bool.and_eq_true, decide_eq_true_eq] at hbounds
      obtain ⟨hvalue, -⟩ := (Numeral.readWord?_eq_some hword.1 hword.2).mp hread
      exact ⟨hword.1, hword.2, hvalue, hbounds⟩
  · rintro ⟨hne, hall, hvalue, hlow, hhigh⟩
    have hrows : maxRows < Nat.pow 2 32 := by decide
    rw [List.isEmpty_eq_false_iff.mpr hne, List.all_eq_true.mpr hall, Bool.not_true, Bool.or_self, if_neg Bool.false_ne_true,
      Option.filter_eq_some_iff]
    exact ⟨(Numeral.readWord?_eq_some hne hall).mpr ⟨hvalue, by omega⟩, by simpa using ⟨hlow, hhigh⟩⟩

theorem eq_anchorMark_append (s : List Char) :
    s = anchorMark (splitAnchor s).1 ++ (splitAnchor s).2 := by
  unfold splitAnchor
  split
  · rfl
  · rfl

theorem splitAnchor_anchorMark (anchored : Bool) {s : List Char} (h : Halts (· == '$') s) :
    splitAnchor (anchorMark anchored ++ s) = (anchored, s) := by
  cases anchored with
  | true => rfl
  | false =>
    cases s with
    | nil => rfl
    | cons c s =>
      have hc : c ≠ '$' := by simpa using h c rfl
      simp only [anchorMark, Bool.false_eq_true, if_false, List.nil_append]
      unfold splitAnchor
      split
      next heq => exact absurd (List.cons.inj heq).1 hc
      next => rfl

theorem onGrid_ofNat {row column : Nat} (hlow : 1 ≤ row) (hhigh : row ≤ maxRows) (hcolumn : column < maxColumns)
    (rowAnchored columnAnchored : Bool) :
    OnGrid ⟨UInt32.ofNat row, UInt32.ofNat column, rowAnchored, columnAnchored⟩ := by
  rw [maxRows] at hhigh
  rw [maxColumns] at hcolumn
  have hrow : (UInt32.ofNat row).toNat = row := UInt32.toNat_ofNat_of_lt' (by change row < 4294967296; omega)
  have hcol : (UInt32.ofNat column).toNat = column := UInt32.toNat_ofNat_of_lt' (by change column < 4294967296; omega)
  rw [OnGrid, hrow, hcol, maxRows, maxColumns]
  omega

theorem onGrid_of_ofParts? {letters digits : List Char} {columnAnchored rowAnchored : Bool} {a : Address}
    (h : ofParts? columnAnchored letters rowAnchored digits = some a) : a.OnGrid := by
  unfold ofParts? at h
  split at h
  next column row hcolumn hrow =>
    cases h
    obtain ⟨-, -, -, hlt⟩ := readColumn?_eq_some.mp hcolumn
    obtain ⟨-, -, -, hlow, hhigh⟩ := readRow?_eq_some.mp hrow
    exact onGrid_ofNat hlow hhigh hlt _ _
  next => cases h

theorem ofParts?_eq_some {columnAnchored rowAnchored : Bool} {letters digits : List Char} {a : Address} :
    ofParts? columnAnchored letters rowAnchored digits = some a ↔
      a.columnAnchored = columnAnchored ∧ a.rowAnchored = rowAnchored ∧ letters ≠ [] ∧
        (∀ c ∈ letters, isLetter c = true) ∧ lettersValue letters = a.column.toNat + 1 ∧ digits ≠ [] ∧
        (∀ c ∈ digits, Numeral.isDigit c = true) ∧ Numeral.valueFrom 0 digits = a.row.toNat ∧ a.OnGrid := by
  constructor
  · intro h
    have hgrid := onGrid_of_ofParts? h
    unfold ofParts? at h
    split at h
    next column row hcolumn hrow =>
      cases h
      obtain ⟨hletters, hall, hvalue, hlt⟩ := readColumn?_eq_some.mp hcolumn
      obtain ⟨hdigits, hdigit, hnumber, hlow, hhigh⟩ := readRow?_eq_some.mp hrow
      rw [maxColumns] at hlt
      rw [maxRows] at hhigh
      have hrowWord : (UInt32.ofNat row).toNat = row :=
        UInt32.toNat_ofNat_of_lt' (by change row < 4294967296; omega)
      have hcolumnWord : (UInt32.ofNat column).toNat = column :=
        UInt32.toNat_ofNat_of_lt' (by change column < 4294967296; omega)
      exact ⟨rfl, rfl, hletters, hall, by rw [hcolumnWord]; exact hvalue, hdigits, hdigit,
        by rw [hrowWord]; exact hnumber, hgrid⟩
    next => cases h
  · rintro ⟨rfl, rfl, hletters, hall, hvalue, hdigits, hdigit, hnumber, hgrid⟩
    have hcolumn := readColumn?_eq_some.mpr ⟨hletters, hall, hvalue, hgrid.2.2⟩
    have hrow := readRow?_eq_some.mpr ⟨hdigits, hdigit, hnumber, hgrid.1, hgrid.2.1⟩
    rw [ofParts?, hcolumn, hrow]
    simp only [UInt32.ofNat_toNat]

theorem onGrid_of_read? {s : String} {a : Address} (h : read? s = some a) : a.OnGrid := onGrid_of_ofParts? h

end Address

end Spreadsheet.Grid
