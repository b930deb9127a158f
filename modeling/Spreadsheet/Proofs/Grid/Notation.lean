import Mathlib.Data.List.Induction
import Mathlib.Data.Nat.Digits.Defs
import Spreadsheet.Proofs.Grid.Written

/-! # The notation of addresses

An address is written with the letters of its column and the digits of its row, each with an optional anchor mark before it.
The letters are the digits 1 to 26 of a numeral to base 26, so each column has one name; the digits may begin with zeros.

* `Spells`: the letters and the digits of an address, by the numbers that they are in their bases.
* `ofNat_valueFrom`: the digits of the value of some digits are those, without the zeros before them.
* `columnLetters_of_lettersValue`: letters are the name of the column that they name.
* `read?_iff_spells`: the texts that are read as an address, what the address is, and how it is written. -/

set_option autoImplicit false

namespace Spreadsheet.Text.Numeral

/-! ## Zeros before a number -/

theorem dropWhile_zero_of_valueFrom {s : List Char} (hs : ∀ c ∈ s, isDigit c = true) (h : valueFrom 0 s = 0) :
    s.dropWhile (· == '0') = [] := by
  induction s using List.reverseRecOn with
  | nil => rfl
  | append_singleton s c ih =>
    rw [valueFrom_concat] at h
    have hc : c = '0' := eq_zero_of_value (hs c (List.mem_append_right _ (List.mem_singleton_self c))) (by omega)
    rw [List.dropWhile_append, ih (fun d hd => hs d (List.mem_append_left _ hd)) (by omega), hc]
    rfl

theorem ofNat_valueFrom {s : List Char} (hs : ∀ c ∈ s, isDigit c = true) (h : valueFrom 0 s ≠ 0) :
    ofNat (valueFrom 0 s) = s.dropWhile (· == '0') := by
  induction s using List.reverseRecOn with
  | nil => exact absurd rfl h
  | append_singleton s c ih =>
    have hc := hs c (List.mem_append_right _ (List.mem_singleton_self c))
    replace hs : ∀ d ∈ s, isDigit d = true := fun d hd => hs d (List.mem_append_left _ hd)
    have hle := value_le hc
    rw [valueFrom_concat] at h ⊢
    have hlast : digit (10 * valueFrom 0 s + value c) = c := digit_of_value hc (by omega)
    rw [ofNat, hlast, List.dropWhile_append]
    by_cases hzero : valueFrom 0 s = 0
    · have hne : c ≠ '0' := by
        rintro rfl
        exact h (by rw [hzero]; rfl)
      rw [dropWhile_zero_of_valueFrom hs hzero, if_pos (by omega), List.isEmpty_nil, if_pos rfl,
        List.dropWhile_cons_of_neg (by simpa using hne)]
    · have hquotient : (10 * valueFrom 0 s + value c) / 10 = valueFrom 0 s := by omega
      have hne : (s.dropWhile (· == '0')).isEmpty = false := by
        rw [List.isEmpty_eq_false_iff, ← ih hs hzero]
        exact ofNat_ne_nil _
      rw [if_neg (by omega), hquotient, ih hs hzero, hne, if_neg Bool.false_ne_true]

end Spreadsheet.Text.Numeral

namespace Spreadsheet.Grid

open Text

/-! ## Numbers in their bases -/

theorem lettersValue_eq_ofDigits (s : List Char) : lettersValue s = Nat.ofDigits 26 (s.reverse.map letterValue) := by
  induction s using List.reverseRecOn with
  | nil => rfl
  | append_singleton s c ih =>
    rw [lettersValue, List.foldl_append, List.foldl_cons, List.foldl_nil, List.reverse_append, List.reverse_singleton,
      List.singleton_append, List.map_cons, Nat.ofDigits_cons, ← ih, Nat.add_comm]
    rfl

theorem valueFrom_eq_ofDigits (s : List Char) :
    Numeral.valueFrom 0 s = Nat.ofDigits 10 (s.reverse.map Numeral.value) := by
  induction s using List.reverseRecOn with
  | nil => rfl
  | append_singleton s c ih =>
    rw [Numeral.valueFrom, List.foldl_append, List.foldl_cons, List.foldl_nil, List.reverse_append, List.reverse_singleton,
      List.singleton_append, List.map_cons, Nat.ofDigits_cons, ← ih, Nat.add_comm]
    rfl

/-! ## The name of a column -/

theorem isLetter_iff {c : Char} : isLetter c = true ↔ 'A' ≤ c ∧ c ≤ 'Z' := by
  simp only [isLetter, Bool.and_eq_true, decide_eq_true_eq]

theorem letterValue_le {c : Char} (h : isLetter c = true) : letterValue c ≤ 26 := by
  have hhigh : c.toNat ≤ 90 := (isLetter_iff.mp h).2
  rw [letterValue]
  omega

theorem letter_of_letterValue {c : Char} (h : isLetter c = true) {n : Nat} (hn : n % 26 = letterValue c - 1) :
    letter n = c := by
  have hlow : 65 ≤ c.toNat := (isLetter_iff.mp h).1
  have hcode : 65 + n % 26 = c.toNat := by
    rw [hn, letterValue]
    omega
  rw [letter, hcode, Char.ofNat_toNat]

theorem columnLetters_of_lettersValue {s : List Char} (hs : ∀ c ∈ s, isLetter c = true) (hne : s ≠ []) {n : Nat}
    (h : lettersValue s = n + 1) : columnLetters n = s := by
  induction s using List.reverseRecOn generalizing n with
  | nil => exact absurd rfl hne
  | append_singleton s c ih =>
    have hc : isLetter c = true := hs c (List.mem_append_right _ (List.mem_singleton_self c))
    replace hs : ∀ d ∈ s, isLetter d = true := fun d hd => hs d (List.mem_append_left _ hd)
    have hlow := letterValue_pos hc
    have hhigh := letterValue_le hc
    have hvalue : 26 * lettersValue s + letterValue c = n + 1 := by
      rw [← h, lettersValue, lettersValue, List.foldl_append, List.foldl_cons, List.foldl_nil]
    have hletter : letter n = c := letter_of_letterValue hc (by omega)
    rw [columnLetters, hletter]
    by_cases hempty : s = []
    · subst hempty
      have hzero : lettersValue [] = 0 := rfl
      rw [if_pos (by omega), List.nil_append]
    · have hpos := lettersValue_pos hs hempty
      rw [if_neg (by omega), ih hs hempty (by omega)]

namespace Address

/-! ## Addresses -/

/-- The letters and the digits of an address of the grid. There is no digit zero among the letters, and the columns count
from zero. -/
structure Spells (letters digits : List Char) (a : Address) : Prop where
  areLetters : letters ≠ [] ∧ ∀ c ∈ letters, 'A' ≤ c ∧ c ≤ 'Z'
  areDigits : digits ≠ [] ∧ ∀ c ∈ digits, '0' ≤ c ∧ c ≤ '9'
  column : Nat.ofDigits 26 (letters.reverse.map letterValue) = a.column.toNat + 1
  row : Nat.ofDigits 10 (digits.reverse.map Numeral.value) = a.row.toNat
  onGrid : a.column.toNat < 16384 ∧ 1 ≤ a.row.toNat ∧ a.row.toNat ≤ 1048576

def marked (a : Address) (letters digits : List Char) : List Char :=
  anchorMark a.columnAnchored ++ letters ++ (anchorMark a.rowAnchored ++ digits)

theorem ofParts?_iff_spells {columnAnchored rowAnchored : Bool} {letters digits : List Char} {a : Address} :
    ofParts? columnAnchored letters rowAnchored digits = some a ↔
      a.columnAnchored = columnAnchored ∧ a.rowAnchored = rowAnchored ∧ Spells letters digits a := by
  rw [ofParts?_eq_some, lettersValue_eq_ofDigits, valueFrom_eq_ofDigits]
  constructor
  · rintro ⟨hcolumnMark, hrowMark, hletters, hall, hcolumn, hdigits, hdigit, hrow, hlow, hhigh, hwidth⟩
    refine ⟨hcolumnMark, hrowMark, ⟨hletters, fun c hc => isLetter_iff.mp (hall c hc)⟩, ⟨hdigits, fun c hc => ?_⟩, hcolumn, hrow,
      hwidth, hlow, hhigh⟩
    simpa only [Numeral.isDigit, Bool.and_eq_true, decide_eq_true_eq] using hdigit c hc
  · rintro ⟨hcolumnMark, hrowMark, h⟩
    refine ⟨hcolumnMark, hrowMark, h.areLetters.1, fun c hc => isLetter_iff.mpr (h.areLetters.2 c hc), h.column, h.areDigits.1,
      fun c hc => ?_, h.row, h.onGrid.2.1, h.onGrid.2.2, h.onGrid.1⟩
    simpa only [Numeral.isDigit, Bool.and_eq_true, decide_eq_true_eq] using h.areDigits.2 c hc

variable {letters digits : List Char} {a : Address}

theorem not_isLetter_dollar : isLetter '$' = false := by decide

theorem not_isDigit_dollar : Numeral.isDigit '$' = false := by decide

theorem halts_dollar_of_areLetters (hne : letters ≠ []) (hall : ∀ c ∈ letters, isLetter c = true) (t : List Char) :
    Halts (· == '$') (letters ++ t) := by
  refine halts_word hne (fun c hc => ?_) t
  rw [beq_eq_false_iff_ne]
  rintro rfl
  exact Bool.false_ne_true (not_isLetter_dollar.symm.trans (hall _ hc))

theorem halts_dollar_of_areDigits (hall : ∀ c ∈ digits, Numeral.isDigit c = true) : Halts (· == '$') digits := by
  intro c hc
  rw [beq_eq_false_iff_ne]
  rintro rfl
  exact Bool.false_ne_true (not_isDigit_dollar.symm.trans (hall _ (List.mem_of_mem_head? hc)))

theorem not_isLetter_of_isDigit {c : Char} (h : Numeral.isDigit c = true) : isLetter c = false := by
  simp only [Numeral.isDigit, Bool.and_eq_true, decide_eq_true_eq] at h
  have hhigh : c.toNat ≤ 57 := h.2
  rw [← Bool.not_eq_true, isLetter_iff]
  rintro ⟨hlow, -⟩
  have hlow : 65 ≤ c.toNat := hlow
  omega

theorem halts_isLetter_row (rowAnchored : Bool) (hall : ∀ c ∈ digits, Numeral.isDigit c = true) :
    Halts isLetter (anchorMark rowAnchored ++ digits) := by
  cases rowAnchored with
  | true => exact halts_cons not_isLetter_dollar
  | false => exact fun c hc => not_isLetter_of_isDigit (hall c (List.mem_of_mem_head? hc))

theorem readChars?_marked (hletters : letters ≠ [] ∧ ∀ c ∈ letters, isLetter c = true)
    (hdigits : ∀ c ∈ digits, Numeral.isDigit c = true) (columnAnchored rowAnchored : Bool) :
    readChars? (anchorMark columnAnchored ++ letters ++ (anchorMark rowAnchored ++ digits)) =
      ofParts? columnAnchored letters rowAnchored digits := by
  have hrow := halts_isLetter_row rowAnchored hdigits
  rw [readChars?, List.append_assoc, splitAnchor_anchorMark _ (halts_dollar_of_areLetters hletters.1 hletters.2 _)]
  dsimp only
  rw [takeWhile_run hletters.2 hrow, dropWhile_run hletters.2 hrow,
    splitAnchor_anchorMark _ (halts_dollar_of_areDigits hdigits)]

theorem readChars?_eq_some {s : List Char} : readChars? s = some a ↔ ∃ letters digits, s = a.marked letters digits ∧
    Spells letters digits a := by
  constructor
  · intro h
    replace h : ofParts? (splitAnchor s).1 ((splitAnchor s).2.takeWhile isLetter)
      (splitAnchor ((splitAnchor s).2.dropWhile isLetter)).1 (splitAnchor ((splitAnchor s).2.dropWhile isLetter)).2 =
        some a := h
    obtain ⟨hcolumnMark, hrowMark, hspells⟩ := ofParts?_iff_spells.mp h
    refine ⟨_, _, ?_, hspells⟩
    rw [marked, hcolumnMark, hrowMark, ← eq_anchorMark_append, List.append_assoc, List.takeWhile_append_dropWhile,
      ← eq_anchorMark_append]
  · rintro ⟨letters, digits, rfl, h⟩
    have hparts := ofParts?_iff_spells.mpr ⟨rfl, rfl, h⟩
    obtain ⟨-, -, hletters, hall, -, -, hdigit, -⟩ := ofParts?_eq_some.mp hparts
    rw [marked, readChars?_marked ⟨hletters, hall⟩ hdigit, hparts]

/-- An address is written with its letters, and with its digits but for the zeros before them. -/
theorem Spells.chars (h : Spells letters digits a) : a.chars = a.marked letters (digits.dropWhile (· == '0')) := by
  obtain ⟨-, -, hletters, hall, hcolumn, -, hdigit, hrow, hgrid⟩ := ofParts?_eq_some.mp (ofParts?_iff_spells.mpr ⟨rfl, rfl, h⟩)
  have hpos : Numeral.valueFrom 0 digits ≠ 0 := by
    rw [hrow]
    exact Nat.one_le_iff_ne_zero.mp hgrid.1
  rw [Address.chars, marked, columnLetters_of_lettersValue hall hletters hcolumn, ← hrow, Numeral.ofNat_valueFrom hdigit hpos]

theorem OnGrid.spells (h : a.OnGrid) : Spells (columnLetters a.column.toNat) (Numeral.ofNat a.row.toNat) a := by
  refine (ofParts?_iff_spells.mp (ofParts?_eq_some.mpr ⟨rfl, rfl, columnLetters_ne_nil _, fun _ hc =>
    isLetter_of_mem_columnLetters hc, lettersValue_columnLetters _, Numeral.ofNat_ne_nil _, fun _ hc =>
    Numeral.isDigit_of_mem_ofNat hc, Numeral.valueFrom_ofNat _, h⟩)).2.2

/-- A text is read as an address exactly when it is made of an optional mark, letters, an optional mark and digits whose
numbers are a column and a row of the grid, however long they are; the address has that column and row and those marks. It is
written as the text is, without the zeros before the row. Every address of the grid is read back from its text. -/
theorem read?_iff_spells :
    (∀ (s : String) (a : Address), read? s = some a ↔
      ∃ letters digits, s.toList = a.marked letters digits ∧ Spells letters digits a) ∧
    (∀ (s : String) (a : Address) (letters digits : List Char), s.toList = a.marked letters digits →
      Spells letters digits a → a.text = String.ofList (a.marked letters (digits.dropWhile (· == '0')))) ∧
    ∀ a : Address, a.OnGrid → read? a.text = some a := by
  refine ⟨fun s a => readChars?_eq_some, fun s a letters digits _ h => ?_, fun a h => ?_⟩
  · rw [text, h.chars]
  · rw [read?, text, String.toList_ofList]
    exact readChars?_eq_some.mpr ⟨_, _, rfl, h.spells⟩

def lastCell : Address := ⟨1048576, 16383, true, true⟩

theorem read?_iff_spells_lastCell :
    ("$XFD$01048576".toList = lastCell.marked ['X', 'F', 'D'] "01048576".toList ∧
      Spells ['X', 'F', 'D'] "01048576".toList lastCell ∧
      lastCell.text = String.ofList (lastCell.marked ['X', 'F', 'D'] ("01048576".toList.dropWhile (· == '0')))) ∧
    lastCell.OnGrid ∧ read? lastCell.text = some lastCell := by
  have hspells : Spells ['X', 'F', 'D'] "01048576".toList lastCell :=
    ⟨by simp, by simp, by decide, by decide, by decide⟩
  have hgrid : lastCell.OnGrid := by decide
  have hmarked : "$XFD$01048576".toList = lastCell.marked ['X', 'F', 'D'] "01048576".toList := by decide
  exact ⟨⟨hmarked, hspells, read?_iff_spells.2.1 _ _ _ _ hmarked hspells⟩, hgrid, read?_iff_spells.2.2 _ hgrid⟩

end Address

end Spreadsheet.Grid
