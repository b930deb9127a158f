import Mathlib.Data.List.Shortlex
import Spreadsheet.Proofs.Grid.Notation

/-! # The numbering of the columns

The names of the columns are all words of letters, shorter words first and words of one length in the order of the alphabet, and
the numbers count them from zero.

* `nameInWords`: the name of a column found in words of 32 bits, from the names of the quotient and of the remainder.
* `lettersValue_lt_iff`: values of letters are ordered as the letters are, by induction from the last letter.
* `columnName_numbers`: names and numbers belong to each other one by one, in order, and only names of the grid's columns are
  read. -/

set_option autoImplicit false

namespace Spreadsheet.Grid

/-! ## Names found in words of 32 bits -/

theorem toNat_quotient {n : UInt32} (h : ¬n < 26) : (n / 26 - 1).toNat = n.toNat / 26 - 1 := by
  have hle : 26 ≤ n.toNat := Nat.le_of_not_lt h
  have hone : 1 ≤ n / 26 := by
    rw [UInt32.le_iff_toNat_le, UInt32.toNat_div]
    change 1 ≤ n.toNat / 26
    omega
  rw [UInt32.toNat_sub_of_le _ _ hone, UInt32.toNat_div]
  rfl

theorem toNat_remainder (n : UInt32) : (n % 26).toNat = n.toNat % 26 := UInt32.toNat_mod n 26

/-- The name of a column. The letter of a number below 26 is found in a byte. -/
def nameInWords (n : UInt32) : String :=
  if n < 26 then String.singleton (Char.ofUInt8 (65 + n.toUInt8))
  else nameInWords (n / 26 - 1) ++ nameInWords (n % 26)
termination_by n.toNat
decreasing_by
  · have hle : 26 ≤ n.toNat := Nat.le_of_not_lt ‹¬n < 26›
    rw [toNat_quotient ‹¬n < 26›]
    omega
  · have hle : 26 ≤ n.toNat := Nat.le_of_not_lt ‹¬n < 26›
    rw [toNat_remainder]
    omega

theorem columnLetters_of_lt {n : Nat} (h : n < 26) : columnLetters n = [letter n] := by
  rw [columnLetters, if_pos h]

theorem letter_mod (n : Nat) : letter (n % 26) = letter n := by
  rw [letter, letter, Nat.mod_mod]

theorem ofUInt8_eq_letter {n : UInt32} (h : n < 26) : Char.ofUInt8 (65 + n.toUInt8) = letter n.toNat := by
  have hall : ∀ k, k < 26 → Char.ofUInt8 (65 + UInt8.ofNat k) = letter k := by decide
  have hbyte : n.toUInt8 = UInt8.ofNat n.toNat := by simp
  rw [hbyte]
  exact hall n.toNat h

theorem nameInWords_eq (n : UInt32) : nameInWords n = columnName n.toNat := by
  fun_induction nameInWords n with
  | case1 n h =>
    have hlt : n.toNat < 26 := h
    rw [columnName, columnLetters_of_lt hlt, ofUInt8_eq_letter h]
    rfl
  | case2 n h ihq ihr =>
    have hge : ¬n.toNat < 26 := h
    rw [ihq, ihr, toNat_quotient h, toNat_remainder, columnName, columnName, columnName, columnLetters.eq_def n.toNat, if_neg hge,
      columnLetters_of_lt (Nat.mod_lt _ (by decide)), letter_mod, String.ofList_append]

/-! ## Words of letters in order -/

theorem lex_concat {s t : List Char} {a b : Char} (h : s.length = t.length) :
    List.Lex (· < ·) (s ++ [a]) (t ++ [b]) ↔ List.Lex (· < ·) s t ∨ s = t ∧ a < b := by
  induction s generalizing t with
  | nil =>
    obtain rfl := List.length_eq_zero_iff.mp h.symm
    simp
  | cons x s ih =>
    cases t with
    | nil => simp at h
    | cons y t =>
      have ih := ih (Nat.succ.inj h)
      simp [List.cons_lex_cons_iff, ih]
      tauto

theorem shortlex_concat {s t : List Char} {a b : Char} :
    List.Shortlex (· < ·) (s ++ [a]) (t ++ [b]) ↔ List.Shortlex (· < ·) s t ∨ s = t ∧ a < b := by
  rw [List.shortlex_def, List.shortlex_def]
  by_cases h : s.length = t.length
  · simp [h, lex_concat h]
  · have hne : s ≠ t := fun heq => h (congrArg List.length heq)
    simp [h, hne]

theorem letterValue_lt_iff {c d : Char} (hc : isLetter c = true) (hd : isLetter d = true) :
    letterValue c < letterValue d ↔ c < d := by
  have hcpos := letterValue_pos hc
  have hdpos := letterValue_pos hd
  change _ ↔ c.toNat < d.toNat
  rw [letterValue, letterValue] at *
  omega

theorem lettersValue_concat (s : List Char) (c : Char) :
    lettersValue (s ++ [c]) = 26 * lettersValue s + letterValue c := by
  rw [lettersValue, List.foldl_append]
  rfl

theorem lettersValue_eq_zero {s : List Char} (hs : ∀ c ∈ s, isLetter c = true) : lettersValue s = 0 ↔ s = [] := by
  refine ⟨fun h => ?_, fun h => by rw [h]; rfl⟩
  by_contra hne
  have hpos := lettersValue_pos hs hne
  omega

theorem lettersValue_inj {s t : List Char} (hs : ∀ c ∈ s, isLetter c = true) (ht : ∀ c ∈ t, isLetter c = true) :
    lettersValue s = lettersValue t ↔ s = t := by
  refine ⟨fun h => ?_, congrArg lettersValue⟩
  by_cases hne : s = []
  · rw [hne] at h ⊢
    exact ((lettersValue_eq_zero ht).mp h.symm).symm
  · have hpos := lettersValue_pos hs hne
    have hne' : t ≠ [] := fun hnil => hne ((lettersValue_eq_zero hs).mp (h.trans ((lettersValue_eq_zero ht).mpr hnil)))
    obtain ⟨n, hn⟩ : ∃ n, lettersValue s = n + 1 := ⟨lettersValue s - 1, by omega⟩
    exact (columnLetters_of_lettersValue hs hne hn).symm.trans (columnLetters_of_lettersValue ht hne' (h.symm.trans hn))

theorem lettersValue_lt_iff {s t : List Char} (hs : ∀ c ∈ s, isLetter c = true) (ht : ∀ c ∈ t, isLetter c = true) :
    lettersValue s < lettersValue t ↔ List.Shortlex (· < ·) s t := by
  induction s using List.reverseRecOn generalizing t with
  | nil =>
    have hzero : lettersValue [] = 0 := rfl
    rw [hzero, Nat.pos_iff_ne_zero, Ne, lettersValue_eq_zero ht]
    cases t with
    | nil => simp
    | cons c t => simp [List.shortlex_def]
  | append_singleton s a ih =>
    cases t using List.reverseRecOn with
    | nil => simp [lettersValue]
    | append_singleton t b =>
      have ha := hs a (by simp)
      have hb := ht b (by simp)
      replace hs : ∀ c ∈ s, isLetter c = true := fun c hc => hs c (by simp [hc])
      replace ht : ∀ c ∈ t, isLetter c = true := fun c hc => ht c (by simp [hc])
      have hapos := letterValue_pos ha
      have hbpos := letterValue_pos hb
      have hale := letterValue_le ha
      have hble := letterValue_le hb
      rw [lettersValue_concat, lettersValue_concat, shortlex_concat, ← ih hs ht, ← lettersValue_inj hs ht,
        ← letterValue_lt_iff ha hb]
      omega

/-! ## Names and numbers -/

theorem columnLetters_injective : Function.Injective columnLetters := by
  intro m n h
  have hm := lettersValue_columnLetters m
  have hn := lettersValue_columnLetters n
  rw [h] at hm
  omega

theorem columnName_injective : Function.Injective columnName := fun _ _ h =>
  columnLetters_injective (String.ofList_injective h)

theorem columnLetters_lt_iff (m n : Nat) : m < n ↔ List.Shortlex (· < ·) (columnLetters m) (columnLetters n) := by
  rw [← lettersValue_lt_iff (fun _ => isLetter_of_mem_columnLetters) (fun _ => isLetter_of_mem_columnLetters),
    lettersValue_columnLetters, lettersValue_columnLetters]
  omega

theorem exists_columnLetters {s : List Char} (hne : s ≠ []) (hs : ∀ c ∈ s, isLetter c = true) :
    ∃ n, columnLetters n = s := by
  have hpos := lettersValue_pos hs hne
  exact ⟨lettersValue s - 1, columnLetters_of_lettersValue hs hne (by omega)⟩

theorem readColumn?_columnLetters (n : Nat) : readColumn? (columnLetters n) = if n < maxColumns then some n else none := by
  have hread : ∀ {m}, readColumn? (columnLetters n) = some m ↔ m = n ∧ m < maxColumns := by
    intro m
    rw [readColumn?_eq_some, lettersValue_columnLetters]
    have hne := columnLetters_ne_nil n
    have hall := fun c (hc : c ∈ columnLetters n) => isLetter_of_mem_columnLetters hc
    grind
  split
  next h => exact hread.mpr ⟨rfl, h⟩
  next h =>
    refine Option.eq_none_iff_forall_ne_some.mpr fun m hm => h ?_
    obtain ⟨rfl, hlt⟩ := hread.mp hm
    exact hlt

theorem columnName_of_columnNumber? {s : String} {n : Nat} (h : columnNumber? s = some n) : columnName n = s := by
  obtain ⟨hne, hall, hvalue, -⟩ := readColumn?_eq_some.mp h
  rw [columnName, columnLetters_of_lettersValue hall hne hvalue, String.ofList_toList]

/-- The name of every number is a word of letters that the words of 32 bits give too; every word of letters is the name of one
number; numbers are in the order of their names, by length and then by the alphabet; the name of a column of the grid is read
back, that of any other number is not, however long it is, and what is read as a column is its name. -/
theorem columnName_numbers :
    (∀ n : UInt32, nameInWords n = columnName n.toNat) ∧
    (∀ n, columnName n ≠ "" ∧ ∀ c ∈ (columnName n).toList, 'A' ≤ c ∧ c ≤ 'Z') ∧
    Function.Injective columnName ∧
    (∀ s : String, s ≠ "" → (∀ c ∈ s.toList, 'A' ≤ c ∧ c ≤ 'Z') → ∃ n, columnName n = s) ∧
    (∀ m n, m < n ↔ List.Shortlex (· < ·) (columnName m).toList (columnName n).toList) ∧
    (∀ n, columnNumber? (columnName n) = if n < 16384 then some n else none) ∧
    ∀ (s : String) (n : Nat), columnNumber? s = some n → columnName n = s := by
  have htoList : ∀ n, (columnName n).toList = columnLetters n := fun n => String.toList_ofList
  refine ⟨nameInWords_eq, fun n => ⟨fun h => ?_, fun c hc => ?_⟩, columnName_injective, fun s hne hs => ?_, fun m n => ?_,
    fun n => ?_, fun s n => columnName_of_columnNumber?⟩
  · have hnil : columnLetters n = [] := by rw [← htoList, h, String.toList_empty]
    exact columnLetters_ne_nil n hnil
  · rw [htoList] at hc
    exact isLetter_iff.mp (isLetter_of_mem_columnLetters hc)
  · obtain ⟨n, hn⟩ := exists_columnLetters (s := s.toList) (by simpa using hne) fun c hc => isLetter_iff.mpr (hs c hc)
    exact ⟨n, by rw [columnName, hn, String.ofList_toList]⟩
  · rw [htoList, htoList]
    exact columnLetters_lt_iff m n
  · rw [columnNumber?, htoList]
    exact readColumn?_columnLetters n

/-- The last column of the grid, and the letters after it. -/
theorem columnName_numbers_lastColumn :
    ("XFE" ≠ "" ∧ (∀ c ∈ "XFE".toList, 'A' ≤ c ∧ c ≤ 'Z') ∧ ∃ n, columnName n = "XFE") ∧
    ('X' ∈ (columnName 16383).toList ∧ 'A' ≤ 'X' ∧ 'X' ≤ 'Z') ∧
    columnNumber? "XFD" = some 16383 ∧ columnName 16383 = "XFD" := by
  have hall : "XFE".toList.all isLetter = true := by decide
  have hletters : ∀ c ∈ "XFE".toList, 'A' ≤ c ∧ c ≤ 'Z' := fun c hc => isLetter_iff.mp (List.all_eq_true.mp hall c hc)
  have hread : columnNumber? "XFD" = some 16383 := by decide +kernel
  have hname := columnName_numbers.2.2.2.2.2.2 "XFD" 16383 hread
  have hmem : 'X' ∈ (columnName 16383).toList := by rw [hname]; decide
  exact ⟨⟨by decide, hletters, columnName_numbers.2.2.2.1 "XFE" (by decide) hletters⟩,
    ⟨hmem, (columnName_numbers.2.1 16383).2 'X' hmem⟩, hread, hname⟩

end Spreadsheet.Grid
