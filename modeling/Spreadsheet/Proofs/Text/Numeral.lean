import Spreadsheet.Proofs.Text.Runs

/-! # Decimal numerals are read back

`readDigits?_ofNat`: the digits of a number name that number. `readWord?_ofNat` is the same for a field of a part, which
holds numbers of a given width only. -/

set_option autoImplicit false

namespace Spreadsheet.Text.Numeral

theorem isDigit_digit (n : Nat) : isDigit (digit n) = true := by
  have h : ∀ d, d < 10 → isDigit (Char.ofNat (48 + d)) = true := by decide
  exact h (n % 10) (by omega)

theorem value_digit (n : Nat) : value (digit n) = n % 10 := by
  have h : ∀ d, d < 10 → value (Char.ofNat (48 + d)) = d := by decide
  exact h (n % 10) (by omega)

theorem valueFrom_concat (start : Nat) (s : List Char) (c : Char) :
    valueFrom start (s ++ [c]) = 10 * valueFrom start s + value c := by
  rw [valueFrom, List.foldl_append, List.foldl_cons, List.foldl_nil]
  rfl

theorem valueFrom_append_digit (start : Nat) (s : List Char) (n : Nat) :
    valueFrom start (s ++ [digit n]) = 10 * valueFrom start s + n % 10 := by rw [valueFrom_concat, value_digit]

theorem ofNat_ne_nil (n : Nat) : ofNat n ≠ [] := by
  rw [ofNat]
  split
  · exact List.cons_ne_nil _ _
  · exact List.append_ne_nil_of_right_ne_nil _ (List.cons_ne_nil _ _)

theorem isDigit_of_mem_ofNat {n : Nat} {c : Char} (h : c ∈ ofNat n) : isDigit c = true := by
  induction n using Nat.strongRecOn with
  | ind n ih =>
    rw [ofNat] at h
    split at h
    next =>
      rw [List.mem_singleton.mp h]
      exact isDigit_digit n
    next hn =>
      obtain h | h := List.mem_append.mp h
      · exact ih (n / 10) (by omega) h
      · rw [List.mem_singleton.mp h]
        exact isDigit_digit n

theorem valueFrom_ofNat (n : Nat) : valueFrom 0 (ofNat n) = n := by
  induction n using Nat.strongRecOn with
  | ind n ih =>
    rw [ofNat]
    split
    next hn =>
      have h := valueFrom_append_digit 0 [] n
      rw [List.nil_append] at h
      rw [h]
      simp only [valueFrom, List.foldl_nil]
      omega
    next hn =>
      rw [valueFrom_append_digit, ih (n / 10) (by omega)]
      omega

theorem value_le {c : Char} (h : isDigit c = true) : value c ≤ 9 := by
  have hhigh : c ≤ '9' := by
    simp only [isDigit, Bool.and_eq_true, decide_eq_true_eq] at h
    exact h.2
  have hhigh : c.toNat ≤ 57 := hhigh
  rw [value]
  omega

theorem valueFrom_dropWhile_zero (s : List Char) : valueFrom 0 (s.dropWhile (· == '0')) = valueFrom 0 s := by
  induction s with
  | nil => rfl
  | cons c s ih =>
    rw [List.dropWhile_cons]
    split
    next hzero =>
      rw [ih, beq_iff_eq.mp hzero]
      rfl
    next => rfl

theorem digit_of_value {c : Char} (h : isDigit c = true) {n : Nat} (hn : n % 10 = value c) : digit n = c := by
  simp only [isDigit, Bool.and_eq_true, decide_eq_true_eq] at h
  have hlow : 48 ≤ c.toNat := h.1
  have hcode : 48 + n % 10 = c.toNat := by
    rw [hn, value]
    omega
  rw [digit, hcode, Char.ofNat_toNat]

theorem eq_zero_of_value {c : Char} (h : isDigit c = true) (hc : value c = 0) : c = '0' := by
  have hdigit := digit_of_value h (n := 0) hc.symm
  rw [← hdigit]
  rfl

theorem readDigits?_ofNat (n : Nat) : readDigits? (ofNat n) = some n := by
  have hall : (ofNat n).all isDigit = true := List.all_eq_true.mpr fun c hc => isDigit_of_mem_ofNat hc
  have hne : (ofNat n).isEmpty = false := by
    cases h : ofNat n with
    | nil => exact absurd h (ofNat_ne_nil n)
    | cons => rfl
  rw [readDigits?, hall, hne, valueFrom_ofNat]
  rfl

theorem dropPlus_of_isDigit {s : List Char} (h : ∀ c ∈ s, isDigit c = true) : dropPlus s = s := by
  unfold dropPlus
  split
  next t =>
    have hplus : isDigit '+' = true := h '+' (List.mem_cons_self ..)
    exact absurd hplus (by decide)
  next => rfl

theorem dropPlus_ofNat (n : Nat) : dropPlus (ofNat n) = ofNat n := dropPlus_of_isDigit fun _ hc => isDigit_of_mem_ofNat hc

theorem readWord?_eq_some {width n : Nat} {s : List Char} (hne : s ≠ []) (hs : ∀ c ∈ s, isDigit c = true) :
    readWord? width s = some n ↔ valueFrom 0 s = n ∧ n < Nat.pow 2 width := by
  rw [readWord?, dropPlus_of_isDigit hs, readDigits?, List.isEmpty_eq_false_iff.mpr hne, List.all_eq_true.mpr hs,
    Option.filter_eq_some_iff, decide_eq_true_eq]
  simp

theorem readWord?_ofNat {width n : Nat} (h : n < Nat.pow 2 width) : readWord? width (ofNat n) = some n := by
  rw [readWord?, dropPlus_ofNat, readDigits?_ofNat, Option.filter_some, if_pos (decide_eq_true h)]

end Spreadsheet.Text.Numeral
