import Spreadsheet.Number.Numeral
import Spreadsheet.Proofs.Text.Numeral

/-! # The text of a number

* `ReadsBack`: the text of a number names that number.
* `IsUnsigned`: finite numbers that are written without a sign; a negative zero is written with one.
* `mem_write`: an unsigned number is written in digits with at most a point among them, never with an exponent. -/

set_option autoImplicit false

namespace Spreadsheet.Number

open Text

/-- The text of a number names that number. -/
def ReadsBack (x : Float) : Prop := read? (write x) = some x

instance (x : Float) : Decidable (ReadsBack x) := inferInstanceAs (Decidable (_ = _))

/-- A finite number without a minus sign. -/
def IsUnsigned (x : Float) : Prop := isFinite x = true ∧ isNegative x = false

instance (x : Float) : Decidable (IsUnsigned x) := inferInstanceAs (Decidable (_ ∧ _))

/-- A digit or the point. -/
def isPlainChar (c : Char) : Bool := Numeral.isDigit c || c == '.'

theorem isPlainChar_of_isDigit {c : Char} (h : Numeral.isDigit c = true) : isPlainChar c = true := by
  rw [isPlainChar, h, Bool.true_or]

theorem isPlainChar_layout {digits : List Char} {scale : Int} (h : ∀ c ∈ digits, Numeral.isDigit c = true) :
    ∀ c ∈ layout digits scale, isPlainChar c = true := by
  have hzero : ∀ n, ∀ c ∈ List.replicate n '0', isPlainChar c = true := by
    intro n c hc
    rw [(List.mem_replicate.mp hc).2]
    decide
  have hdigits : ∀ c ∈ digits, isPlainChar c = true := fun c hc => isPlainChar_of_isDigit (h c hc)
  intro c hc
  unfold layout at hc
  split at hc
  next =>
    obtain hc | hc := List.mem_append.mp hc
    · exact hdigits c hc
    · exact hzero _ c hc
  next =>
    dsimp only at hc
    split at hc
    next =>
      obtain hc | hc := List.mem_append.mp hc
      · exact hdigits c (List.mem_of_mem_take hc)
      · obtain rfl | hc := List.mem_cons.mp hc
        · decide
        · exact hdigits c (List.mem_of_mem_drop hc)
    next =>
      obtain rfl | hc := List.mem_cons.mp hc
      · decide
      obtain rfl | hc := List.mem_cons.mp hc
      · decide
      obtain hc | hc := List.mem_append.mp hc
      · exact hzero _ c hc
      · exact hdigits c hc

theorem isPlainChar_magnitude (m : Magnitude) : ∀ c ∈ m.write, isPlainChar c = true := by
  intro c hc
  unfold Magnitude.write at hc
  split at hc
  next => rw [List.mem_singleton.mp hc]; decide
  next => exact isPlainChar_layout (fun d hd => Numeral.isDigit_of_mem_ofNat hd) c hc

theorem isNaN_eq_false {x : Float} (h : isFinite x = true) : isNaN x = false := by
  simp only [isFinite, isNaN, decide_eq_true_eq, decide_eq_false_iff_not] at h ⊢
  omega

theorem write_eq_of_isFinite {x : Float} (h : isFinite x = true) :
    write x = if isNegative x then '-' :: (magnitude x).write else (magnitude x).write := by
  simp only [write, isNaN_eq_false h, h, Bool.false_eq_true, if_false, if_true]

theorem mem_write {x : Float} (h : IsUnsigned x) {c : Char} (hc : c ∈ write x) : isPlainChar c = true := by
  obtain ⟨hfinite, hsign⟩ := h
  rw [write_eq_of_isFinite hfinite, hsign] at hc
  exact isPlainChar_magnitude _ c hc

theorem readUnsigned?_cons_eq_readDecimal? {c : Char} (hc : isPlainChar c = true) (s : List Char) :
    readUnsigned? (c :: s) = readDecimal? (c :: s) := by
  have hupper : asciiUpper c = c := by
    rw [asciiUpper, if_neg]
    simp only [isPlainChar, Numeral.isDigit, Bool.or_eq_true, Bool.and_eq_true, decide_eq_true_eq, beq_iff_eq] at hc
    rintro ⟨hlow, -⟩
    obtain ⟨-, hhigh⟩ | rfl := hc
    · exact absurd (Char.le_trans hlow hhigh) (by decide)
    · exact absurd hlow (by decide)
  have hne : ∀ d, isPlainChar d = false → ∀ w, (c :: s).map asciiUpper ≠ d :: w := by
    rintro d hd w heq
    rw [List.map_cons, hupper] at heq
    rw [(List.cons.inj heq).1, hd] at hc
    cases hc
  rw [readUnsigned?, if_neg, if_neg]
  · exact hne 'N' (by decide) _
  · rintro (heq | heq)
    · exact hne 'I' (by decide) _ heq
    · exact hne 'I' (by decide) _ heq

theorem read?_cons_eq_readDecimal? {c : Char} (hc : isPlainChar c = true) (s : List Char) :
    read? (c :: s) = readDecimal? (c :: s) := by
  rw [read?, readUnsigned?_cons_eq_readDecimal? hc]
  · rintro t ⟨⟩; revert hc; decide
  · rintro t ⟨⟩; revert hc; decide

theorem read?_eq_readDecimal? {s : List Char} (h : ∀ c ∈ s, isPlainChar c = true) : read? s = readDecimal? s := by
  cases s with
  | nil => rfl
  | cons c s => exact read?_cons_eq_readDecimal? (h c (List.mem_cons_self ..)) s

theorem ReadsBack.readDecimal? {x : Float} (h : ReadsBack x) (hx : IsUnsigned x) :
    readDecimal? (write x) = some x := by
  rw [← read?_eq_readDecimal? fun c hc => mem_write hx hc]
  exact h

end Spreadsheet.Number
