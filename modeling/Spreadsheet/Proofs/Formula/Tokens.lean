import Spreadsheet.Formula.Parser
import Spreadsheet.Proofs.Text.Runs

/-! # Tokens in front of a text

What the readers of tokens do with a text that begins with a given token. A printed formula has no blanks between its
tokens, so each token stands at the very front.

* `boundary`, `Stops`: the characters that end an operand, and the texts that begin with one of them.
* `operator?_eq_none`, `operator?_symbol`: at which texts a level of operators ends, and at which it goes on.
* `quoted?_doubled`: a text whose marks are written twice is read up to the single mark after it. -/

set_option autoImplicit false

namespace Spreadsheet.Formula

open Grid Text

/-- What holds of all elements of a list is decided on the list and not on all values of their type. -/
scoped instance (priority := high) decidableForallMem {α : Type} (p : α → Prop) [DecidablePred p] (l : List α) :
    Decidable (∀ x ∈ l, p x) :=
  List.decidableBAll p l

/-! ## Characters of words -/

theorem isAlpha_eq (c : Char) : c.isAlpha = (c.isUpper || c.isLower) := rfl

theorem isUpper_eq (c : Char) : c.isUpper = decide (65 ≤ c.val ∧ c.val ≤ 90) := rfl

theorem isLower_eq (c : Char) : c.isLower = (decide (97 ≤ c.val) && decide (c.val ≤ 122)) := rfl

theorem isNameChar_of_isLetter {c : Char} (h : isLetter c = true) : isNameChar c = true := by
  simp only [isLetter, Bool.and_eq_true, decide_eq_true_eq] at h
  have hlow : (65 : UInt32) ≤ c.val := h.1
  have hhigh : c.val ≤ (90 : UInt32) := h.2
  have hupper : c.isUpper = true := by
    rw [isUpper_eq]
    simp [hlow, hhigh]
  simp [isNameChar, Char.isAlphanum, isAlpha_eq, hupper]

theorem isNameChar_of_isDigit {c : Char} (h : Numeral.isDigit c = true) : isNameChar c = true := by
  simp only [Numeral.isDigit, Bool.and_eq_true, decide_eq_true_eq] at h
  have hlow : (48 : UInt32) ≤ c.val := h.1
  have hhigh : c.val ≤ (57 : UInt32) := h.2
  simp [isNameChar, Char.isAlphanum, Char.isDigit, hlow, hhigh]

theorem isNameChar_of_isFunctionChar {c : Char} (h : isFunctionChar c = true) : isNameChar c = true := by
  simp only [isFunctionChar, Bool.or_eq_true, beq_iff_eq] at h
  obtain ((h | h) | rfl) | rfl := h
  · exact isNameChar_of_isLetter h
  · exact isNameChar_of_isDigit h
  · decide
  · decide

theorem isBlank_eq_false_of_isNameChar {c : Char} (h : isNameChar c = true) : isBlank c = false := by
  have hlow : 0x2E ≤ c.toNat ∧ c.toNat ≤ 0x7A := by
    simp only [isNameChar, Char.isAlphanum, isAlpha_eq, isUpper_eq, isLower_eq, Char.isDigit, Bool.or_eq_true,
      Bool.and_eq_true, decide_eq_true_eq, beq_iff_eq, UInt32.le_iff_toNat_le, ge_iff_le] at h
    change ((((65 ≤ c.toNat ∧ c.toNat ≤ 90) ∨ (97 ≤ c.toNat ∧ c.toNat ≤ 122)) ∨ (48 ≤ c.toNat ∧ c.toNat ≤ 57)) ∨
      c = '_') ∨ c = '.' at h
    obtain (((h | h) | h) | rfl) | rfl := h
    · omega
    · omega
    · omega
    · decide
    · decide
  simp only [isBlank, Bool.or_eq_false_iff, Bool.and_eq_false_iff, decide_eq_false_iff_not, beq_eq_false_iff_ne]
  omega

theorem not_isLetter_of_isDigit {c : Char} (h : Numeral.isDigit c = true) : isLetter c = false := by
  simp only [Numeral.isDigit, Bool.and_eq_true, decide_eq_true_eq] at h
  simp only [isLetter, Bool.and_eq_false_iff, decide_eq_false_iff_not]
  left
  intro hA
  exact absurd (Char.le_trans hA h.2) (by decide)

/-! ## First characters -/

/-- A text that begins with a character of a class. -/
def Begins (p : Char → Bool) (s : List Char) : Prop := ∃ c w, s = c :: w ∧ p c = true

theorem begins_cons {p : Char → Bool} {c : Char} (h : p c = true) (w : List Char) : Begins p (c :: w) := ⟨c, w, rfl, h⟩

theorem begins_word {p : Char → Bool} {w : List Char} (hne : w ≠ []) (hw : ∀ c ∈ w, p c = true) : Begins p w := by
  cases w with
  | nil => exact absurd rfl hne
  | cons c w => exact begins_cons (hw c (List.mem_cons_self ..)) w

theorem Begins.append {p : Char → Bool} {s : List Char} (h : Begins p s) (t : List Char) : Begins p (s ++ t) := by
  obtain ⟨c, w, rfl, hc⟩ := h
  exact begins_cons hc (w ++ t)

theorem Begins.mono {p q : Char → Bool} {s : List Char} (h : Begins p s) (hpq : ∀ c, p c = true → q c = true) :
    Begins q s := by
  obtain ⟨c, w, rfl, hc⟩ := h
  exact begins_cons (hpq c hc) w

theorem Begins.halts {p q : Char → Bool} {s : List Char} (h : Begins p s) (hpq : ∀ c, p c = true → q c = false) :
    Halts q s := by
  obtain ⟨c, w, rfl, hc⟩ := h
  exact halts_cons (hpq c hc)

theorem Begins.halts_beq {p : Char → Bool} {s : List Char} (h : Begins p s) {c : Char} (hc : p c = false) :
    Halts (· == c) s := by
  refine h.halts fun d hd => ?_
  simp only [beq_eq_false_iff_ne]
  rintro rfl
  rw [hc] at hd
  cases hd

/-! ## What ends an operand -/

/-- How strongly the operator binds that begins with a character. A closing parenthesis and a comma end every operand;
four stands for the characters that end none. -/
def boundary (c : Char) : Nat :=
  if c = ')' ∨ c = ',' then 0
  else if c = '=' ∨ c = '<' ∨ c = '>' then 1
  else if c = '+' ∨ c = '-' ∨ c = '&' then 2
  else if c = '*' ∨ c = '/' then 3
  else 4

def marks : List Char := [')', ',', '=', '<', '>', '+', '-', '&', '*', '/']

theorem mem_marks_of_boundary_lt {c : Char} (h : boundary c < 4) : c ∈ marks := by
  unfold boundary at h
  split at h
  next hc => obtain rfl | rfl := hc <;> decide
  split at h
  next hc => obtain rfl | rfl | rfl := hc <;> decide
  split at h
  next hc => obtain rfl | rfl | rfl := hc <;> decide
  split at h
  next hc => obtain rfl | rfl := hc <;> decide
  next => omega

/-- A text that is empty or begins with a character at which the operators looser than `4 - j` or the end of an operand
stand. -/
def Stops (j : Nat) (t : List Char) : Prop := ∀ c ∈ t.head?, boundary c + j < 4

theorem stops_nil (j : Nat) : Stops j [] := by simp [Stops]

theorem stops_cons {j : Nat} {c : Char} {t : List Char} (h : boundary c + j < 4) : Stops j (c :: t) := by
  intro d hd
  cases hd
  exact h

theorem Stops.mono {i j : Nat} {t : List Char} (h : Stops j t) (hij : i ≤ j) : Stops i t := by
  intro c hc
  have := h c hc
  omega

theorem Stops.halts {j : Nat} {t : List Char} (h : Stops j t) {p : Char → Bool} (hp : ∀ c ∈ marks, p c = false) :
    Halts p t := by
  intro c hc
  have := h c hc
  exact hp c (mem_marks_of_boundary_lt (by omega))

/-! ## Single tokens -/

theorem afterToken?_append (w s : List Char) : afterToken? w (w ++ s) = some s := by
  induction w with
  | nil => rfl
  | cons c w ih => rw [List.cons_append, afterToken?, if_pos rfl, ih]

theorem eat?_append (token : String) {s : List Char} (h : Halts isBlank (token.toList ++ s)) :
    eat? token (token.toList ++ s) = some s := by
  rw [eat?, skipBlanks_eq_self h, afterToken?_append]

/-- A token does not stand at the front of a text that begins with another character. -/
theorem eat?_eq_none {token : String} {c : Char} {w s : List Char} (htoken : token.toList = c :: w)
    (hblank : Halts isBlank s) (hne : Halts (· == c) s) : eat? token s = none := by
  rw [eat?, skipBlanks_eq_self hblank, htoken]
  cases s with
  | nil => rfl
  | cons d s =>
    have hd : d ≠ c := by simpa using hne d rfl
    rw [afterToken?, if_neg hd]

/-! ## Operators -/

def operatorsAt : Nat → List (String × BinaryOp)
  | 0 => products
  | 1 => sums
  | _ => comparisons

/-- Every operator of a level begins with a character that ends the operands of that level and all tighter ones. -/
theorem boundary_operatorsAt {j : Nat} {entry : String × BinaryOp} (hentry : entry ∈ operatorsAt j) :
    ∃ c w, entry.1.toList = c :: w ∧ 4 ≤ boundary c + (j + 1) := by
  have hall : ∀ entry ∈ operatorsAt j, entry.1.toList.head?.any (fun c => decide (4 ≤ boundary c + (j + 1))) = true := by
    match j with
    | 0 => decide
    | 1 => decide
    | j + 2 =>
      have h2 : ∀ entry ∈ comparisons, entry.1.toList.head?.any (fun c => decide (4 ≤ boundary c + 3)) = true := by
        decide
      intro entry hentry
      obtain ⟨c, hc, hle⟩ := Option.any_eq_true _ _ |>.mp (h2 entry hentry)
      refine Option.any_eq_true _ _ |>.mpr ⟨c, hc, ?_⟩
      simp only [decide_eq_true_eq] at hle ⊢
      omega
  obtain ⟨c, hc, hle⟩ := Option.any_eq_true _ _ |>.mp (hall entry hentry)
  obtain ⟨w, hw⟩ := List.head?_eq_some_iff.mp hc
  exact ⟨c, w, hw, of_decide_eq_true hle⟩

theorem operator?_cons_of_none {s : List Char} {token : String} {op : BinaryOp} {others : List (String × BinaryOp)}
    (h : eat? token s = none) : operator? s ((token, op) :: others) = operator? s others := by
  rw [operator?, h]

theorem operator?_eq_none {operators : List (String × BinaryOp)} {s : List Char} (hblank : Halts isBlank s)
    (h : ∀ entry ∈ operators, ∃ c w, entry.1.toList = c :: w ∧ Halts (· == c) s) : operator? s operators = none := by
  induction operators with
  | nil => rfl
  | cons entry others ih =>
    obtain ⟨c, w, htoken, hne⟩ := h entry (List.mem_cons_self ..)
    rw [operator?_cons_of_none (eat?_eq_none htoken hblank hne)]
    exact ih fun other hother => h other (List.mem_cons_of_mem _ hother)

/-- The second characters of the operators of two characters. -/
def isSecondMark (c : Char) : Bool := c == '=' || c == '>'

theorem operator?_symbol {op : BinaryOp} {j : Nat} (hj : op.strength + j = 3) {s : List Char}
    (hs : Halts isSecondMark s) : operator? (op.symbol.toList ++ s) (operatorsAt j) = some (op, s) := by
  have hsecond : ∀ c, isSecondMark c = true → afterToken? [c] s = none := by
    intro c hc
    cases s with
    | nil => rfl
    | cons d s =>
      have hd : d ≠ c := by
        rintro rfl
        simp [hs d rfl] at hc
      rw [afterToken?, if_neg hd]
  have hequal := hsecond '=' rfl
  have hgreater := hsecond '>' rfl
  obtain rfl : j = 3 - op.strength := by omega
  cases op
  case less =>
    change operator? ('<' :: s) (("<>", .notEqual) :: _) = _
    refine (operator?_cons_of_none (by exact hgreater)).trans ?_
    change operator? ('<' :: s) (("<=", .lessEqual) :: _) = _
    exact (operator?_cons_of_none (by exact hequal)).trans rfl
  case greater =>
    change operator? ('>' :: s) ((">=", .greaterEqual) :: _) = _
    exact (operator?_cons_of_none (by exact hequal)).trans rfl
  all_goals rfl

theorem stops_symbol {op : BinaryOp} {j : Nat} (hj : op.strength + j = 3) (t : List Char) :
    Stops j (op.symbol.toList ++ t) := by
  have hall : ∀ op : BinaryOp, op.symbol.toList.head?.any (fun c => decide (boundary c = op.strength)) = true := by
    intro op
    cases op <;> decide
  obtain ⟨c, hc, heq⟩ := Option.any_eq_true _ _ |>.mp (hall op)
  obtain ⟨w, hw⟩ := List.head?_eq_some_iff.mp hc
  have heq := of_decide_eq_true heq
  rw [hw]
  exact stops_cons (by omega)

/-! ## Quoted texts -/

theorem quoted?_cons_of_ne {mark c : Char} (h : c ≠ mark) (s : List Char) :
    quoted? mark (c :: s) = (quoted? mark s).map fun (body, rest) => (c :: body, rest) := by
  cases s with
  | nil => simp [quoted?, h]
  | cons d s => rw [quoted?, if_neg h]

theorem quoted?_doubled {mark : Char} (s : List Char) {t : List Char} (ht : Halts (· == mark) t) :
    quoted? mark (doubled mark s ++ mark :: t) = some (s, t) := by
  induction s with
  | nil =>
    cases t with
    | nil => simp [doubled, quoted?]
    | cons d t =>
      have hd : d ≠ mark := by simpa using ht d rfl
      simp [doubled, quoted?, hd]
  | cons c s ih =>
    have hstep : doubled mark (c :: s) = (if c = mark then [mark, mark] else [c]) ++ doubled mark s := rfl
    by_cases hc : c = mark
    · subst hc
      rw [hstep, if_pos rfl, List.append_assoc, List.cons_append, List.cons_append, List.nil_append, quoted?,
        if_pos rfl, if_pos rfl, ih]
      rfl
    · rw [hstep, if_neg hc, List.append_assoc, List.cons_append, List.nil_append, quoted?_cons_of_ne hc, ih]
      rfl

end Spreadsheet.Formula
