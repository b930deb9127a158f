import Spreadsheet.Proofs.Formula.Recognition

/-! # A printed formula is read back

A printed formula is one of the grammar, level by level: an operator stands without parentheses only on its own level
and the looser ones. What the grammar has is read as its tree.

* `Expr.IsPlain`: the formulas that the text determines.
* `Expr.isFormula_printed`: their texts are formulas of every level.
* `parse_toText`: their texts are read back. -/

set_option autoImplicit false

namespace Spreadsheet.Formula

open Grid Text

mutual

/-- A formula whose numbers have no sign and are named by their texts, whose references are on the grid and whose calls
have proper names. -/
def Expr.IsPlain : Expr → Prop
  | .number x => Number.IsUnsigned x ∧ Number.ReadsBack x
  | .text _ => True
  | .truth _ => True
  | .cell _ a => a.OnGrid
  | .range _ a b => a.OnGrid ∧ b.OnGrid
  | .binary _ l r => l.IsPlain ∧ r.IsPlain
  | .negate e => e.IsPlain
  | .call name args => isFunctionName name = true ∧ Expr.ArePlain args

def Expr.ArePlain : List Expr → Prop
  | [] => True
  | e :: rest => e.IsPlain ∧ Expr.ArePlain rest

end

/-! ## Printed operands -/

/-- The text of a formula as an operand of the level `j + 1`. -/
def printed (j : Nat) (e : Expr) : List Char := parenthesized (e.strength + j < 4) e.chars

theorem printed_eq_chars {j : Nat} {e : Expr} (h : 4 ≤ e.strength + j) : printed j e = e.chars := by
  rw [printed, decide_eq_false (by omega)]
  rfl

theorem printed_eq_parens {j : Nat} {e : Expr} (h : e.strength + j < 4) : printed j e = '(' :: e.chars ++ [')'] := by
  rw [printed, decide_eq_true h]
  rfl

theorem BinaryOp.strength_pos (op : BinaryOp) : 1 ≤ op.strength ∧ op.strength ≤ 3 := by cases op <;> decide

theorem Expr.strength_pos (e : Expr) : 1 ≤ e.strength ∧ e.strength ≤ 4 := by
  cases e with
  | binary op l r =>
    have := op.strength_pos
    simp only [Expr.strength]
    omega
  | _ => simp only [Expr.strength]; omega

theorem chars_binary {op : BinaryOp} {j : Nat} (hj : op.strength + j = 3) (l r : Expr) :
    (Expr.binary op l r).chars = printed (j + 1) l ++ op.symbol.toList ++ printed j r := by
  have hleft : decide (l.strength < op.strength) = decide (l.strength + (j + 1) < 4) := decide_eq_decide.mpr (by omega)
  have hright : decide (r.strength ≤ op.strength) = decide (r.strength + j < 4) := decide_eq_decide.mpr (by omega)
  rw [Expr.chars, hleft, hright]
  rfl

theorem chars_negate (e : Expr) : (Expr.negate e).chars = '-' :: printed 0 e := by
  rw [Expr.chars]
  rfl

/-! ## Printed words -/

theorem isAddress_chars {a : Address} (h : a.OnGrid) : IsAddress a.chars a :=
  .mk (fun _ hc => isLetter_of_mem_columnLetters hc) (columnLetters_ne_nil _)
    (fun _ hc => Numeral.isDigit_of_mem_ofNat hc) (Numeral.ofNat_ne_nil _) (lettersValue_columnLetters _)
    (Numeral.valueFrom_ofNat _) h

theorem isQualifier_sheetChars (sheet : Option String) : IsQualifier (sheetChars sheet) sheet := by
  cases sheet with
  | none => exact .none
  | some s =>
    rw [sheetChars]
    split
    next hplain => exact .plain hplain
    next => exact .quoted s

theorem isReference_chars (sheet : Option String) {a : Address} (h : a.OnGrid) :
    IsReference (sheetChars sheet ++ a.chars) sheet a :=
  .mk (isQualifier_sheetChars sheet) (isAddress_chars h)

theorem eq_nil_of_readExponent? {s : List Char} {n : Int} (h : Number.readExponent? s = some n)
    (hplain : ∀ c ∈ s, Number.isPlainChar c = true) : s = [] := by
  cases s with
  | nil => rfl
  | cons c s =>
    have hc := hplain c (List.mem_cons_self ..)
    have hne : ¬(c = 'e' ∨ c = 'E') := by
      rintro (rfl | rfl)
      · exact absurd hc (by decide)
      · exact absurd hc (by decide)
    unfold Number.readExponent? at h
    simp only [if_neg hne] at h
    cases h

/-- A decimal without an exponent is digits, possibly with a point and more digits after it. -/
theorem shape_of_readDecimal? {w : List Char} {x : Float} (hread : Number.readDecimal? w = some x)
    (hplain : ∀ c ∈ w, Number.isPlainChar c = true) :
    w.dropWhile Numeral.isDigit = [] ∨
      ∃ part, w.dropWhile Numeral.isDigit = '.' :: part ∧ ∀ c ∈ part, Numeral.isDigit c = true := by
  have hsub : ∀ c ∈ w.dropWhile Numeral.isDigit, Number.isPlainChar c = true :=
    fun c hc => hplain c ((List.dropWhile_sublist _).subset hc)
  unfold Number.readDecimal? at hread
  generalize w.dropWhile Numeral.isDigit = rest at hread hsub
  dsimp only at hread
  split at hread
  next part =>
    right
    split at hread
    · cases hread
    obtain ⟨n, hn, -⟩ := Option.map_eq_some_iff.mp hread
    refine ⟨part, rfl, fun d hd => ?_⟩
    have hnil : part.dropWhile Numeral.isDigit = [] :=
      eq_nil_of_readExponent? hn fun c hc =>
        hsub c (List.mem_cons_of_mem _ ((List.dropWhile_sublist _).subset hc))
    have hall := List.takeWhile_append_dropWhile (p := Numeral.isDigit) (l := part)
    rw [hnil, List.append_nil] at hall
    rw [← hall] at hd
    exact mem_takeWhile_pos hd
  next =>
    left
    split at hread
    · cases hread
    obtain ⟨n, hn, -⟩ := Option.map_eq_some_iff.mp hread
    exact eq_nil_of_readExponent? hn hsub

theorem isNumeral_write {x : Float} (hx : Number.IsUnsigned x) (hread : Number.ReadsBack x) :
    IsNumeral (Number.write x) := by
  have hdecimal : Number.readDecimal? (Number.write x) = some x := hread.readDecimal? hx
  have hplain : ∀ c ∈ Number.write x, Number.isPlainChar c = true := fun c hc => Number.mem_write hx hc
  have hshape := shape_of_readDecimal? hdecimal hplain
  have hdigits := areDigits_takeWhile (Number.write x)
  rw [← List.takeWhile_append_dropWhile (p := Numeral.isDigit) (l := Number.write x)] at hdecimal ⊢
  generalize (Number.write x).takeWhile Numeral.isDigit = digits at hdecimal hdigits ⊢
  obtain hnil | ⟨part, hpoint, hpart⟩ := hshape
  · rw [hnil] at hdecimal ⊢
    rw [readDecimal?_whole hdigits .none] at hdecimal
    split at hdecimal
    · cases hdecimal
    next hne => exact .whole hdigits (fun h => hne (List.isEmpty_iff.mpr h)) .none
  · rw [hpoint, ← List.append_nil part] at hdecimal ⊢
    rw [readDecimal?_fraction hdigits hpart .none] at hdecimal
    split at hdecimal
    · cases hdecimal
    next hne =>
      refine .fraction hdigits hpart ?_ .none
      rw [Bool.and_eq_true, List.isEmpty_iff, List.isEmpty_iff] at hne
      exact Decidable.not_and_iff_not_or_not.mp hne

theorem truthChars_eq (b : Bool) : (Expr.truth b).chars = truthChars b := by cases b <;> rfl

/-! ## Printed formulas -/

theorem IsFormula.loosen {i : Nat} {s : List Char} {e : Expr} (h : IsFormula i s e) {j : Nat} (hij : i ≤ j) :
    IsFormula j s e := by
  obtain ⟨n, rfl⟩ := Nat.exists_eq_add_of_le hij
  induction n with
  | zero => exact h
  | succ n ih => exact .single (ih (Nat.le_add_right i n))

theorem IsOperand.isFormula {s : List Char} {e : Expr} (h : IsOperand s e) (j : Nat) : IsFormula j s e := by
  have hzero : IsFormula 0 ([] ++ s) e := .operand areBlanks_nil h
  exact hzero.loosen (Nat.zero_le j)

theorem isFormula_printed_of_strength {e : Expr} (hstrength : e.strength = 4) (h : IsFormula 0 e.chars e) (j : Nat) :
    IsFormula j (printed j e) e := by
  rw [printed_eq_chars (by omega)]
  exact h.loosen (Nat.zero_le j)

/-- An operator is printed as it is on its own level and the looser ones, and in parentheses on the tighter ones. -/
theorem isFormula_printed_binary {op : BinaryOp} {l r : Expr} (hl : ∀ j, IsFormula j (printed j l) l)
    (hr : ∀ j, IsFormula j (printed j r) r) (j : Nat) :
    IsFormula j (printed j (.binary op l r)) (.binary op l r) := by
  have hop := op.strength_pos
  have hstrength : (Expr.binary op l r).strength = op.strength := rfl
  obtain ⟨own, hown⟩ : ∃ own, op.strength + own = 3 := ⟨3 - op.strength, by omega⟩
  have hspelling : op.symbol ∈ op.spellings := by cases op <;> decide
  have hchars : IsFormula (own + 1) (Expr.binary op l r).chars (.binary op l r) := by
    rw [chars_binary hown, List.append_assoc]
    exact .joined hown hspelling areBlanks_nil (hl _) (hr _)
  by_cases hlt : op.strength + j < 4
  · have hinside : IsFormula 3 (Expr.binary op l r).chars (.binary op l r) := hchars.loosen (by omega)
    rw [printed_eq_parens (by omega)]
    exact (IsOperand.parens hinside areBlanks_nil).isFormula j
  · rw [printed_eq_chars (by omega)]
    exact hchars.loosen (by omega)

theorem IsFormula.of_printed {e : Expr} (h : ∀ j, IsFormula j (printed j e) e) : IsFormula 3 e.chars e := by
  have hthree := h 3
  rwa [printed_eq_chars (by have := e.strength_pos; omega)] at hthree

mutual

theorem Expr.isFormula_printed : (e : Expr) → e.IsPlain → (j : Nat) → IsFormula j (printed j e) e
  | .number x, h => isFormula_printed_of_strength rfl (by
    rw [Expr.chars]
    exact (IsOperand.number (isNumeral_write h.1 h.2) h.2).isFormula 0)
  | .text s, _ => isFormula_printed_of_strength rfl (by
    rw [Expr.chars]
    exact (IsOperand.text s).isFormula 0)
  | .truth b, _ => isFormula_printed_of_strength rfl (by
    rw [truthChars_eq]
    exact (IsOperand.truth b).isFormula 0)
  | .cell sheet a, h => isFormula_printed_of_strength rfl (by
    rw [Expr.chars]
    exact (IsOperand.cell (isReference_chars sheet h)).isFormula 0)
  | .range sheet a b, h => isFormula_printed_of_strength rfl (by
    have hstop : IsReference b.chars none b := isReference_chars none h.2
    have hrange := IsOperand.range (isReference_chars sheet h.1) areBlanks_nil areBlanks_nil hstop (.first sheet)
    rw [Expr.chars, ← List.append_assoc]
    exact hrange.isFormula 0)
  | .binary _ l r, h => isFormula_printed_binary (l.isFormula_printed h.1) (r.isFormula_printed h.2)
  | .negate e, h => isFormula_printed_of_strength rfl (by
    rw [chars_negate]
    exact .minus areBlanks_nil (e.isFormula_printed h 0))
  | .call name args, h => isFormula_printed_of_strength rfl (by
    rw [Expr.chars, List.append_assoc, List.cons_append]
    cases args with
    | nil => exact (IsOperand.callEmpty h.1 areBlanks_nil).isFormula 0
    | cons e rest =>
      exact (IsOperand.call h.1 (Expr.areArguments_listChars (e :: rest) h.2 (List.cons_ne_nil _ _))).isFormula 0)

theorem Expr.areArguments_listChars : (args : List Expr) → Expr.ArePlain args → args ≠ [] →
    AreArguments (Expr.listChars args ++ [')']) args
  | [], _, hne => absurd rfl hne
  | [e], h, _ => .last (.of_printed (e.isFormula_printed h.1)) areBlanks_nil
  | e :: next :: rest, h, _ => by
    have hshape : Expr.listChars (e :: next :: rest) ++ [')'] =
        e.chars ++ ([] ++ ',' :: (Expr.listChars (next :: rest) ++ [')'])) := by
      simp [Expr.listChars]
    rw [hshape]
    exact .next (.of_printed (e.isFormula_printed h.1)) areBlanks_nil
      (Expr.areArguments_listChars (next :: rest) h.2 (List.cons_ne_nil _ _))

end

/-! ## The ends of a printed formula -/

theorem begins_printed {e : Expr} (h : Begins isFormulaStart e.chars) (j : Nat) :
    Begins isFormulaStart (printed j e) := by
  by_cases hlt : e.strength + j < 4
  · rw [printed_eq_parens hlt]
    exact begins_cons (by decide) _
  · rw [printed_eq_chars (by omega)]
    exact h

theorem begins_chars : (e : Expr) → e.IsPlain → Begins isFormulaStart e.chars
  | .number _, h => by
    obtain ⟨c, w, hchars, hc⟩ := (isNumeral_write h.1 h.2).begins
    have hall : ∀ c ∈ plainChars, isFormulaStart c = true := by decide
    rw [Expr.chars, hchars]
    exact begins_cons (hall c (mem_plainChars hc)) w
  | .text _, _ => by
    rw [Expr.chars]
    exact begins_cons (by decide) _
  | .truth true, _ => ⟨'T', _, rfl, by decide⟩
  | .truth false, _ => ⟨'F', _, rfl, by decide⟩
  | .cell sheet _, h => by
    rw [Expr.chars]
    exact (IsOperand.cell (isReference_chars sheet h)).begins.mono fun _ => isFormulaStart_of_isOperandStart
  | .range sheet a b, h => by
    rw [Expr.chars, ← List.append_assoc]
    exact ((IsOperand.cell (isReference_chars sheet h.1)).begins.mono fun _ => isFormulaStart_of_isOperandStart).append _
  | .binary op l r, h => by
    have hj : op.strength + (3 - op.strength) = 3 := by
      have := op.strength_pos
      omega
    rw [chars_binary hj, List.append_assoc]
    exact (begins_printed (begins_chars l h.1) _).append _
  | .negate e, _ => by
    rw [chars_negate]
    exact begins_cons (by decide) _
  | .call name args, h => by
    rw [Expr.chars, List.append_assoc]
    exact (begins_functionName h.1 _).mono fun _ => isFormulaStart_of_isOperandStart

/-- A text that ends with a character that is no blank. -/
def EndsSolid (s : List Char) : Prop := Begins (fun c => !isBlank c) s.reverse

theorem EndsSolid.prepend {s : List Char} (h : EndsSolid s) (w : List Char) : EndsSolid (w ++ s) := by
  rw [EndsSolid, List.reverse_append]
  exact h.append w.reverse

theorem endsSolid_word {w : List Char} (hne : w ≠ []) (hw : ∀ c ∈ w, isNameChar c = true) : EndsSolid w := by
  refine begins_word (by simpa using hne) fun c hc => ?_
  rw [isBlank_eq_false_of_isNameChar (hw c (List.mem_reverse.mp hc))]
  rfl

theorem endsSolid_mark (w : List Char) {c : Char} (h : isBlank c = false) : EndsSolid (w ++ [c]) :=
  EndsSolid.prepend ⟨c, [], rfl, by simp only [h, Bool.not_false]⟩ w

theorem endsSolid_address (a : Address) : EndsSolid a.chars := by
  rw [Address.chars]
  exact EndsSolid.prepend (EndsSolid.prepend (endsSolid_word (Numeral.ofNat_ne_nil _) fun c hc =>
    isNameChar_of_isDigit (Numeral.isDigit_of_mem_ofNat hc)) _) _

theorem endsSolid_printed {e : Expr} (h : EndsSolid e.chars) (j : Nat) : EndsSolid (printed j e) := by
  by_cases hlt : e.strength + j < 4
  · rw [printed_eq_parens hlt]
    exact endsSolid_mark _ (by decide)
  · rw [printed_eq_chars (by omega)]
    exact h

theorem endsSolid_chars : (e : Expr) → e.IsPlain → EndsSolid e.chars
  | .number _, h => by
    have hall : ∀ c ∈ plainChars, isNameChar c = true := by decide
    have hne : Number.write _ ≠ [] := fun hnil => by
      obtain ⟨c, w, hchars, -⟩ := (isNumeral_write h.1 h.2).begins
      rw [hnil] at hchars
      cases hchars
    exact endsSolid_word hne fun c hc => hall c (mem_plainChars (Number.mem_write h.1 hc))
  | .text s, _ => by
    rw [Expr.chars]
    exact endsSolid_mark _ (by decide)
  | .truth true, _ => endsSolid_mark ['T', 'R', 'U'] (by decide)
  | .truth false, _ => endsSolid_mark ['F', 'A', 'L', 'S'] (by decide)
  | .cell sheet a, _ => by
    rw [Expr.chars]
    exact (endsSolid_address a).prepend _
  | .range sheet a b, _ => by
    have hshape : (Expr.range sheet a b).chars = sheetChars sheet ++ (a.chars ++ [':']) ++ b.chars := by
      simp only [Expr.chars, List.append_assoc, List.cons_append, List.nil_append]
    rw [hshape]
    exact (endsSolid_address b).prepend _
  | .binary op l r, h => by
    have hj : op.strength + (3 - op.strength) = 3 := by
      have := op.strength_pos
      omega
    rw [chars_binary hj]
    exact (endsSolid_printed (endsSolid_chars r h.2) _).prepend _
  | .negate e, h => by
    rw [chars_negate]
    exact (endsSolid_printed (endsSolid_chars e h) _).prepend ['-']
  | .call name args, _ => by
    have hshape : (Expr.call name args).chars = name.toList ++ '(' :: Expr.listChars args ++ [')'] := by
      simp only [Expr.chars, List.append_assoc, List.cons_append]
    rw [hshape]
    exact endsSolid_mark _ (by decide)

/-! ## Whole texts -/

theorem parseChars_chars {e : Expr} (h : e.IsPlain) : parseChars e.chars = .ok e := by
  have hbegins : Begins isFormulaStart e.chars := begins_chars e h
  have hblank : Halts isBlank e.chars := hbegins.halts fun c hc => isBlank_eq_false_of_isFormulaStart hc
  have hlast : Halts isBlank e.chars.reverse := (endsSolid_chars e h).halts fun c hc => by simpa using hc
  have hequals : dropEquals e.chars = e.chars := by
    obtain ⟨c, w, hchars, hc⟩ := hbegins
    rw [hchars, dropEquals]
    rintro s ⟨⟩
    exact absurd hc (by decide)
  have hs : dropEquals (trimmed e.chars) = e.chars ++ [] := by
    rw [trimmed_eq_self hblank hlast, hequals, List.append_nil]
  exact parseChars_of_isFormula hs areBlanks_nil (.of_printed (e.isFormula_printed h))

/-- The text of a formula is read back as the formula. -/
theorem parse_toText {e : Expr} (h : e.IsPlain) : parse e.toText = .ok e := by
  rw [parse, Expr.toText, String.toList_ofList]
  exact parseChars_chars h

/-- A difference on the right of a difference, a quoted sheet, a doubled quote and a call without arguments. -/
theorem parse_toText_nested :
    let inner := Expr.call "SUM" [.range (some "it's") ⟨1, 0, true, true⟩ ⟨2, 1, false, false⟩, .text "a\"b"]
    let e := Expr.binary .notEqual (.binary .subtract (.number 1.5) (.binary .subtract (.negate inner) (.truth true)))
      (.call "NOW.2" [])
    e.IsPlain ∧ e.toText = "1.5-(-SUM('it''s'!$A$1:B2,\"a\"\"b\")-TRUE)<>NOW.2()" ∧ parse e.toText = .ok e := by
  intro inner e
  have hinner : inner.IsPlain := ⟨by decide, ⟨by decide, by decide⟩, trivial, trivial⟩
  have hnumber : (Expr.number 1.5).IsPlain := ⟨by decide +kernel, by decide +kernel⟩
  have h : e.IsPlain := ⟨⟨hnumber, hinner, trivial⟩, by decide, trivial⟩
  exact ⟨h, by decide +kernel, parse_toText h⟩

/-- The sign of a negative zero is read as an operator, although the number is not below zero and its text names it. -/
theorem parse_toText_negativeZero :
    (0 : Float) ≤ -0.0 ∧ Number.isFinite (-0.0) = true ∧ Number.ReadsBack (-0.0) ∧
      parse (Expr.number (-0.0)).toText = .ok (.negate (.number 0)) ∧
      parse (Expr.number (-0.0)).toText ≠ .ok (.number (-0.0)) := by
  have htext : (Expr.number (-0.0)).toText = (Expr.negate (.number 0)).toText := by decide +kernel
  have hzero : (Expr.negate (.number 0)).IsPlain := ⟨by decide +kernel, by decide +kernel⟩
  have hparse : parse (Expr.number (-0.0)).toText = .ok (.negate (.number 0)) := by
    rw [htext, parse, Expr.toText, String.toList_ofList]
    exact parseChars_chars hzero
  refine ⟨by decide +kernel, by decide +kernel, by decide +kernel, hparse, ?_⟩
  rw [hparse]
  intro heq
  cases heq

end Spreadsheet.Formula
