import Spreadsheet.Proofs.Formula.Words
import Spreadsheet.Proofs.Outcome

/-! # What has been read is a formula

* `TakesOnly`: what a reader takes is what the grammar allows.
* `takesOnly_operand`, `takesOnly_signed`, `takesOnly_level`: an operand and the levels, given that of the formulas
  inside them.
* `takesOnly_formula`: the induction over how deep formulas are nested. -/

set_option autoImplicit false

namespace Spreadsheet.Formula

open Grid Text

/-- What a reader takes stands in front of what is left, and is of a kind. -/
def TakesOnly (read : List Char → Parsed) (kind : List Char → Expr → Prop) : Prop :=
  ∀ ⦃s e rest⦄, read s = .ok (e, rest) → ∃ w, s = w ++ rest ∧ kind w e

def IsBlankOperand (s : List Char) (e : Expr) : Prop := ∃ b w, AreBlanks b ∧ s = b ++ w ∧ IsOperand w e

theorem joins_of_jointSheet {first second sheet : Option String} (h : jointSheet first second = .ok sheet) :
    Joins first second sheet := by
  unfold jointSheet at h
  split at h
  next =>
    split at h
    next heq =>
      cases h
      rw [← heq]
      exact .both _
    next => cases h
  next =>
    cases h
    exact .first _
  next =>
    cases h
    exact .second _

theorem takesOnly_rangeTail {w : List Char} {first : Reference} (hfirst : IsReference w first.1 first.2) :
    TakesOnly (rangeTail first) fun v e => IsOperand (w ++ v) e := by
  intro s e rest h
  unfold rangeTail at h
  split at h
  next =>
    cases h
    exact ⟨[], rfl, by simpa using IsOperand.cell hfirst⟩
  next after hcolon =>
    obtain ⟨b, hb, rfl⟩ := exists_of_eat? hcolon
    simp only [bind_eq_ok] at h
    obtain ⟨found, hfound, h⟩ := h
    split at h
    next => cases h
    next sheet stop rest' =>
      simp only [bind_eq_ok, pure_eq_ok] at h
      obtain ⟨joint, hjoint, heq⟩ := h
      cases heq
      obtain ⟨c, u, hc, rfl, hsecond⟩ := isReference_of_reference hfound
      refine ⟨b ++ ':' :: (c ++ u), by simp, ?_⟩
      exact .range hfirst hb hc hsecond (joins_of_jointSheet hjoint)

theorem takesOnly_literal : TakesOnly literal IsOperand := by
  intro s e rest h
  unfold literal at h
  split at h
  next b after htruth =>
    cases h
    exact ⟨_, eq_truthChars_of_truth? htruth, .truth b⟩
  next =>
    split at h
    next x after hnumber =>
      cases h
      obtain ⟨w, hw, hnumeral, hx⟩ := isNumeral_of_number? hnumber
      exact ⟨w, hw, .number hnumeral hx⟩
    next =>
      split at h
      next body =>
        split at h
        next text after hquoted =>
          cases h
          have htext : text = (String.ofList text).toList := String.toList_ofList.symm
          refine ⟨'"' :: (doubled '"' text ++ ['"']), ?_, ?_⟩
          · rw [eq_doubled_of_quoted? hquoted]
            simp
          · rw [htext]
            simpa using IsOperand.text (String.ofList text)
        next => cases h
      next => cases h
      next => cases h

section Inside

variable {formula : List Char → Parsed} (hformula : TakesOnly formula (IsFormula 3))

include hformula

theorem areArguments_of_arguments {function : String} {limit : Nat} {s rest : List Char} {args : List Expr}
    (h : arguments formula function limit s = .ok (args, rest)) : ∃ w, s = w ++ rest ∧ AreArguments w args := by
  induction limit generalizing s args with
  | zero => cases h
  | succ limit ih =>
    simp only [arguments, bind_eq_ok] at h
    obtain ⟨⟨e, after⟩, he, h⟩ := h
    obtain ⟨w, rfl, hw⟩ := hformula he
    split at h
    next hclose =>
      cases h
      obtain ⟨b, hb, rfl⟩ := exists_of_eat? hclose
      exact ⟨w ++ (b ++ [')']), by simp, .last hw hb⟩
    next =>
      split at h
      next after' hcomma =>
        simp only [bind_eq_ok, pure_eq_ok] at h
        obtain ⟨⟨es, rest'⟩, hes, heq⟩ := h
        cases heq
        obtain ⟨b, hb, rfl⟩ := exists_of_eat? hcomma
        obtain ⟨v, rfl, hv⟩ := ih hes
        exact ⟨w ++ (b ++ ',' :: v), by simp, .next hw hb hv⟩
      next =>
        split at h
        · cases h
        · cases h

theorem takesOnly_callTail {name : List Char} (hname : isFunctionName (String.ofList name) = true) :
    TakesOnly (callTail formula name) fun v e => IsOperand (name ++ '(' :: v) e := by
  have hchars : (String.ofList name).toList = name := String.toList_ofList
  intro s e rest h
  unfold callTail at h
  split at h
  next hclose =>
    cases h
    obtain ⟨b, hb, rfl⟩ := exists_of_eat? hclose
    exact ⟨b ++ [')'], by simp, by rw [← hchars, String.ofList_toList]; exact .callEmpty hname hb⟩
  next =>
    simp only [bind_eq_ok, pure_eq_ok] at h
    obtain ⟨⟨args, rest'⟩, hargs, heq⟩ := h
    cases heq
    obtain ⟨w, rfl, hw⟩ := areArguments_of_arguments hformula hargs
    exact ⟨w, rfl, by rw [← hchars, String.ofList_toList]; exact .call hname hw⟩

theorem takesOnly_operand : TakesOnly (operand formula) IsBlankOperand := by
  intro s e rest h
  obtain ⟨b, hb, hs⟩ := exists_blanks s
  -- Names, parentheses and references skip blanks of their own, after those that are skipped for all of them.
  suffices hword : ∃ w, skipBlanks s = w ++ rest ∧ IsBlankOperand w e by
    obtain ⟨w, hw, c, u, hc, rfl, hu⟩ := hword
    exact ⟨b ++ (c ++ u), by rw [List.append_assoc, ← hw, ← hs], b ++ c, u, hb.append hc,
      (List.append_assoc ..).symm, hu⟩
  unfold operand at h
  dsimp only at h
  split at h
  next name after hcall =>
    obtain ⟨hname, hskip⟩ := isFunctionName_of_callName? hcall
    obtain ⟨w, rfl, hw⟩ := takesOnly_callTail hformula hname h
    exact ⟨name ++ '(' :: w, by rw [hskip]; simp, [], _, areBlanks_nil, rfl, hw⟩
  next =>
    split at h
    next after hopen =>
      obtain ⟨c, hc, hskip⟩ := exists_of_eat? hopen
      simp only [bind_eq_ok] at h
      obtain ⟨⟨e', after'⟩, he, h⟩ := h
      obtain ⟨w, rfl, hw⟩ := hformula he
      split at h
      next hclose =>
        cases h
        obtain ⟨d, hd, rfl⟩ := exists_of_eat? hclose
        exact ⟨c ++ '(' :: (w ++ (d ++ [')'])), by rw [hskip]; simp, c, _, hc, rfl, .parens hw hd⟩
      next => cases h
    next =>
      simp only [bind_eq_ok] at h
      obtain ⟨found, hfound, h⟩ := h
      split at h
      next first after =>
        obtain ⟨c, w, hc, hskip, hw⟩ := isReference_of_reference hfound
        obtain ⟨v, rfl, hv⟩ := takesOnly_rangeTail hw h
        exact ⟨c ++ (w ++ v), by rw [hskip]; simp, c, _, hc, rfl, hv⟩
      next =>
        obtain ⟨w, hw, hliteral⟩ := takesOnly_literal h
        exact ⟨w, hw, [], w, areBlanks_nil, rfl, hliteral⟩

theorem takesOnly_signed (limit : Nat) : TakesOnly (signed (operand formula) limit) (IsFormula 0) := by
  have hoperand : TakesOnly (operand formula) (IsFormula 0) := by
    intro s e rest h
    obtain ⟨w, hw, b, u, hb, rfl, hu⟩ := takesOnly_operand hformula h
    exact ⟨_, hw, .operand hb hu⟩
  induction limit with
  | zero => exact hoperand
  | succ limit ih =>
    intro s e rest h
    rw [signed] at h
    split at h
    next after hminus =>
      simp only [bind_eq_ok, pure_eq_ok] at h
      obtain ⟨⟨e', rest'⟩, he, heq⟩ := h
      cases heq
      obtain ⟨b, hb, rfl⟩ := exists_of_eat? hminus
      obtain ⟨w, rfl, hw⟩ := ih he
      exact ⟨b ++ '-' :: w, by simp, .minus hb hw⟩
    next =>
      split at h
      next after hplus =>
        obtain ⟨b, hb, rfl⟩ := exists_of_eat? hplus
        obtain ⟨w, rfl, hw⟩ := ih h
        exact ⟨b ++ '+' :: w, by simp, .plus hb hw⟩
      next => exact hoperand h

end Inside

theorem mem_operatorsAt {j : Nat} (hj : j ≤ 2) {token : String} {op : BinaryOp} (h : (token, op) ∈ operatorsAt j) :
    token ∈ op.spellings ∧ op.strength + j = 3 := by
  have hall : ∀ j ≤ 2, ∀ entry ∈ operatorsAt j, entry.1 ∈ entry.2.spellings ∧ entry.2.strength + j = 3 := by
    intro j hj
    obtain rfl | rfl | rfl : j = 0 ∨ j = 1 ∨ j = 2 := by omega
    all_goals decide
  exact hall j hj _ h

theorem exists_of_operator? {operators : List (String × BinaryOp)} {s rest : List Char} {op : BinaryOp}
    (h : operator? s operators = some (op, rest)) :
    ∃ token b, (token, op) ∈ operators ∧ AreBlanks b ∧ s = b ++ (token.toList ++ rest) := by
  induction operators with
  | nil => cases h
  | cons entry others ih =>
    rw [operator?] at h
    split at h
    next heat =>
      cases h
      obtain ⟨b, hb, hs⟩ := exists_of_eat? heat
      exact ⟨entry.1, b, List.mem_cons_self .., hb, hs⟩
    next =>
      obtain ⟨token, b, hmem, hb, hs⟩ := ih h
      exact ⟨token, b, List.mem_cons_of_mem _ hmem, hb, hs⟩

theorem takesOnly_chain {j : Nat} (hj : j ≤ 2) {operand : List Char → Parsed}
    (hoperand : TakesOnly operand (IsFormula j)) {limit : Nat} {v : List Char} {left : Expr}
    (hleft : IsFormula (j + 1) v left) :
    TakesOnly (chain (operatorsAt j) operand limit left) fun w e => IsFormula (j + 1) (v ++ w) e := by
  intro s e rest h
  -- The left operand grows with each operator, and with it the text that has been read for it.
  induction limit generalizing s v left with
  | zero =>
    cases h
    exact ⟨[], rfl, by simpa using hleft⟩
  | succ limit ih =>
    rw [chain] at h
    split at h
    next =>
      cases h
      exact ⟨[], rfl, by simpa using hleft⟩
    next op after hop =>
      simp only [bind_eq_ok] at h
      obtain ⟨⟨right, after'⟩, hright, h⟩ := h
      obtain ⟨token, b, hmem, hb, rfl⟩ := exists_of_operator? hop
      obtain ⟨w, rfl, hw⟩ := hoperand hright
      obtain ⟨htoken, hstrength⟩ := mem_operatorsAt hj hmem
      obtain ⟨u, rfl, hu⟩ := ih (.joined hstrength htoken hb hleft hw) h
      exact ⟨b ++ (token.toList ++ w) ++ u, by simp, by simpa using hu⟩

theorem takesOnly_level {j : Nat} (hj : j ≤ 2) {operand : List Char → Parsed}
    (hoperand : TakesOnly operand (IsFormula j)) : TakesOnly (level (operatorsAt j) operand) (IsFormula (j + 1)) := by
  intro s e rest h
  simp only [level, bind_eq_ok] at h
  obtain ⟨⟨left, after⟩, hleft, h⟩ := h
  obtain ⟨w, rfl, hw⟩ := hoperand hleft
  obtain ⟨v, rfl, hv⟩ := takesOnly_chain hj hoperand (.single hw) h
  exact ⟨w ++ v, by simp, hv⟩

theorem takesOnly_formula (depth : Nat) : TakesOnly (formula depth) (IsFormula 3) := by
  induction depth with
  | zero =>
    intro s e rest h
    cases h
  | succ depth ih =>
    have hfactor : TakesOnly (factor (formula depth)) (IsFormula 0) := fun s e rest h => takesOnly_signed ih _ h
    have hproducts := takesOnly_level (j := 0) (by omega) hfactor
    have hsums := takesOnly_level (j := 1) (by omega) hproducts
    exact takesOnly_level (j := 2) (by omega) hsums

end Spreadsheet.Formula
