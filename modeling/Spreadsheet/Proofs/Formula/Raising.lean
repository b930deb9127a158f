import Spreadsheet.Formula.Parser
import Spreadsheet.Formula.Relocate
import Spreadsheet.Proofs.Formula.Dialogues
import Spreadsheet.Proofs.Outcome

/-! # Errors of formulas

Each stage has errors of its own kinds. None of them is that a cell needs its own value: only an evaluation that comes
back to a cell says so.

* `raises_parse`: a text that is no formula.
* `raises_relocate`: a formula that cannot be moved.
* `Expr.raises_query`: a formula that has no value although all cells that it asks for have one. -/

set_option autoImplicit false

namespace Spreadsheet.Formula

open Grid

/-! ## Texts that are no formulas -/

/-- An error in the text of a formula. -/
def IsSyntaxError (e : Error) : Prop :=
  e.kind ∈ [.missingClosingParen, .expectedComma, .malformedAddress, .malformedRange, .unterminatedString,
    .unrecognizedTerminal, .trailingInput]

theorem raises_addressAfter (start : List Char) (sheet : Option String) (s : List Char) :
    Raises IsSyntaxError (addressAfter start sheet s) := by
  have hmalformed : IsSyntaxError (.malformedAddress (excerpt start)) := by simp [IsSyntaxError, Error.kind]
  unfold addressAfter
  dsimp only
  split
  · split
    · exact .error hmalformed
    · exact .ok none
  · split
    · exact .ok _
    · exact .error hmalformed

theorem raises_reference (s : List Char) : Raises IsSyntaxError (reference s) := by
  unfold reference
  split
  · split
    · exact raises_addressAfter _ _ _
    · exact .error (by simp [IsSyntaxError, Error.kind])
  · split
    · exact raises_addressAfter _ _ _
    · exact raises_addressAfter _ _ _

theorem raises_rangeTail (first : Reference) (s : List Char) : Raises IsSyntaxError (rangeTail first s) := by
  unfold rangeTail
  split
  · exact .ok _
  · refine (raises_reference _).bind fun found => ?_
    split
    · exact .error (by simp [IsSyntaxError, Error.kind])
    · refine .bind ?_ fun sheet => .ok _
      unfold jointSheet
      split
      · split
        · exact .ok _
        · exact .error (by simp [IsSyntaxError, Error.kind])
      · exact .ok _
      · exact .ok _

theorem raises_literal (s : List Char) : Raises IsSyntaxError (literal s) := by
  unfold literal
  split
  · exact .ok _
  split
  · exact .ok _
  split
  · split
    · exact .ok _
    · exact .error (by simp [IsSyntaxError, Error.kind])
  · exact .error (by simp [IsSyntaxError, Error.kind])
  · exact .error (by simp [IsSyntaxError, Error.kind])

section Inside

variable {formula : List Char → Parsed} (hformula : ∀ s, Raises IsSyntaxError (formula s))

include hformula

theorem raises_arguments (function : String) (limit : Nat) (s : List Char) :
    Raises IsSyntaxError (arguments formula function limit s) := by
  induction limit generalizing s with
  | zero => exact .error (by simp [IsSyntaxError, Error.kind])
  | succ limit ih =>
    unfold arguments
    refine (hformula s).bind fun first => ?_
    dsimp only
    split
    · exact .ok _
    split
    · exact (ih _).bind fun rest => .ok _
    split
    · exact .error (by simp [IsSyntaxError, Error.kind])
    · exact .error (by simp [IsSyntaxError, Error.kind])

theorem raises_operand (s : List Char) : Raises IsSyntaxError (operand formula s) := by
  unfold operand callTail
  dsimp only
  split
  · split
    · exact .ok _
    · exact (raises_arguments hformula _ _ _).bind fun args => .ok _
  split
  · refine (hformula _).bind fun inner => ?_
    split
    · exact .ok _
    · exact .error (by simp [IsSyntaxError, Error.kind])
  · refine (raises_reference _).bind fun found => ?_
    split
    · exact raises_rangeTail _ _
    · exact raises_literal _

theorem raises_signed (limit : Nat) (s : List Char) : Raises IsSyntaxError (signed formula limit s) := by
  induction limit generalizing s with
  | zero => exact hformula s
  | succ limit ih =>
    unfold signed
    split
    · exact (ih _).bind fun inner => .ok _
    split
    · exact ih _
    · exact hformula s

theorem raises_level (operators : List (String × BinaryOp)) (s : List Char) :
    Raises IsSyntaxError (level operators formula s) := by
  have hchain : ∀ limit left s, Raises IsSyntaxError (chain operators formula limit left s) := by
    intro limit
    induction limit with
    | zero => exact fun left s => .ok _
    | succ limit ih =>
      intro left s
      unfold chain
      split
      · exact .ok _
      · exact (hformula _).bind fun right => ih _ _
  exact (hformula s).bind fun left => hchain _ _ _

end Inside

theorem raises_formula (depth : Nat) (s : List Char) : Raises IsSyntaxError (formula depth s) := by
  induction depth generalizing s with
  | zero => exact .error (by simp [IsSyntaxError, Error.kind])
  | succ depth ih =>
    have hfactor : ∀ s, Raises IsSyntaxError (factor (formula depth) s) := fun s =>
      raises_signed (raises_operand ih) s.length s
    exact raises_level (raises_level (raises_level hfactor products) sums) comparisons s

theorem raises_parse (s : String) : Raises IsSyntaxError (parse s) := by
  unfold parse parseChars
  refine (raises_formula _ _).bind fun read => ?_
  dsimp only
  split
  · exact .ok _
  · exact .error (by simp [IsSyntaxError, Error.kind])

/-! ## Formulas that cannot be moved -/

/-- An error for a reference that would leave the grid. -/
def IsMoveError (e : Error) : Prop := e.kind = .invalidReference

theorem raises_moveReference (d : Shift) (a : Address) : Raises IsMoveError (moveReference d a) := by
  unfold moveReference
  split
  · exact .ok _
  · exact .error (by simp [IsMoveError, Error.kind])

mutual

theorem Expr.raises_moved (d : Shift) : (e : Expr) → Raises IsMoveError (e.moved d)
  | .number _ => .ok _
  | .text _ => .ok _
  | .truth _ => .ok _
  | .cell none a => (raises_moveReference d a).bind fun _ => .ok _
  | .cell (some _) _ => .ok _
  | .range none a b => (raises_moveReference d a).bind fun _ => (raises_moveReference d b).bind fun _ => .ok _
  | .range (some _) _ _ => .ok _
  | .binary _ l r => (Expr.raises_moved d l).bind fun _ => (Expr.raises_moved d r).bind fun _ => .ok _
  | .negate e => (Expr.raises_moved d e).bind fun _ => .ok _
  | .call _ args => (Expr.raises_movedAll d args).bind fun _ => .ok _

theorem Expr.raises_movedAll (d : Shift) : (args : List Expr) → Raises IsMoveError (Expr.movedAll d args)
  | [] => .ok _
  | e :: rest => (Expr.raises_moved d e).bind fun _ => (Expr.raises_movedAll d rest).bind fun _ => .ok _

end

theorem raises_relocate (e : Expr) (d : Shift) : Raises IsMoveError (e.relocate d) := by
  unfold Expr.relocate
  split
  · exact .ok e
  · exact e.raises_moved d

/-! ## Formulas without a value -/

namespace Query

variable {α β : Type}

/-- A dialogue that ends with no error but those of a kind, whatever it is told. -/
def Raises (P : Error → Prop) : Query α → Prop
  | .done _ => True
  | .fail e => P e
  | .ask _ _ next => ∀ v, (next v).Raises P

theorem Raises.bind {P : Error → Prop} {q : Query α} {f : α → Query β} (hq : q.Raises P)
    (hf : ∀ x, (f x).Raises P) : (q >>= f).Raises P := by
  induction q with
  | done x => exact hf x
  | fail e => exact hq
  | ask sheet a next ih => exact fun v => ih v (hq v)

theorem isCongruence_raises : IsCongruence fun q _ => q.Raises IsEvaluationError where
  done _ := trivial
  fail _ hkind := hkind
  bind hq hf := hq.bind hf

end Query

theorem Expr.raises_query (here : Address) (e : Expr) : (e.query here).Raises IsEvaluationError :=
  (Expr.related_self Query.isCongruence_raises here e fun _ _ _ _ => trivial).value

end Spreadsheet.Formula
