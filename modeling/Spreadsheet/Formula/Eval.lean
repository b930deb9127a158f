import Spreadsheet.Formula.Builtin

/-!
# The value of a formula

`Expr.query` is the dialogue that evaluates a formula in a cell. Operands are evaluated from left to right; the
arguments of a call are left to the function.
-/

set_option autoImplicit false

namespace Spreadsheet.Formula

open Grid

/-- The operands of an operator are of kinds that do not suit it. -/
def mismatch (op : BinaryOp) (v w : Value) : Error :=
  .typeMismatch (op.symbol ++ " applied to " ++ v.kind ++ " and " ++ w.kind)

def arithmetic (op : BinaryOp) (f : Float → Float → Float) (v w : Value) : Except Error Value :=
  match v.toNumber?, w.toNumber? with
  | some x, some y => .ok (.number (f x y))
  | _, _ => .error (mismatch op v w)

/-- A comparison of two numbers or two texts. A NaN compares false in every way. -/
def ordered (op : BinaryOp) (wanted : Ordering → Bool) (v w : Value) : Except Error Value :=
  match v, w with
  | .number x, .number y => .ok (.truth ((Number.order? x y).any wanted))
  | .text s, .text t => .ok (.truth (wanted (Text.order s.toList t.toList)))
  | _, _ => .error (mismatch op v w)

def joinTexts (v w : Value) : Except Error Value :=
  match v, w with
  | .text s, .text t => .ok (.text (s ++ t))
  | _, _ => .error (mismatch .concat v w)

def BinaryOp.apply : BinaryOp → Value → Value → Except Error Value
  | .add => arithmetic .add (· + ·)
  | .subtract => arithmetic .subtract (· - ·)
  | .multiply => arithmetic .multiply (· * ·)
  | .divide => arithmetic .divide (· / ·)
  | .equal => fun v w => .ok (.truth (v.same w))
  | .notEqual => fun v w => .ok (.truth (!v.same w))
  | .less => ordered .less (· == .lt)
  | .lessEqual => ordered .lessEqual (· != .gt)
  | .greater => ordered .greater (· == .gt)
  | .greaterEqual => ordered .greaterEqual (· != .lt)
  | .concat => joinTexts

def negated (v : Value) : Except Error Value :=
  match v.toNumber? with
  | some x => .ok (.number (-x))
  | none => .error (.typeMismatch ("- applied to " ++ v.kind))

def Query.ofExcept {α : Type} : Except Error α → Query α
  | .ok a => .done a
  | .error e => .fail e

def call (here : Address) (name : String) (args : List Operand) : Query Value :=
  match Builtin.ofName? name with
  | none => .fail (.unimplementedFunction name)
  | some f =>
    match f.checkArity name args.length with
    | .ok _ => f.apply here args
    | .error e => .fail e

mutual

def Expr.query (here : Address) : Expr → Query Value
  | .number x => .done (.number x)
  | .text s => .done (.text s)
  | .truth b => .done (.truth b)
  | .cell sheet a => Query.read sheet a
  | .range sheet a b => .fail (.rangeNotAllowed (Expr.range sheet a b).toText)
  | .binary op l r =>
    (l.query here).bind fun v => (r.query here).bind fun w => .ofExcept (op.apply v w)
  | .negate e => (e.query here).bind fun v => .ofExcept (negated v)
  | .call name args => Formula.call here name (Expr.operands here args)

def Expr.operands (here : Address) : List Expr → List Operand
  | [] => []
  | e :: rest => ⟨e, e.query here⟩ :: Expr.operands here rest

end

def Expr.values (here : Address) (args : List Expr) : Query (List Value) :=
  Operand.allValues (Expr.operands here args)

/-- Evaluates a formula in the cell `here`, with someone who answers for the cells that it asks for. -/
def Expr.evaluate {m : Type → Type} [Monad m] (e : Expr) (here : Address)
    (answer : Option String → Address → m (Except Error Value)) : m (Except Error Value) :=
  (e.query here).run answer

end Spreadsheet.Formula
