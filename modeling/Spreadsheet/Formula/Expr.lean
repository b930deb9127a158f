import Spreadsheet.Grid.Rect

/-!
# Formulas

* `Expr`: a formula as a tree. References keep the corners and anchors that were written.
* `BinaryOp`: the operators, with their symbols and binding strengths.
* `Formula.Error`: why a text is no formula, or why a formula has no value.
-/

set_option autoImplicit false

namespace Spreadsheet.Formula

open Grid

inductive BinaryOp where
  | add
  | subtract
  | multiply
  | divide
  | equal
  | notEqual
  | less
  | lessEqual
  | greater
  | greaterEqual
  | concat
  deriving DecidableEq, Repr

/-- How strongly an operator binds: comparisons weakest, then sums, then products. -/
def BinaryOp.strength : BinaryOp → Nat
  | .equal | .notEqual | .less | .lessEqual | .greater | .greaterEqual => 1
  | .add | .subtract | .concat => 2
  | .multiply | .divide => 3

def BinaryOp.symbol : BinaryOp → String
  | .add => "+"
  | .subtract => "-"
  | .multiply => "*"
  | .divide => "/"
  | .equal => "="
  | .notEqual => "<>"
  | .less => "<"
  | .lessEqual => "<="
  | .greater => ">"
  | .greaterEqual => ">="
  | .concat => "&"

inductive Expr where
  | number (x : Float)
  | text (s : String)
  | truth (b : Bool)
  | cell (sheet : Option String) (address : Address)
  | range (sheet : Option String) (start stop : Address)
  | binary (op : BinaryOp) (left right : Expr)
  | negate (operand : Expr)
  | call (name : String) (args : List Expr)
  deriving Inhabited, Repr

/-- Why a text is no formula, or why a formula has no value. -/
inductive Error where
  | missingClosingParen
  | expectedComma (function : String)
  | malformedAddress (near : String)
  | malformedRange (near : String)
  | unterminatedString
  | unrecognizedTerminal (near : String)
  | trailingInput (rest : String)
  /-- The kinds of the operands do not suit the operator or function. -/
  | typeMismatch (what : String)
  | unimplementedFunction (name : String)
  | argumentCount (function expected : String) (actual : Nat)
  | rangeNotAllowed (range : String)
  | cycleDetected (cell : String)
  | invalidReference (what : String)
  | unknownSheet (name : String)
  | referenceFailed (reason : String)
  deriving DecidableEq, Repr

def Error.message : Error → String
  | .missingClosingParen => "Parse error: missing closing parenthesis"
  | .expectedComma f => String.join ["Parse error: expected ',' between arguments of ", f]
  | .malformedAddress s => String.join ["Parse error: malformed cell address near '", s, "'"]
  | .malformedRange s => String.join ["Parse error: malformed range near '", s, "'"]
  | .unterminatedString => "Parse error: unterminated string"
  | .unrecognizedTerminal s => String.join ["Parse error: unrecognized input at '", s, "'"]
  | .trailingInput s => String.join ["Parse error: unexpected characters after expression: '", s, "'"]
  | .typeMismatch s => String.join ["Type mismatch: ", s]
  | .unimplementedFunction f => String.join ["Unimplemented function: ", f]
  | .argumentCount f expected actual =>
    String.join ["Wrong number of arguments for ", f, ": expected ", expected, ", got ", Text.Numeral.text actual]
  | .rangeNotAllowed s => String.join ["Range ", s, " can only be used as a function argument"]
  | .cycleDetected s => String.join ["Circular reference detected at ", s]
  | .invalidReference s => String.join ["Invalid reference: ", s]
  | .unknownSheet s => String.join ["Unknown sheet: ", s]
  | .referenceFailed s => String.join ["Cannot read referenced cell: ", s]

end Spreadsheet.Formula
