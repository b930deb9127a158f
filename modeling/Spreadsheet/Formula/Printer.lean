import Spreadsheet.Formula.Expr
import Spreadsheet.Number.Numeral

/-!
# The text of a formula

`Expr.chars` writes a formula without a leading equals sign. Operators associate to the left, so a left operand
is put into parentheses when it binds weaker than the operator, and a right operand also when it binds equally.
Quotes inside a text or a sheet's name are written twice.
-/

set_option autoImplicit false

namespace Spreadsheet.Formula

open Grid

def doubled (mark : Char) (s : List Char) : List Char :=
  s.flatMap fun c => if c = mark then [mark, mark] else [c]

def isNameStart (c : Char) : Bool := c.isAlpha || c == '_'

def isNameChar (c : Char) : Bool := c.isAlphanum || c == '_' || c == '.'

def isPlainSheet (s : List Char) : Bool := s.head?.any isNameStart && s.all isNameChar

def sheetChars : Option String → List Char
  | none => []
  | some s =>
    if isPlainSheet s.toList then s.toList ++ ['!'] else '\'' :: doubled '\'' s.toList ++ ['\'', '!']

/-- How strongly the outermost operator of a formula binds; an operand without one binds strongest. -/
def Expr.strength : Expr → Nat
  | .binary op _ _ => op.strength
  | _ => 4

def parenthesized (needed : Bool) (s : List Char) : List Char := if needed then '(' :: s ++ [')'] else s

mutual

def Expr.chars : Expr → List Char
  | .number x => Number.write x
  | .text s => '"' :: doubled '"' s.toList ++ ['"']
  | .truth true => "TRUE".toList
  | .truth false => "FALSE".toList
  | .cell sheet a => sheetChars sheet ++ a.chars
  | .range sheet a b => sheetChars sheet ++ (a.chars ++ ':' :: b.chars)
  | .binary op l r =>
    parenthesized (l.strength < op.strength) l.chars ++ op.symbol.toList ++
      parenthesized (r.strength ≤ op.strength) r.chars
  | .negate e => '-' :: parenthesized (e.strength < 4) e.chars
  | .call name args => name.toList ++ '(' :: Expr.listChars args ++ [')']

def Expr.listChars : List Expr → List Char
  | [] => []
  | e :: rest =>
    match rest with
    | [] => e.chars
    | _ :: _ => e.chars ++ ',' :: Expr.listChars rest

end

def Expr.toText (e : Expr) : String := String.ofList e.chars

end Spreadsheet.Formula
