import Spreadsheet.Formula.Expr

/-!
# Moving a formula

`Expr.relocate` is a formula as it is for a cell at a displacement from the one it was written for. References
without a sheet move along their free axes; references that name a sheet stay. A reference that would leave the
grid is an error, and of several the first as written is reported.
-/

set_option autoImplicit false

namespace Spreadsheet.Formula

open Grid

def moveReference (d : Shift) (a : Address) : Except Error Address :=
  match a.move? d with
  | some b => .ok b
  | none => .error (.invalidReference (a.text ++ " moved by " ++ d.text))

mutual

def Expr.moved (d : Shift) : Expr → Except Error Expr
  | .cell none a => do return .cell none (← moveReference d a)
  | .range none a b => do return .range none (← moveReference d a) (← moveReference d b)
  | .binary op l r => do return .binary op (← l.moved d) (← r.moved d)
  | .negate e => do return .negate (← e.moved d)
  | .call name args => do return .call name (← Expr.movedAll d args)
  | .number x => .ok (.number x)
  | .text s => .ok (.text s)
  | .truth b => .ok (.truth b)
  | .cell (some sheet) a => .ok (.cell (some sheet) a)
  | .range (some sheet) a b => .ok (.range (some sheet) a b)

def Expr.movedAll (d : Shift) : List Expr → Except Error (List Expr)
  | [] => .ok []
  | e :: rest => do return (← e.moved d) :: (← Expr.movedAll d rest)

end

/-- The formula at a displacement; without displacement it is kept even when it refers to cells off the
grid. -/
def Expr.relocate (e : Expr) (d : Shift) : Except Error Expr := if d.isZero then .ok e else e.moved d

end Spreadsheet.Formula
