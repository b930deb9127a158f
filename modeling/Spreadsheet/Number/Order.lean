import Spreadsheet.Number.Binary
import Spreadsheet.Text.Order

/-!
# The order of numbers

Floats other than NaN are ordered by `rank`, the integer that their bits count from zero; both zeros have rank
zero. A NaN is not ordered with anything.

`larger` and `smaller` pass over a NaN unless both operands are NaN, and keep the second of two equal operands, which
shows with zeros of different signs.
-/

set_option autoImplicit false

namespace Spreadsheet.Number

def rank (x : Float) : Int := if isNegative x then -(magnitudeBits x : Int) else magnitudeBits x

def orderInt (m n : Int) : Ordering := if m < n then .lt else if m = n then .eq else .gt

def order? (x y : Float) : Option Ordering :=
  if isNaN x || isNaN y then none else some (orderInt (rank x) (rank y))

/-- The second float if the first is NaN or is not ordered after it in the given way, and otherwise the first. -/
def preferred (after : Ordering) (x y : Float) : Float :=
  if isNaN x then y
  else
    match order? x y with
    | some o => if o = after then x else y
    | none => x

def larger (x y : Float) : Float := preferred .gt x y

def smaller (x y : Float) : Float := preferred .lt x y

end Spreadsheet.Number
