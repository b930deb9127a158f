import Spreadsheet.Number.Binary

/-!
# The fewest digits that read back

`shortest` selects, for a finite magnitude that is not zero, the decimal with the fewest digits among the
reals that round to it; of two with as many digits the nearer, and of two equally near the larger.

The search goes through the decimal grids from the coarsest that can hold a leading digit to the one of 17
digits. On each grid only the two neighbours of the magnitude can lie in its interval.
-/

set_option autoImplicit false

namespace Spreadsheet.Number

/-- A decimal, `digits * 10 ^ scale`. -/
structure Decimal where
  digits : Nat
  scale : Int
  deriving DecidableEq, Repr

/-- The least `k` from `start` on with the magnitude below `10 ^ k`, among the next `steps`. -/
def Magnitude.scaleFrom (x : Magnitude) (start : Int) : Nat → Int
  | 0 => start
  | steps + 1 =>
    if orderScaled 1 start x.significand x.exponent == .gt then start else x.scaleFrom (start + 1) steps

/-- The least `k` with the magnitude below `10 ^ k`: estimated from the binary logarithm, then corrected. -/
def Magnitude.scale (x : Magnitude) : Int :=
  let bits : Int := (Nat.log2 x.significand : Int) + x.exponent
  x.scaleFrom (Int.fdiv (bits * 1233) 4096 - 1) 6

/-- The magnitude on the grid of spacing `10 ^ g`, rounded down. -/
def Magnitude.below (x : Magnitude) (g : Int) : Nat :=
  (x.significand * Nat.pow 2 x.exponent.toNat * Nat.pow 10 (-g).toNat) /
    (Nat.pow 2 (-x.exponent).toNat * Nat.pow 10 g.toNat)

/-- The decimal on the grid of spacing `10 ^ g` that reads back: of two neighbours the nearer, of two equally
near the larger. -/
def Magnitude.onGrid? (x : Magnitude) (g : Int) : Option Decimal :=
  let d := x.below g
  match x.reads d g, x.reads (d + 1) g with
  | false, false => none
  | true, false => some ⟨d, g⟩
  | false, true => some ⟨d + 1, g⟩
  | true, true =>
    if orderScaled (2 * d + 1) g (2 * x.significand) x.exponent == .gt then some ⟨d, g⟩ else some ⟨d + 1, g⟩

/-- The first of the grids `10 ^ (top - 1)`, `10 ^ (top - 2)`, … with a decimal that reads back. -/
def Magnitude.search (x : Magnitude) (top : Int) : Nat → Option Decimal
  | 0 => none
  | steps + 1 =>
    match x.onGrid? (top - 1) with
    | some d => some d
    | none => x.search (top - 1) steps

def Magnitude.exact (x : Magnitude) : Decimal :=
  ⟨x.significand * Nat.pow 2 x.exponent.toNat * Nat.pow 5 (-x.exponent).toNat, min x.exponent 0⟩

def Magnitude.shortest (x : Magnitude) : Decimal := (x.search x.scale 17).getD x.exact

end Spreadsheet.Number
