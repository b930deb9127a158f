/-!
# Numbers as binary fractions

A number of a cell is a binary64 float. This module reads the parts that its bits encode.

* `isFinite`, `isNegative`: the class and the sign.
* `Magnitude`: a finite magnitude `significand * 2 ^ exponent`, with the reals that round to it.
* `toInt?`: the integer that a float is, if it is one.
-/

set_option autoImplicit false

namespace Spreadsheet.Number

/-- The weight of the sign bit, the highest of 64. -/
def signWeight : Nat := 0x8000000000000000

/-- The weight of the lowest exponent bit; below it are the 52 bits of the significand. -/
def exponentWeight : Nat := 0x10000000000000

def isNegative (x : Float) : Bool := signWeight ≤ x.toBits.toNat

def magnitudeBits (x : Float) : Nat := x.toBits.toNat % signWeight

def isFinite (x : Float) : Bool := magnitudeBits x < 0x7FF * exponentWeight

def isNaN (x : Float) : Bool := 0x7FF * exponentWeight < magnitudeBits x

/-- A finite magnitude, `significand * 2 ^ exponent`. -/
structure Magnitude where
  significand : Nat
  exponent : Int
  /-- The gap to the next magnitude below is half the gap to the next above. -/
  narrowBelow : Bool

def magnitude (x : Float) : Magnitude :=
  let e : Nat := magnitudeBits x / exponentWeight
  let f : Nat := magnitudeBits x % exponentWeight
  if e = 0 then ⟨f, -1074, false⟩ else ⟨exponentWeight + f, (e : Int) - 1075, f == 0 && 1 < e⟩

/-- The order of `a * 10 ^ i` and `n * 2 ^ j`, exactly. -/
def orderScaled (a : Nat) (i : Int) (n : Nat) (j : Int) : Ordering :=
  compare (a * Nat.pow 10 i.toNat * Nat.pow 2 (-j).toNat) (n * Nat.pow 2 j.toNat * Nat.pow 10 (-i).toNat)

/-- Whether `digits * 10 ^ scale` is one of the reals that round to the magnitude. The interval reaches
halfway to both neighbours, and its ends belong to it when the significand is even. -/
def Magnitude.reads (x : Magnitude) (digits : Nat) (scale : Int) : Bool :=
  let low := if x.narrowBelow then 4 * x.significand - 1 else 4 * x.significand - 2
  let high := 4 * x.significand + 2
  let closed := x.significand % 2 == 0
  let above := orderScaled digits scale low (x.exponent - 2)
  let below := orderScaled digits scale high (x.exponent - 2)
  (above == .gt || (closed && above == .eq)) && (below == .lt || (closed && below == .eq))

def Magnitude.toNat? (x : Magnitude) : Option Nat :=
  if 0 ≤ x.exponent then some (x.significand * Nat.pow 2 x.exponent.toNat)
  else
    let d := Nat.pow 2 (-x.exponent).toNat
    if x.significand % d = 0 then some (x.significand / d) else none

/-- The integer that a float is; a negative zero is the integer zero. -/
def toInt? (x : Float) : Option Int :=
  if isFinite x then
    (magnitude x).toNat?.map fun n => if isNegative x then -(n : Int) else n
  else none

end Spreadsheet.Number
