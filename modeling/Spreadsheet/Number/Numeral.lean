import Spreadsheet.Number.Shortest
import Spreadsheet.Text.Numeral
import Spreadsheet.Text.Case

/-!
# Numbers as text

* `write`: the shortest digits that read back, always positional: `1e21` is written with 21 zeros.
* `display`: as a cell shows it; an integer below `10 ^ 15` has no sign when it is a negative zero.
* `read?`: a sign, then `inf`, `infinity` or `nan` in any case, or digits with an optional point and an
  optional exponent. There is no blank, and at least one digit stands before or after the point.
-/

set_option autoImplicit false

namespace Spreadsheet.Number

open Text

def layout (digits : List Char) (scale : Int) : List Char :=
  if 0 ≤ scale then digits ++ List.replicate scale.toNat '0'
  else
    let places := (-scale).toNat
    if places < digits.length then
      digits.take (digits.length - places) ++ '.' :: digits.drop (digits.length - places)
    else '0' :: '.' :: List.replicate (places - digits.length) '0' ++ digits

/-- A decimal without trailing zeros among its digits, unless it is zero; at most `steps` are taken away. -/
def Decimal.stripped (d : Decimal) : Nat → Decimal
  | 0 => d
  | steps + 1 =>
    if d.digits ≠ 0 ∧ d.digits % 10 = 0 then Decimal.stripped ⟨d.digits / 10, d.scale + 1⟩ steps else d

def Magnitude.write (x : Magnitude) : List Char :=
  if x.significand = 0 then ['0']
  else
    let d := x.shortest.stripped 800
    layout (Numeral.ofNat d.digits) d.scale

def write (x : Float) : List Char :=
  if isNaN x then "NaN".toList
  else
    let text := if isFinite x then (magnitude x).write else "inf".toList
    if isNegative x then '-' :: text else text

def display (x : Float) : List Char :=
  match toInt? x with
  | some n => if n.natAbs < 1000000000000000 then Numeral.ofInt n else write x
  | none => write x

def infinity : Float := Float.ofBits 0x7FF0000000000000

def nan : Float := Float.ofBits 0x7FF8000000000000

/-- The float nearest to `digits * 10 ^ scale`; decimals far outside the range are not expanded. -/
def nearest (digits : List Char) (scale : Int) : Float :=
  let significant := digits.dropWhile (· == '0')
  let top := (significant.length : Int) + scale
  if significant.isEmpty || top < -400 then 0
  else if 400 < top then infinity
  else Float.ofScientific (Numeral.valueFrom 0 significant) (scale < 0) scale.natAbs

/-- An exponent: `e` or `E`, an optional sign and at least one digit, up to the end of the text. No exponent
counts as zero. -/
def readExponent? : List Char → Option Int
  | [] => some 0
  | e :: s =>
    if e = 'e' ∨ e = 'E' then
      match s with
      | '+' :: t => (Numeral.readDigits? t).map fun n => (n : Int)
      | '-' :: t => (Numeral.readDigits? t).map fun n => -(n : Int)
      | t => (Numeral.readDigits? t).map fun n => (n : Int)
    else none

def readDecimal? (s : List Char) : Option Float :=
  let whole := s.takeWhile Numeral.isDigit
  let rest := s.dropWhile Numeral.isDigit
  let part := match rest with
    | '.' :: t => t.takeWhile Numeral.isDigit
    | _ => []
  let tail := match rest with
    | '.' :: t => t.dropWhile Numeral.isDigit
    | t => t
  if whole.isEmpty && part.isEmpty then none
  else (readExponent? tail).map fun e => nearest (whole ++ part) (e - part.length)

def readUnsigned? (s : List Char) : Option Float :=
  let word := s.map asciiUpper
  if word = "INF".toList ∨ word = "INFINITY".toList then some infinity
  else if word = "NAN".toList then some nan
  else readDecimal? s

def read? : List Char → Option Float
  | '-' :: s => (readUnsigned? s).map (-·)
  | '+' :: s => readUnsigned? s
  | s => readUnsigned? s

end Spreadsheet.Number
