/-!
# Decimal numerals

* `ofNat`, `ofInt`: the digits of a number, without leading zeros.
* `readDigits?`: the value of a non-empty run of digits.
* `readWord?`: an unsigned number of a given width as it stands in a part: one optional plus sign, then
  digits, and no blank anywhere.
-/

set_option autoImplicit false

namespace Spreadsheet.Text.Numeral

def isDigit (c : Char) : Bool := '0' ≤ c && c ≤ '9'

def digit (n : Nat) : Char := Char.ofNat (48 + n % 10)

def value (c : Char) : Nat := c.toNat - 48

def ofNat (n : Nat) : List Char :=
  if n < 10 then [digit n] else ofNat (n / 10) ++ [digit n]
termination_by n
decreasing_by omega

/-- The decimal digits of an integer, after a minus sign when it is negative. -/
def ofInt (n : Int) : List Char :=
  if n < 0 then '-' :: ofNat n.natAbs else ofNat n.natAbs

/-- The number that a run of digits extends, when more digits follow. -/
def valueFrom (start : Nat) (s : List Char) : Nat := s.foldl (fun n c => 10 * n + value c) start

def readDigits? (s : List Char) : Option Nat :=
  if s.isEmpty || !s.all isDigit then none else some (valueFrom 0 s)

def dropPlus : List Char → List Char
  | '+' :: s => s
  | s => s

def readWord? (width : Nat) (s : List Char) : Option Nat :=
  (readDigits? (dropPlus s)).filter (· < Nat.pow 2 width)

def text (n : Nat) : String := String.ofList (ofNat n)

def textInt (n : Int) : String := String.ofList (ofInt n)

end Spreadsheet.Text.Numeral
