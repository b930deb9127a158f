/-!
# Column names

Columns are counted from zero and named by letters: `A` to `Z`, then `AA`. The names are a numbering to base
26 without a digit zero, so every number has exactly one name.

* `columnLetters`, `columnName`: the name of any number.
* `lettersValue`: the value of a word of letters, however long it is.
* `columnNumber?`: the number that a name stands for, when the grid has that column. It is found in words of 32 bits, and a
  name whose value is none of them is not read.
-/

set_option autoImplicit false

namespace Spreadsheet.Grid

/-- Rows of a sheet, counted from one. -/
def maxRows : Nat := 1048576

/-- Columns of a sheet, counted from zero. -/
def maxColumns : Nat := 16384

def isLetter (c : Char) : Bool := 'A' ≤ c && c ≤ 'Z'

def letter (n : Nat) : Char := Char.ofNat (65 + n % 26)

def letterValue (c : Char) : Nat := c.toNat - 64

def columnLetters (n : Nat) : List Char :=
  if n < 26 then [letter n] else columnLetters (n / 26 - 1) ++ [letter n]
termination_by n
decreasing_by omega

def columnName (n : Nat) : String := String.ofList (columnLetters n)

/-- The value of a word of letters as a numeral to base 26 with the digits 1 to 26. -/
def lettersValue (s : List Char) : Nat := s.foldl (fun n c => 26 * n + letterValue c) 0

/-- A number as a word of 32 bits, when it is one. -/
def word? (n : Nat) : Option UInt32 := if n < UInt32.size then some (UInt32.ofNat n) else none

/-- The value of some letters and one more. Neither the product nor the sum may leave the words of 32 bits. -/
def extended? (n : UInt32) (c : Char) : Option UInt32 :=
  if isLetter c then (word? (n.toNat * 26)).bind fun m => word? (m.toNat + letterValue c) else none

def readColumn? (s : List Char) : Option Nat :=
  if s.isEmpty then none
  else (s.foldlM extended? 0).bind fun n => if (n - 1).toNat < maxColumns then some (n - 1).toNat else none

def columnNumber? (name : String) : Option Nat := readColumn? name.toList

end Spreadsheet.Grid
