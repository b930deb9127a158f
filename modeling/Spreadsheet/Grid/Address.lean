import Spreadsheet.Grid.Column
import Spreadsheet.Text.Numeral

/-!
# Addresses

* `Address`: a cell, with a mark on each axis that a move leaves alone (the `$` of `$A$1`).
* `Address.read?`, `Address.text`: the form `[$]LETTERS[$]DIGITS`.
* `Shift`: a displacement, and `Address.move?`, which applies it to the axes that are not anchored and fails
  when the result would lie off the grid.
-/

set_option autoImplicit false

namespace Spreadsheet.Grid

open Text

/-- A cell of a sheet. Coordinates are words of 32 bits, of which the grid uses the lower part. -/
structure Address where
  row : UInt32
  column : UInt32
  rowAnchored : Bool
  columnAnchored : Bool
  deriving DecidableEq, Repr

structure Shift where
  rows : Int
  columns : Int
  deriving DecidableEq, Repr

/-- What can be wrong with an address, a rectangle or a move. -/
inductive Error where
  | invalidAddress (text : String)
  | invalidRange (text : String)
  | offGrid (address : String) (shift : Shift)
  deriving DecidableEq, Repr

namespace Shift

def zero : Shift := ⟨0, 0⟩

def isZero (d : Shift) : Bool := d == zero

def add (d e : Shift) : Shift := ⟨d.rows + e.rows, d.columns + e.columns⟩

def neg (d : Shift) : Shift := ⟨-d.rows, -d.columns⟩

instance : Add Shift := ⟨add⟩

instance : Neg Shift := ⟨neg⟩

def text (d : Shift) : String := "(" ++ Numeral.textInt d.rows ++ ", " ++ Numeral.textInt d.columns ++ ")"

end Shift

def Error.message : Error → String
  | .invalidAddress text => String.join ["Invalid cell address: ", text]
  | .invalidRange text => String.join ["Invalid cell range: ", text]
  | .offGrid address d => String.join ["Address ", address, " cannot be offset by ", d.text]

namespace Address

def plain (row column : UInt32) : Address := ⟨row, column, false, false⟩

def unanchored (a : Address) : Address := plain a.row a.column

def OnGrid (a : Address) : Prop :=
  1 ≤ a.row.toNat ∧ a.row.toNat ≤ maxRows ∧ a.column.toNat < maxColumns

instance (a : Address) : Decidable a.OnGrid := inferInstanceAs (Decidable (_ ∧ _))

def anchorMark (anchored : Bool) : List Char := if anchored then ['$'] else []

def chars (a : Address) : List Char :=
  anchorMark a.columnAnchored ++ columnLetters a.column.toNat ++
    (anchorMark a.rowAnchored ++ Numeral.ofNat a.row.toNat)

def text (a : Address) : String := String.ofList a.chars

def columnText (a : Address) : String := columnName a.column.toNat

def splitAnchor : List Char → Bool × List Char
  | '$' :: s => (true, s)
  | s => (false, s)

/-- The row that a run of digits names, when the grid has it. The number has to be a word of 32 bits first. -/
def readRow? (s : List Char) : Option Nat :=
  if s.isEmpty || !s.all Numeral.isDigit then none
  else (Numeral.readWord? 32 s).filter fun n => 1 ≤ n && n ≤ maxRows

def ofParts? (columnAnchored : Bool) (letters : List Char) (rowAnchored : Bool) (digits : List Char) :
    Option Address :=
  match readColumn? letters, readRow? digits with
  | some column, some row => some ⟨UInt32.ofNat row, UInt32.ofNat column, rowAnchored, columnAnchored⟩
  | _, _ => none

def readChars? (s : List Char) : Option Address :=
  let (columnAnchored, s) := splitAnchor s
  let (rowAnchored, digits) := splitAnchor (s.dropWhile isLetter)
  ofParts? columnAnchored (s.takeWhile isLetter) rowAnchored digits

def read? (s : String) : Option Address := readChars? s.toList

def ofText (s : String) : Except Error Address :=
  match read? s with
  | some a => .ok a
  | none => .error (.invalidAddress s)

def shiftTo (a b : Address) : Shift :=
  ⟨(b.row.toNat : Int) - a.row.toNat, (b.column.toNat : Int) - a.column.toNat⟩

def moveRow? (row : UInt32) (rows : Int) : Option UInt32 :=
  let n := (row.toNat : Int) + rows
  if 1 ≤ n ∧ n ≤ maxRows then some (UInt32.ofNat n.toNat) else none

def moveColumn? (column : UInt32) (columns : Int) : Option UInt32 :=
  let n := (column.toNat : Int) + columns
  if 0 ≤ n ∧ n < maxColumns then some (UInt32.ofNat n.toNat) else none

def move? (a : Address) (d : Shift) : Option Address :=
  match if a.rowAnchored then some a.row else moveRow? a.row d.rows,
    if a.columnAnchored then some a.column else moveColumn? a.column d.columns with
  | some row, some column => some { a with row, column }
  | _, _ => none

/-- Moves an address along its free axes, or says which move fails. -/
def move (a : Address) (d : Shift) : Except Error Address :=
  match a.move? d with
  | some b => .ok b
  | none => .error (.offGrid a.text d)

def below? (a : Address) : Option Address :=
  if a.row.toNat < maxRows then some { a with row := a.row + 1 } else none

end Address

end Spreadsheet.Grid
