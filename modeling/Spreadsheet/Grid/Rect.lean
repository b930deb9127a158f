import Spreadsheet.Grid.Address

/-!
# Rectangles

`Rect` is a block of cells between its top left and its bottom right corner; `Rect.spanning` makes one of any
two opposite corners and drops their anchors. `Rect.cells` lists it row by row, each from left to right; `Rect.Walk` is a walk
through it, step by step.
-/

set_option autoImplicit false

namespace Spreadsheet.Grid

/-- A block of cells between two corners. -/
structure Rect where
  first : Address
  last : Address
  deriving DecidableEq, Repr

namespace Rect

def spanning (a b : Address) : Rect :=
  ⟨.plain (min a.row b.row) (min a.column b.column), .plain (max a.row b.row) (max a.column b.column)⟩

/-- Text up to the first occurrence of a character, and the text after it. -/
def splitAt? (mark : Char) (s : List Char) : Option (List Char × List Char) :=
  match s.dropWhile (· ≠ mark) with
  | _ :: rest => some (s.takeWhile (· ≠ mark), rest)
  | [] => none

/-- Reads `A1:B10`; a single address is a block of one cell. -/
def read? (s : String) : Option Rect :=
  match splitAt? ':' s.toList with
  | some (left, right) =>
    match Address.readChars? left, Address.readChars? right with
    | some a, some b => some (spanning a b)
    | _, _ => none
  | none => (Address.read? s).map fun a => spanning a a

def ofText (s : String) : Except Error Rect :=
  match read? s with
  | some r => .ok r
  | none => .error (.invalidRange s)

def text (r : Rect) : String := r.first.text ++ ":" ++ r.last.text

def contains (r : Rect) (a : Address) : Bool :=
  r.first.row ≤ a.row && a.row ≤ r.last.row && r.first.column ≤ a.column && a.column ≤ r.last.column

def rowCount (r : Rect) : UInt32 := r.last.row - r.first.row + 1

def columnCount (r : Rect) : UInt32 := r.last.column - r.first.column + 1

def size (r : Rect) : Nat := r.rowCount.toNat * r.columnCount.toNat

def isEmpty (_ : Rect) : Bool := false

/-- The cell after the one at a row and a column: to the right, or at the left end of the next row. -/
def next (r : Rect) (row column : UInt32) : UInt32 × UInt32 :=
  if column + 1 > r.last.column then (row + 1, r.first.column) else (row, column + 1)

def cellsFrom (r : Rect) : Nat → UInt32 → UInt32 → List Address
  | 0, _, _ => []
  | count + 1, row, column =>
    .plain row column :: r.cellsFrom count (r.next row column).1 (r.next row column).2

def cells (r : Rect) : List Address := r.cellsFrom r.size r.first.row r.first.column

/-- A walk through a block, cell by cell. -/
structure Walk where
  block : Rect
  row : UInt32
  column : UInt32
  left : Nat
  deriving DecidableEq, Repr

def walk (r : Rect) : Walk := ⟨r, r.first.row, r.first.column, r.size⟩

namespace Walk

/-- The next cell of a walk, and the walk after it; nothing at the end. -/
def step? (w : Walk) : Option (Address × Walk) :=
  if w.left = 0 then none
  else
    let place := w.block.next w.row w.column
    some (.plain w.row w.column, { w with row := place.1, column := place.2, left := w.left - 1 })

def sizeHint (w : Walk) : Nat × Option Nat := (w.left, some w.left)

/-- The cells of the next `count` steps of a walk, and the walk after them. -/
def take (w : Walk) : Nat → List Address × Walk
  | 0 => ([], w)
  | count + 1 =>
    match w.step? with
    | none => ([], w)
    | some (a, w) => (a :: (w.take count).1, (w.take count).2)

end Walk

def firstCells (r : Rect) (limit : Nat) : List Address := (r.walk.take limit).1

end Rect

end Spreadsheet.Grid
