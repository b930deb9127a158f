import Spreadsheet.Book.Cell
import Spreadsheet.Book.NotePart
import Spreadsheet.Formula.Parser
import Spreadsheet.Formula.Relocate

/-!
# Sheets

A sheet is read once: its part, its cells by address, and its notes. Values that have been written or computed
are kept beside the part and count more than what it says.

* `Sheet.index`: the cells of a part. One without an address stands to the right of the one before.
* `Sheet.formula`: the formula of a cell. A group's formula is moved from the cell that it is written for.
* `Sheet.update`: the part with the kept values stored in their cells.
-/

set_option autoImplicit false

namespace Spreadsheet.Book

open Markup Grid

abbrev Cache := List (Address × Value)

namespace Cache

def set (a : Address) (v : Value) (cache : Cache) : Cache :=
  if cache.any fun entry => entry.1 == a then
    cache.map fun entry => if entry.1 = a then (a, v) else entry
  else (a, v) :: cache

end Cache

/-- A sheet of a book. Cells stand in the order in which their addresses first occur in the part. -/
structure Sheet where
  name : String
  path : String
  part : Node
  cells : List Cell
  cache : Cache
  notes : Notes
  deriving Repr

/-- The formula of a group of cells, and the cell that it is written for. -/
structure SharedFormula where
  anchor : Address
  text : String
  deriving DecidableEq, Repr

namespace Sheet

/-! ## The cells of a part -/

/-- Cells, the last one first, with one more; it takes the place of another one at the same address. -/
def insert (c : Cell) (cells : List Cell) : List Cell :=
  if cells.any fun d => d.address == c.address then
    cells.map fun d => if d.address = c.address then c else d
  else c :: cells

/-- The row that an element says it is, or the one after the last row that was known. -/
def rowNumber? (last : Nat) (row : Node) : Option Nat :=
  (match row.attribute? "r" with
    | some r => Text.Numeral.readWord? 32 r.toList
    | none => some (last + 1)).filter fun n => 1 ≤ n && n ≤ maxRows

def nextColumn? : Option Nat → Option Nat
  | none => some 0
  | some column => if column + 1 < maxColumns then some (column + 1) else none

/-- Where a cell stands: at the address that it says, or in the row at hand after the last column. -/
def placeOf? (row : Option Nat) (last : Option Nat) (n : Node) : Option Address :=
  match (n.attribute? "r").bind Address.read? with
  | some a => some a.unanchored
  | none =>
    match row, nextColumn? last with
    | some row, some column => some (.plain (UInt32.ofNat row) (UInt32.ofNat column))
    | _, _ => none

/-- The cells among the children of a row; one that has no place on the grid is passed over. -/
def cellsOfRow (row : Option Nat) (path : List Nat) (last : Option Nat) : List (Node × Nat) → List Cell
  | [] => []
  | (.element tag children, i) :: rest =>
    if tag.name = "c" then
      match placeOf? row last (.element tag children) with
      | some a => ⟨a, path ++ [i], tag, children⟩ :: cellsOfRow row path (some a.column.toNat) rest
      | none => cellsOfRow row path last rest
    else cellsOfRow row path last rest
  | _ :: rest => cellsOfRow row path last rest

def cellsOfRows (path : List Nat) (last : Nat) : List (Node × Nat) → List Cell
  | [] => []
  | (row, i) :: rest =>
    if row.isElement "row" then
      let number := rowNumber? last row
      cellsOfRow number (path ++ [i]) none row.children.zipIdx ++ cellsOfRows path (number.getD last) rest
    else cellsOfRows path last rest

def locate? (p : Node → Bool) (n : Node) : Option (Node × Nat) := n.children.zipIdx.find? fun c => p c.1

/-- The cells of a part in the order of the part; an address may occur more than once. -/
def allCells (part : Node) : List Cell :=
  match locate? (fun n => n.tag?.isSome) part with
  | none => []
  | some (root, i) =>
    match locate? (fun n => n.isElement "sheetData") root with
    | none => []
    | some (data, j) => cellsOfRows [i, j] 0 data.children.zipIdx

/-- The cells of a part by address. Of several at one address the last counts. -/
def index (part : Node) : List Cell := ((allCells part).foldl (fun cells c => insert c cells) []).reverse

def ofTree (name path : String) (part : Node) (notes : Notes) : Sheet := ⟨name, path, part, index part, [], notes⟩

/-- Reads the part of a sheet, and the part with its notes if there is one. -/
def read (name path : String) (bytes : Bytes) (notes : Option Bytes) : Except Markup.Error Sheet := do
  let part ← Markup.parse bytes
  match notes with
  | some bytes => return ofTree name path part (← Notes.read bytes)
  | none => return ofTree name path part []

/-! ## Reading cells -/

def cell? (s : Sheet) (a : Address) : Option Cell := s.cells.find? fun c => c.address == a.unanchored

def note? (s : Sheet) (a : Address) : Option Note := s.notes.lookup a.unanchored

def literal (s : Sheet) (a : Address) (strings : StringTable) : Option Value :=
  (s.cell? a).bind fun c => c.literal strings

def cached? (s : Sheet) (a : Address) : Option Value := s.cache.lookup a.unanchored

def withCached (s : Sheet) (a : Address) (v : Value) : Sheet := { s with cache := s.cache.set a.unanchored v }

def reset (s : Sheet) : Sheet := { s with cache := [] }

def isModified (s : Sheet) : Bool := !s.cache.isEmpty

/-! ## Formulas -/

def anchorOf? (group : String) (c : Cell) : Option SharedFormula :=
  match c.formulaSource? with
  | some (.shared g (some text)) => if g = group then some ⟨c.address, text⟩ else none
  | _ => none

/-- The formula of a group. If several cells state one, the last counts. -/
def sharedFormula? (s : Sheet) (group : String) : Option SharedFormula :=
  s.cells.reverse.findSome? (anchorOf? group)

/-- The formula of a source as it is for the cell at an address. -/
def formulaOf (s : Sheet) (a : Address) : FormulaSource → Except Formula.Error (Option Formula.Expr)
  | .own text => (Formula.parse text).map some
  | .shared group text =>
    match s.sharedFormula? group with
    | some shared => do
      let e ← Formula.parse shared.text
      return some (← e.relocate (shared.anchor.shiftTo a))
    | none =>
      match text with
      | some text => (Formula.parse text).map some
      | none => .ok none

def formula (s : Sheet) (a : Address) : Except Formula.Error (Option Formula.Expr) :=
  match s.cell? a with
  | none => .ok none
  | some c =>
    match c.formulaSource? with
    | none => .ok none
    | some source => s.formulaOf c.address source

/-- The text of a cell's formula. One that stands in the cell for itself is given as it was written. -/
def formulaText (s : Sheet) (a : Address) : Except Formula.Error (Option String) :=
  match (s.cell? a).bind Cell.formulaSource? with
  | none => .ok none
  | some (.own text) => .ok (some text)
  | some (.shared _ _) => (s.formula a).map fun e => e.map Formula.Expr.toText

def formulaCells (s : Sheet) : List Address := (s.cells.filter Cell.hasFormula).map (·.address)

/-- The corner of the block from `A1` on that encloses every cell with a stored value. -/
def bottomRight (s : Sheet) (strings : StringTable) : Address :=
  (s.cells.filter fun c => (c.literal strings).isSome).foldl
    (fun corner c => .plain (max corner.row c.address.row) (max corner.column c.address.column)) (.plain 1 0)

/-! ## Storing values -/

/-- How a text is stored in a cell without a formula: by number if it can be in the table, and else in the cell
itself. -/
def storedText (s : String) (strings : StringTable) (shares : Bool) : Stored × StringTable :=
  if shares ∧ strings.part.isSome then
    let (i, strings) := strings.reference s
    (.sharedText i, strings)
  else
    match strings.referenceExisting s with
    | (some i, strings) => (.sharedText i, strings)
    | (none, strings) => (.inlineText s, strings)

/-- How a value is stored in a cell, with or without a formula. A text may be added to the table. -/
def storedValue (v : Value) (hasFormula : Bool) (strings : StringTable) (shares : Bool) : Stored × StringTable :=
  match v with
  | .blank => (.nothing, strings)
  | .truth b => (.truth b, strings)
  | .number x =>
    (if Number.isFinite x then .number x else if Number.isNaN x then .error "#NUM!" else .error "#DIV/0!", strings)
  | .text s =>
    if s.isEmpty then (.nothing, strings)
    else if hasFormula then (.formulaText s, strings)
    else storedText s strings shares

/-- The value that is to be stored in a cell, unless it is there already. -/
def pending? (s : Sheet) (strings : StringTable) (c : Cell) : Option Value :=
  (s.cached? c.address).filter fun v => !((c.literal strings).getD .blank).same v

/-- The cells that change with their new elements, and the table with the texts that they need. -/
def changes (s : Sheet) (shares : Bool) (strings : StringTable) : List Cell → List (Cell × Node) × StringTable
  | [] => ([], strings)
  | c :: rest =>
    match s.pending? strings c with
    | none => s.changes shares strings rest
    | some v =>
      let (stored, strings) := storedValue v c.hasFormula strings shares
      let (others, strings) := s.changes shares strings rest
      ((c, c.storing stored) :: others, strings)

def replaceCells (part : Node) (changed : List (Cell × Node)) : Node :=
  changed.foldl (fun part (c, n) => Node.replaceAt n c.path part) part

/-- The part with the kept values stored in their cells, unless no cell changes, and the table with the texts that
they need. -/
def update (s : Sheet) (strings : StringTable) (shares : Bool) : Option Node × StringTable :=
  match s.changes shares strings s.cells with
  | ([], strings) => (none, strings)
  | (changed, strings) => (some (replaceCells s.part changed), strings)

/-- The sheet with its updated part. Written and computed values are kept. -/
def commit (s : Sheet) (part : Node) : Sheet := { s with part, cells := index part }

end Sheet

end Spreadsheet.Book
