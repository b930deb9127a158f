import Spreadsheet.Book.Basic
import Spreadsheet.Book.FlagFormat
import Spreadsheet.Formula.Eval
import Spreadsheet.Value.Note

/-!
# Values of cells

The value of a cell is what has been written or computed for it, or else the result of its formula, or else what
the part stores. A formula is evaluated by asking for the values of other cells in the same way; a cell that asks
for itself, directly or through others, has no value.

* `Session.eval`: the value of a cell.
* `Session.recalculate`: the values of all formulas of a sheet.
-/

set_option autoImplicit false

namespace Spreadsheet.Book.Session

open Grid

def gridSize : Nat := maxRows * maxColumns

/-- A bound on the number of cells that wait for one another: no cell waits twice, and a cell is one of a sheet of
the catalog. -/
def depthLimit (b : Book) : Nat := b.catalog.sheets.length * gridSize + 1

/-- How a formula sees the error of a cell that it asks for. -/
def asFormulaError : Error → Formula.Error
  | .formula e => e
  | .sheetNotFound name => .unknownSheet name
  | e => .referenceFailed e.message

def cycle (f : Frame) : Error := .formula (.cycleDetected (f.sheet ++ "!" ++ f.address.text))

/-- What is to be done for the value of a cell. -/
inductive Plan where
  | known (v : Value)
  | compute (e : Formula.Expr)

/-- What is to be done for the value of a cell. A formula is not evaluated if the part stores a result, unless
`force` asks for it. -/
def plan (s : Sheet) (strings : StringTable) (a : Address) (force : Bool) : Except Formula.Error Plan :=
  match s.cached? a with
  | some v => .ok (.known v)
  | none =>
    match s.cell? a with
    | none => .ok (.known .blank)
    | some c =>
      let stored := c.literal strings
      if !c.hasFormula || (!force && stored.isSome) then .ok (.known (stored.getD .blank))
      else (s.formula a).map fun
        | some e => .compute e
        | none => .known (stored.getD .blank)

def within {α : Type} (f : Frame) (r : StateM Book α) : StateM Book α := do
  modify fun b => { b with evaluating := f :: b.evaluating }
  let result ← r
  modify fun b => { b with evaluating := b.evaluating.tail }
  return result

def keep (name : String) (a : Address) (v : Value) : Session Unit := do
  let b ← get
  match b.sheet? name with
  | some s => set (b.withSheet (s.withCached a v))
  | none => throw (.sheetNotFound name)

/-- The value of a cell, while at most `limit` cells wait for one another. -/
def evalWithin (limit : Nat) (name : String) (a : Address) (force : Bool) : Session Value :=
  let f : Frame := ⟨name, a.unanchored⟩
  match limit with
  | 0 => throw (cycle f)
  | limit + 1 => do
    let s ← load name
    let b ← get
    match ← ofExcept ((plan s b.strings f.address force).mapError .formula) with
    | .known v => return v
    | .compute e =>
      if b.evaluating.contains f then throw (cycle f)
      let answer (sheet : Option String) (a : Address) : StateM Book (Except Formula.Error Value) :=
        (fun r => r.mapError asFormulaError) <$> (evalWithin limit (sheet.getD name) a true).run
      let v ← ExceptT.mk ((fun r => r.mapError Error.formula) <$> within f (e.evaluate f.address answer))
      keep name f.address v
      return v

def eval (name : String) (a : Address) (force : Bool) : Session Value := do
  evalWithin (depthLimit (← get)) name a force

/-- The current value of a cell; its formula is evaluated if it has one. -/
def value (name : String) (a : Address) : Session Value := eval name a true

def evalAll (name : String) : List Address → Session Unit
  | [] => return ()
  | a :: rest => do
    let _ ← eval name a true
    evalAll name rest

def reset (name : String) : Session Unit := do
  let s ← load name
  modify fun b => b.withSheet s.reset

/-- Evaluates all formulas of a sheet, after its written and computed values have been dropped if that is asked
for. -/
def recalculate (name : String) (drop : Bool) : Session Unit := do
  if drop then reset name
  let s ← load name
  evalAll name s.formulaCells

/-! ## Reading cells -/

def formula (name : String) (a : Address) : Session (Option String) := do
  let s ← load name
  ofExcept ((s.formulaText a).mapError .formula)

def note (name : String) (a : Address) : Session (Option Note) := do
  return (← load name).note? a

/-- The value of a cell with its note and the text of its formula. -/
def annotated (name : String) (a : Address) : Session Annotated := do
  let v ← value name a
  let note ← note name a
  let formula ← formula name a
  return ⟨some v, note, formula⟩

/-- The answer that a cell gives to a question with yes or no. -/
def flag (name : String) (a : Address) : Session (Option Bool) := do
  return FlagFormat.decode (← value name a)

def numberFormat (name : String) (a : Address) : Session (Option String) := do
  let s ← load name
  return ((s.cell? a).bind Cell.style?).bind (← get).formats.numberFormat

/-- The corner of the block from `A1` on that encloses every cell with a stored value. -/
def bottomRight (name : String) : Session Address := do
  let s ← load name
  return s.bottomRight (← get).strings

/-! ## Writing cells -/

/-- Sets the value of a cell. A sheet gets no new cells. -/
def write (name : String) (a : Address) (v : Value) : Session Unit := do
  let s ← load name
  if (s.cell? a).isSome then keep name a.unanchored v
  else throw (.cellNotFound name a.unanchored.text)

def writeFlag (name : String) (a : Address) (answer : Option Bool) (format : FlagFormat) : Session Unit :=
  write name a (format.encode answer)

end Spreadsheet.Book.Session
