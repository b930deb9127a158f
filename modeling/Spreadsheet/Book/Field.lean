import Spreadsheet.Book.Evaluate

/-!
# Named fields

A field is a cell with a name. Fields that hold a yes or no say how it is written.
-/

set_option autoImplicit false

namespace Spreadsheet.Book

structure Field where
  name : String
  sheet : String
  address : String
  /-- How a yes or no is written; a plain field says nothing. -/
  format : Option FlagFormat
  deriving DecidableEq, Repr

namespace Field

def find? (fields : List Field) (name : String) : Option Field := fields.find? fun f => f.name == name

def cell (f : Field) : Except Error Grid.Address := (Grid.Address.ofText f.address).mapError .grid

/-- The value of a field with its note and the text of its formula. -/
def read (f : Field) : Session Annotated := do
  Session.annotated f.sheet (← Session.ofExcept f.cell)

def write (f : Field) (v : Value) : Session Unit := do
  Session.write f.sheet (← Session.ofExcept f.cell) v

def readFlag (f : Field) : Session (Option Bool) := do
  Session.flag f.sheet (← Session.ofExcept f.cell)

/-- Sets the answer of a field. A plain field is written with yes, no or nothing. -/
def writeFlag (f : Field) (answer : Option Bool) : Session Unit := do
  Session.writeFlag f.sheet (← Session.ofExcept f.cell) answer (f.format.getD .yesOrNo)

end Field

end Spreadsheet.Book
