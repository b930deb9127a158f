import Spreadsheet.Book.Error
import Spreadsheet.Book.Relationship

/-!
# The catalog of a book

The workbook part lists the sheets in the order of their tabs. Each one names a relationship that leads to its
part. The tables that all sheets share are found by their kind.
-/

set_option autoImplicit false

namespace Spreadsheet.Book

def workbookPath : String := "xl/workbook.xml"

/-- A sheet as the workbook lists it. -/
structure SheetEntry where
  name : String
  id : Option String
  relationship : Option String
  path : Option String
  deriving DecidableEq, Repr

/-- The sheets of a book, and the parts that they share. -/
structure Catalog where
  sheets : List SheetEntry
  stringsPath : Option String
  formatsPath : Option String
  deriving DecidableEq, Repr

namespace Catalog

def base : String := PartPath.directory workbookPath

/-- The part that a relationship leads to, if it is one of a sheet. -/
def sheetPath? (rs : List Relationship) (id : String) : Option String :=
  ((Relationship.find? rs id).filter fun r => r.isOf Relationship.worksheet && !r.isExternal).map fun r =>
    PartPath.resolve base r.target

/-- The sheet of an element; one without a name is none. -/
def sheetOf? (rs : List Relationship) (n : Markup.Node) : Option SheetEntry :=
  (n.attribute? "name").map fun name =>
    { name
      id := n.attribute? "sheetId"
      relationship := n.attribute? "r:id"
      path := (n.attribute? "r:id").bind (sheetPath? rs) }

def ofRoot (root : Markup.Node) (rs : List Relationship) : Catalog where
  sheets :=
    match root.child? "sheets" with
    | some list => (list.childrenNamed "sheet").filterMap (sheetOf? rs)
    | none => []
  stringsPath := Relationship.partOf? rs base Relationship.sharedStrings
  formatsPath := Relationship.partOf? rs base Relationship.styles

def read (workbook relationships : Bytes) : Except Error Catalog := do
  let part ← (Markup.parse workbook).mapError .markup
  match part.root?.filter fun root => root.isElement "workbook" with
  | none => throw (.invalidFormat "workbook part has no <workbook>")
  | some root =>
    let rs ← (Relationship.readAll relationships).mapError .markup
    return ofRoot root rs

def names (c : Catalog) : List String := c.sheets.map (·.name)

def pathOf? (c : Catalog) (name : String) : Option String :=
  (c.sheets.find? fun s => s.name == name).bind (·.path)

/-- The part of a sheet, or the error that there is none. -/
def pathOf (c : Catalog) (name : String) : Except Error String :=
  match c.pathOf? name with
  | some path => .ok path
  | none => .error (.sheetNotFound name)

end Catalog

end Spreadsheet.Book
