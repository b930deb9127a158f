import Spreadsheet.Archive.Content
import Spreadsheet.Archive.Index
import Spreadsheet.Book.Catalog
import Spreadsheet.Book.Format
import Spreadsheet.Book.Sheet

/-!
# Books

A book is a package of parts: a catalog of sheets, the tables that they share, and the sheets, which are read when
they are first asked for.

* `Book`: a book as far as it has been read, with the values that have been written or computed.
* `Session`: a request to a book. It may change the book even when it fails.
* `Session.load`: the sheet of a name.
-/

set_option autoImplicit false

namespace Spreadsheet

namespace Book

/-- How a book is read and written. -/
structure Options where
  sharesStrings : Bool
  /-- The release that the book has to be, if one is asked for. -/
  expectedVersion : Option String
  verifiesChecksums : Bool
  deriving DecidableEq, Repr

def Options.standard : Options := ⟨true, none, true⟩

/-- A cell whose formula is being evaluated: its sheet and its address. -/
structure Frame where
  sheet : String
  address : Grid.Address
  deriving DecidableEq, Repr

end Book

/-- A book as far as it has been read. -/
structure Book where
  archive : Archive
  options : Book.Options
  catalog : Book.Catalog
  strings : Book.StringTable
  formats : Book.Formats
  sheets : List Book.Sheet
  evaluating : List Book.Frame

namespace Book

/-! ## Parts -/

def requiredPart (a : Archive) (path : String) : Except Error Bytes :=
  if a.contains path then (a.read path).mapError .archive else .error (.missingPart path)

def optionalPart (a : Archive) (path : Option String) : Except Error (Option Bytes) :=
  match path.filter a.contains with
  | some path => ((a.read path).mapError .archive).map some
  | none => .ok none

def readStrings (a : Archive) (c : Catalog) : Except Error StringTable := do
  match ← optionalPart a c.stringsPath with
  | some bytes => (StringTable.read bytes).mapError .markup
  | none => return .empty

def readFormats (a : Archive) (c : Catalog) : Except Error Formats := do
  match ← optionalPart a c.formatsPath with
  | some bytes => (Formats.read bytes).mapError .markup
  | none => return .builtin

/-- The part with the notes of a sheet, given the part of the sheet. -/
def notesPart (a : Archive) (path : String) : Except Error (Option Bytes) := do
  match ← optionalPart a (some (PartPath.relationshipsPath path)) with
  | none => return none
  | some bytes =>
    let rs ← (Relationship.readAll bytes).mapError .markup
    optionalPart a (Relationship.partOf? rs (PartPath.directory path) Relationship.comments)

def readSheet (a : Archive) (c : Catalog) (name : String) : Except Error Sheet := do
  let path ← c.pathOf name
  if a.contains path then
    let bytes ← (a.read path).mapError .archive
    let notes ← notesPart a path
    (Sheet.read name path bytes notes).mapError .markup
  else throw (.sheetNotFound name)

/-- A book of which no sheet has been read, of any release. -/
def ofArchive (a : Archive) (options : Options) : Except Error Book := do
  let workbook ← requiredPart a workbookPath
  let relationships ← requiredPart a (PartPath.relationshipsPath workbookPath)
  let catalog ← Catalog.read workbook relationships
  let strings ← readStrings a catalog
  let formats ← readFormats a catalog
  return ⟨a, options, catalog, strings, formats, [], []⟩

/-! ## Sheets -/

def sheet? (b : Book) (name : String) : Option Sheet := b.sheets.find? fun s => s.name == name

/-- The book with a sheet in place of the one of its name. -/
def withSheet (b : Book) (s : Sheet) : Book :=
  { b with sheets := b.sheets.map fun t => if t.name = s.name then s else t }

/-- A request to a book: it gives a result or an error, and a book. -/
abbrev Session (α : Type) := ExceptT Error (StateM Book) α

namespace Session

def ofExcept {α : Type} (r : Except Error α) : Session α := ExceptT.mk (pure r)

/-- The sheet of a name, which is read if it has not been read yet. -/
def load (name : String) : Session Sheet := do
  let b ← get
  match b.sheet? name with
  | some s => return s
  | none =>
    let s ← ofExcept (readSheet b.archive b.catalog name)
    set { b with sheets := b.sheets ++ [s] }
    return s

end Session

end Book

end Spreadsheet
