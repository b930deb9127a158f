import Spreadsheet.Book.Evaluate

/-!
# Opening a book

A book names its release in one of its cells. `Book.ofBytes` reads the book of a package and compares its release
with the one that is asked for.
-/

set_option autoImplicit false

namespace Spreadsheet.Book

def versionSheet : String := "Read Me"

def versionCell : Grid.Address := .plain 3 0

namespace Session

def version : Session (Option String) := do
  if ((← get).catalog.pathOf? versionSheet).isNone then return none
  let s ← load versionSheet
  let v := s.literal versionCell (← get).strings
  return (v.filter fun v => !v.isEmpty).map Value.display

/-- Compares the release of a book with the one that is asked for. -/
def checkVersion (expected : String) : Session Unit := do
  let found ← version
  if found.isNone then
    let _ ← ofExcept ((← get).catalog.pathOf versionSheet)
  if found.getD "" ≠ expected then throw (.unsupportedVersion expected (found.getD ""))

end Session

def ofBytes (bytes : Bytes) (options : Options) : Except Error Book := do
  let archive ← (Archive.index bytes).mapError .archive
  let book ← ofArchive (archive.verifying options.verifiesChecksums) options
  match options.expectedVersion with
  | none => return book
  | some expected =>
    match (Session.checkVersion expected).run book with
    | (.ok _, book) => return book
    | (.error e, _) => throw e

end Spreadsheet.Book
