import Spreadsheet.Archive.Update
import Spreadsheet.Book.Evaluate
import Spreadsheet.Markup.Writer

/-!
# Saving a book

The sheets that have been read are updated in the order of the catalog, and then the table of shared texts; all
other parts are kept as they are.

* `Draft`: what has been done of a save.
* `Book.saved`: the package with all values stored in their cells, and the book afterwards. A save that fails
  changes nothing.
-/

set_option autoImplicit false

namespace Spreadsheet.Book

open Markup

/-- What has been done of a save. -/
structure Draft where
  archive : Archive
  strings : StringTable
  parts : List (String × Node)

def replacePart (a : Archive) (path : String) (part : Node) : Except Error Archive :=
  (a.replace path part.bytes).mapError .archive

/-- Updates the sheet of a name, if it has been read and any of its cells change. -/
def Draft.addSheet (b : Book) (d : Draft) (name : String) : Except Error Draft :=
  match b.sheet? name with
  | none => .ok d
  | some s =>
    match s.update d.strings b.options.sharesStrings with
    | (none, strings) => .ok { d with strings }
    | (some part, strings) =>
      (replacePart d.archive s.path part).map fun archive => ⟨archive, strings, d.parts ++ [(name, part)]⟩

def Draft.addSheets (b : Book) (d : Draft) : List String → Except Error Draft
  | [] => .ok d
  | name :: rest => do (← d.addSheet b name).addSheets b rest

def storeStrings (a : Archive) (c : Catalog) (part : Option Node) : Except Error Archive :=
  match part, c.stringsPath with
  | some part, some path => replacePart a path part
  | _, _ => .ok a

def commitSheet (b : Book) (entry : String × Node) : Book :=
  match b.sheet? entry.1 with
  | some s => b.withSheet (s.commit entry.2)
  | none => b

/-- The package with all values stored, and the book for which it stands. -/
def saved (b : Book) : Except Error (Bytes × Book) := do
  let draft ← Draft.addSheets b ⟨b.archive, b.strings, []⟩ b.catalog.names
  let table := draft.strings.updated?
  let archive ← storeStrings draft.archive b.catalog table
  let bytes ← archive.save.mapError .archive
  let b := draft.parts.foldl commitSheet b
  let strings := match table with
    | some part => draft.strings.commit part
    | none => draft.strings
  return (bytes, { b with archive, strings })

def Session.save : Session Bytes := do
  let (bytes, b) ← ofExcept (saved (← get))
  set b
  return bytes

end Spreadsheet.Book
