import Spreadsheet.Book.Save

/-!
# A save, one step after the other

A save goes through the sheets, the table of shared texts and the archive of an open book. Each step may fail and then ends
the save, with the book as the steps before have left it.

* `produce`: the bytes of the package. The new parts, the table and the archive are copies.
* `settle`: the copies take the place of what they were made from, one sheet after the other.
* `saveInSteps`: both of them.
-/

set_option autoImplicit false

namespace Spreadsheet.Book

open Markup

/-- What stands ready when the bytes of a package have been produced. -/
structure Product where
  draft : Draft
  /-- The new part of the table, if anything has been added to it. -/
  table : Option Node
  archive : Archive
  bytes : Bytes

namespace Session

/-- Updates the sheets of the given names, as they are found in the open book. -/
def draftSheets (d : Draft) : List String → Session Draft
  | [] => return d
  | name :: rest => do
    let d ← ofExcept (d.addSheet (← get) name)
    draftSheets d rest

def produce : Session Product := do
  let b ← get
  let draft ← draftSheets ⟨b.archive, b.strings, []⟩ b.catalog.names
  let table := draft.strings.updated?
  let archive ← ofExcept (storeStrings draft.archive (← get).catalog table)
  let bytes ← ofExcept (archive.save.mapError .archive)
  return ⟨draft, table, archive, bytes⟩

def commitPart (entry : String × Node) : Session Unit := do
  let b ← get
  match b.sheet? entry.1 with
  | some s => set (b.withSheet (s.commit entry.2))
  | none => throw (.sheetNotFound entry.1)

/-- Gives sheets of the book their new parts, one after the other. -/
def commitParts : List (String × Node) → Session Unit
  | [] => return ()
  | entry :: rest => do
    commitPart entry
    commitParts rest

def settle (p : Product) : Session Unit := do
  commitParts p.draft.parts
  let strings := match p.table with
    | some part => p.draft.strings.commit part
    | none => p.draft.strings
  modify fun b => { b with archive := p.archive, strings }

/-- Produces the bytes of the package, and puts what they were made from into the book. -/
def saveInSteps : Session Bytes := do
  let p ← produce
  settle p
  return p.bytes

end Session

end Spreadsheet.Book
