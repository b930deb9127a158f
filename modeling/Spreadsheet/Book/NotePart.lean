import Spreadsheet.Book.StringItem
import Spreadsheet.Grid.Address
import Spreadsheet.Markup.Tree
import Spreadsheet.Text.Numeral
import Spreadsheet.Value.Note

/-!
# The notes of a sheet

The notes of a sheet stand in a part of their own, with a list of authors to which each note refers.
-/

set_option autoImplicit false

namespace Spreadsheet.Book

open Markup

/-- The notes of a sheet by cell. Of several for one cell, the first in the list counts. -/
abbrev Notes := List (Grid.Address × Note)

namespace Notes

def authors (root : Node) : List String :=
  ((root.child? "authors").map fun list => (list.childrenNamed "author").map Node.content).getD []

def author? (names : List String) (n : Node) : Option String :=
  ((n.attribute? "authorId").bind fun s => Text.Numeral.readWord? 64 s.toList).bind fun i => names[i]?

def textOf (n : Node) : String :=
  match n.child? "text" with
  | some item => itemText item
  | none => n.content

/-- The note of an element; one that belongs to no single cell is none. -/
def note? (names : List String) (n : Node) : Option (Grid.Address × Note) :=
  ((n.attribute? "ref").bind Grid.Address.read?).map fun a => (a.unanchored, ⟨author? names n, textOf n⟩)

/-- The notes of a tree. Of several for one cell, the last in the part counts. -/
def ofTree (part : Node) : Notes :=
  match part.root? with
  | none => []
  | some root =>
    match root.child? "commentList" with
    | none => []
    | some list => ((list.childrenNamed "comment").filterMap (note? (authors root))).reverse

def read (bytes : Bytes) : Except Markup.Error Notes := (Markup.parse bytes).map ofTree

end Notes

end Spreadsheet.Book
