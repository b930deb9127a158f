import Std.Data.HashMap
import Spreadsheet.Book.StringTable

/-!
# The table with an index of its texts

A text is not searched for in the table. An index holds the first number of each text, and it is kept up as texts are added;
everything that the table answers about a text comes from the index.

* `IndexedTable`: a table with its index.
* `read`, `empty`: the table of a part, and that of a package without one.
* `position?`, `intern`, `reference`, `referenceExisting`: the number of a text.
* `rewrite`, `commit`: the part with everything that has been added, and the table with that part.
-/

set_option autoImplicit false

namespace Spreadsheet.Book

open Markup

/-- A table of shared texts with the number at which each of them is found. -/
structure IndexedTable where
  table : StringTable
  positions : Std.HashMap String Nat

namespace IndexedTable

/-- The first number of each text. A repeated text keeps the number that it has. -/
def positionsOf (texts : List String) : Std.HashMap String Nat :=
  texts.zipIdx.foldl (fun positions p => positions.insertIfNew p.1 p.2) ∅

def empty : IndexedTable := ⟨.empty, ∅⟩

def ofTree (part : Node) : IndexedTable := ⟨.ofTree part, positionsOf (StringTable.stringsOf part)⟩

def read (bytes : Bytes) : Except Markup.Error IndexedTable := (Markup.parse bytes).map ofTree

def get? (t : IndexedTable) (i : Nat) : Option String := t.table.get? i

def position? (t : IndexedTable) (s : String) : Option Nat := t.positions[s]?

/-- The number of a text, which is added if it is new. -/
def intern (t : IndexedTable) (s : String) : Nat × IndexedTable :=
  match t.position? s with
  | some i => (i, t)
  | none =>
    let i := t.table.strings.length
    (i, ⟨{ t.table with strings := t.table.strings ++ [s] }, t.positions.insert s i⟩)

def counted (t : IndexedTable) : IndexedTable :=
  { t with table := { t.table with references := t.table.references + 1 } }

/-- The number of a text for a cell that is to refer to it. -/
def reference (t : IndexedTable) (s : String) : Nat × IndexedTable := t.counted.intern s

/-- The number of a text that is in the table already, for a cell that is to refer to it. -/
def referenceExisting (t : IndexedTable) (s : String) : Option Nat × IndexedTable :=
  match t.position? s with
  | some i => (some i, t.counted)
  | none => (none, t)

def isModified (t : IndexedTable) : Bool := t.table.isModified

/-- The part with everything that has been added, if there is anything to write. The added texts begin behind the loaded ones;
there is no answer at all if that place is not among the texts. -/
def rewrite (t : IndexedTable) : Option (Option Node) :=
  if t.table.part.isSome && t.isModified && t.table.strings.length < t.table.loaded then none
  else some t.table.updated?

def commit (t : IndexedTable) (part : Node) : IndexedTable := { t with table := t.table.commit part }

end IndexedTable

end Spreadsheet.Book
