import Spreadsheet.Book.StringItem
import Spreadsheet.Markup.Edit
import Spreadsheet.Markup.Tree
import Spreadsheet.Text.Numeral

/-!
# The table of shared texts

Cells may hold the number of a text in a table that all sheets share. Texts are only ever added at the end, so a
number keeps its meaning.

* `StringTable`: the texts, and the part they came from.
* `intern`, `reference`: the number of a text, which is added if it is new. A reference is counted.
* `updated?`: the part with everything added, and `commit`, which makes it the part.
-/

set_option autoImplicit false

namespace Spreadsheet.Book

open Markup

structure StringTable where
  part : Option Node
  strings : List String
  loaded : Nat
  references : Nat
  deriving Repr

namespace StringTable

def empty : StringTable := ⟨none, [], 0, 0⟩

def stringsOf (part : Node) : List String :=
  ((part.root?.map fun root => root.childrenNamed "si").getD []).map itemText

def ofTree (part : Node) : StringTable := ⟨some part, stringsOf part, (stringsOf part).length, 0⟩

def read (bytes : Bytes) : Except Markup.Error StringTable := (Markup.parse bytes).map ofTree

def get? (t : StringTable) (i : Nat) : Option String := t.strings[i]?

/-- The number of a text; of several equal ones the first counts. -/
def position? (t : StringTable) (s : String) : Option Nat := t.strings.findIdx? fun u => u == s

/-- The number of a text, which is added if it is new. -/
def intern (t : StringTable) (s : String) : Nat × StringTable :=
  match t.position? s with
  | some i => (i, t)
  | none => (t.strings.length, { t with strings := t.strings ++ [s] })

/-- The number of a text for a cell that is to refer to it. -/
def reference (t : StringTable) (s : String) : Nat × StringTable :=
  intern { t with references := t.references + 1 } s

/-- The number of a text that is in the table already, for a cell that is to refer to it. -/
def referenceExisting (t : StringTable) (s : String) : Option Nat × StringTable :=
  match t.position? s with
  | some i => (some i, { t with references := t.references + 1 })
  | none => (none, t)

def isModified (t : StringTable) : Bool := t.loaded < t.strings.length || 0 < t.references

def added (t : StringTable) : List String := t.strings.drop t.loaded

/-- The number of references in a word of 64 bits, given the number that a table's element has so far. -/
def countText (t : StringTable) (tag : Tag) : String :=
  let count := ((tag.get? "count").bind fun s => Text.Numeral.readWord? 64 s.toList).getD t.loaded
  Text.Numeral.text ((count + t.references) % Nat.pow 2 64)

def extend (t : StringTable) (tag : Tag) (children : List Node) : Node :=
  let tag := (tag.set "count" (t.countText tag)).set "uniqueCount" (Text.Numeral.text t.strings.length)
  .element tag (children ++ t.added.map stringItem)

def edit (t : StringTable) : Node → Edit
  | .element tag children => if tag.name = "sst" then .replace (t.extend tag children) else .keep
  | _ => .keep

/-- The part with everything that has been added, if there is a part and anything has been added. -/
def updated? (t : StringTable) : Option Node :=
  if t.isModified then t.part.map fun part => (part.edited (fun (_ : Unit) n => (t.edit n, ())) ()).1
  else none

def commit (t : StringTable) (part : Node) : StringTable :=
  { t with part := some part, loaded := t.strings.length, references := 0 }

end StringTable

end Spreadsheet.Book
