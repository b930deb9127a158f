import Spreadsheet.Book.PartPath
import Spreadsheet.Markup.Tree

/-!
# Relationships

A part refers to other parts by relationships, which stand in a part of their own. The kind of a relationship is
known by the end of its type.
-/

set_option autoImplicit false

namespace Spreadsheet.Book

/-- A relationship from one part to another, or to something outside the package. -/
structure Relationship where
  id : String
  type : String
  target : String
  isExternal : Bool
  deriving DecidableEq, Repr

namespace Relationship

def worksheet : String := "/worksheet"

def sharedStrings : String := "/sharedStrings"

def styles : String := "/styles"

def comments : String := "/comments"

def isOf (r : Relationship) (kind : String) : Bool := kind.toList.isSuffixOf r.type.toList

/-- The relationship of an element; one without identifier or target is none. -/
def ofNode? (n : Markup.Node) : Option Relationship :=
  match n.attribute? "Id", n.attribute? "Target" with
  | some id, some target =>
    some ⟨id, (n.attribute? "Type").getD "", target, n.attribute? "TargetMode" == some "External"⟩
  | _, _ => none

def ofTree (part : Markup.Node) : List Relationship :=
  match part.root? with
  | some root =>
    if root.isElement "Relationships" then (root.childrenNamed "Relationship").filterMap ofNode? else []
  | none => []

def readAll (bytes : Bytes) : Except Markup.Error (List Relationship) := (Markup.parse bytes).map ofTree

def find? (rs : List Relationship) (id : String) : Option Relationship := rs.find? fun r => r.id == id

def firstOf? (rs : List Relationship) (kind : String) : Option Relationship := rs.find? fun r => r.isOf kind

/-- The part that the first relationship of a kind leads to, from a part in the directory `base`. -/
def partOf? (rs : List Relationship) (base kind : String) : Option String :=
  ((firstOf? rs kind).filter fun r => !r.isExternal).map fun r => PartPath.resolve base r.target

end Relationship

end Spreadsheet.Book
