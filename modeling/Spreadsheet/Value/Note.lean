import Spreadsheet.Value.Basic

/-!
# Notes

A note is a comment attached to a cell. `Annotated` is a cell's value together with its note and the text of
its formula.
-/

set_option autoImplicit false

namespace Spreadsheet

structure Note where
  author : Option String
  text : String
  deriving DecidableEq, Repr

def Note.hasAuthor (n : Note) : Bool := n.author.any fun a => !a.isEmpty

/-- The note as it is shown, with the author's name before it. -/
def Note.display (n : Note) : String :=
  match n.author with
  | some a => if a.isEmpty then n.text else "[" ++ a ++ "]: " ++ n.text
  | none => n.text

/-- A cell's value with what belongs to it. -/
structure Annotated where
  value : Option Value
  note : Option Note
  formula : Option String

/-- Neither a value other than a blank nor a note; a formula alone does not count. -/
def Annotated.isEmpty (a : Annotated) : Bool := (a.value.all Value.isEmpty) && a.note.isNone

end Spreadsheet
