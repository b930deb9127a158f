import Spreadsheet.Book.StringTable
import Spreadsheet.Grid.Address
import Spreadsheet.Value.Basic

/-!
# Cells

A cell is an element of a sheet's part. Its type says how its value is written; its formula is its own, or belongs
to a group of cells that share one.

* `Cell.literal`: the value that is stored in the part.
* `Cell.formulaSource?`: where the formula of a cell is found.
* `Cell.storing`: the element with another value.
-/

set_option autoImplicit false

namespace Spreadsheet.Book

open Markup

/-- A cell of a sheet, with the positions that lead to its element from the top of the part. -/
structure Cell where
  address : Grid.Address
  path : List Nat
  tag : Tag
  children : List Node
  deriving Repr

/-- Where the formula of a cell is found. -/
inductive FormulaSource where
  /-- The text stands in the cell and is for this cell alone. -/
  | own (text : String)
  /-- The cell belongs to a group, and the text may stand in another of its cells. -/
  | shared (group : String) (text : Option String)
  deriving DecidableEq, Repr

/-- A value as a cell is to store it. -/
inductive Stored where
  | nothing
  | truth (b : Bool)
  | number (x : Float)
  | sharedText (i : Nat)
  | inlineText (s : String)
  | formulaText (s : String)
  | error (name : String)
  deriving Repr

def valueElement (s : String) : Node := .element (.named "v") [.text s]

namespace Stored

/-- The type of a cell that stores a value; the number of a formula needs none. -/
def type? (hasFormula : Bool) : Stored → Option String
  | nothing => none
  | truth _ => some "b"
  | number _ => if hasFormula then none else some "n"
  | sharedText _ => some "s"
  | inlineText _ => some "inlineStr"
  | formulaText _ => some "str"
  | error _ => some "e"

def element? : Stored → Option Node
  | nothing => none
  | truth b => some (valueElement (if b then "1" else "0"))
  | number x => some (valueElement (String.ofList (Number.write x)))
  | sharedText i => some (valueElement (Text.Numeral.text i))
  | inlineText s => some (.element (.named "is") [textElement s])
  | formulaText s => some (valueElement s)
  | error name => some (valueElement name)

end Stored

namespace Cell

def node (c : Cell) : Node := .element c.tag c.children

def type? (c : Cell) : Option String := c.tag.get? "t"

def style? (c : Cell) : Option Nat := (c.tag.get? "s").bind fun s => Text.Numeral.readWord? 32 s.toList

def raw? (c : Cell) : Option String := (c.node.child? "v").map Node.content

/-! ## The stored value -/

def numberIn? (s : String) : Option Float := Number.read? (Text.trimmed s.toList)

def sharedText? (strings : StringTable) (raw : String) : Option Value :=
  ((Text.Numeral.readWord? 64 (Text.trimmed raw.toList)).bind strings.get?).map .text

def truth? (raw : String) : Option Value :=
  let word := Text.trim raw
  if word = "1" ∨ word = "true" ∨ word = "TRUE" then some (.truth true)
  else if word = "0" ∨ word = "false" ∨ word = "FALSE" then some (.truth false)
  else none

/-- The value of a cell without a type that says otherwise: a number, or else the text. -/
def plainValue (raw : String) : Value :=
  match numberIn? raw with
  | some x => .number x
  | none => .text raw

def inlineText? (c : Cell) : Option Value :=
  match c.node.child? "is" with
  | some item => some (.text (itemText item))
  | none => c.raw?.map fun raw => .text (decodeEscapes raw)

/-- The value that is stored in the part. For a formula it is the result that was stored last. -/
def literal (c : Cell) (strings : StringTable) : Option Value :=
  match c.type? with
  | some "s" => c.raw?.bind (sharedText? strings)
  | some "str" => c.raw?.map fun raw => .text (decodeEscapes raw)
  | some "inlineStr" => c.inlineText?
  | some "b" => c.raw?.bind truth?
  | some "n" => c.raw?.bind fun raw => (numberIn? raw).map .number
  | some "e" => c.raw?.map .text
  | some "d" => c.raw?.map .text
  | _ => c.raw?.map plainValue

/-! ## The formula -/

def written? (s : String) : Option String := if (Text.trimmed s.toList).isEmpty then none else some s

/-- Where the formula of the cell is found, if it has one. -/
def formulaSource? (c : Cell) : Option FormulaSource :=
  (c.node.child? "f").bind fun f =>
    match f.attribute? "t", f.attribute? "si" with
    | some "shared", some group => some (.shared group (written? f.content))
    | _, _ => (written? f.content).map .own

def hasFormula (c : Cell) : Bool := c.formulaSource?.isSome

/-! ## Storing a value -/

/-- Children with a new one after the formula, or at the front if there is no formula. -/
def insertAfterFormula (new : Node) (children : List Node) : List Node :=
  match children.findIdx? fun n => n.isElement "f" with
  | some i => children.take (i + 1) ++ new :: children.drop (i + 1)
  | none => new :: children

def keptChildren (c : Cell) : List Node := c.children.filter fun n => !n.isElement "v" && !n.isElement "is"

def tagWith (c : Cell) (type : Option String) : Tag :=
  match type with
  | some t => c.tag.set "t" t
  | none => c.tag.erase "t"

/-- The element of the cell with another value. The formula and everything else are kept. -/
def storing (c : Cell) (value : Stored) : Node :=
  .element (c.tagWith (value.type? c.hasFormula)) <|
    match value.element? with
    | some new => insertAfterFormula new c.keptChildren
    | none => c.keptChildren

end Cell

end Spreadsheet.Book
