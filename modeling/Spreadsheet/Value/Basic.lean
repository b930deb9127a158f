import Spreadsheet.Number.Numeral
import Spreadsheet.Number.Order
import Spreadsheet.Text.Case
import Spreadsheet.Text.Order

/-!
# Values

* `Value`: what a cell holds or a formula gives.
* `Value.compare`: the order within one kind of value. A blank is the same as the empty text, and that rule
  comes before the order of the kinds.
* `Value.same`: the equality that formulas see, which is "the same" in the case-sensitive order.
-/

set_option autoImplicit false

namespace Spreadsheet

open Text

/-- What a cell holds or a formula gives. -/
inductive Value where
  | text (s : String)
  | number (x : Float)
  | truth (b : Bool)
  | blank
  deriving Inhabited, Repr

inductive Comparison where
  | ascending
  | same
  | descending
  | incomparable
  deriving DecidableEq, Repr

def Comparison.ofOrdering : Ordering → Comparison
  | .lt => .ascending
  | .eq => .same
  | .gt => .descending

def Comparison.swap : Comparison → Comparison
  | .ascending => .descending
  | .descending => .ascending
  | c => c

namespace Value

/-- The order of two texts, by code point; with `ignoreCase`, of their lower-case forms. -/
def compareText (ignoreCase : Bool) (s t : String) : Ordering :=
  if ignoreCase then Text.order (lower s.toList) (lower t.toList) else Text.order s.toList t.toList

def compareTruth : Bool → Bool → Ordering
  | false, true => .lt
  | true, false => .gt
  | _, _ => .eq

def compare (ignoreCase : Bool) : Value → Value → Comparison
  | .text s, .blank => if s.isEmpty then .same else .incomparable
  | .blank, .text s => if s.isEmpty then .same else .incomparable
  | .blank, .blank => .same
  | .text s, .text t => .ofOrdering (compareText ignoreCase s t)
  | .number x, .number y => ((Number.order? x y).map .ofOrdering).getD .incomparable
  | .truth a, .truth b => .ofOrdering (compareTruth a b)
  | _, _ => .incomparable

def same (v w : Value) : Bool := v.compare false w == .same

/-- The number that arithmetic sees: a blank counts as zero and a truth value as zero or one, and a text is no
number. -/
def toNumber? : Value → Option Float
  | .number x => some x
  | .blank => some 0
  | .truth b => some (if b then 1 else 0)
  | .text _ => none

def toText? : Value → Option String
  | .text s => some s
  | _ => none

def display : Value → String
  | .text s => s
  | .number x => String.ofList (Number.display x)
  | .truth true => "TRUE"
  | .truth false => "FALSE"
  | .blank => ""

/-- Whether a condition takes the value as true: a number other than zero, a text that is not empty. -/
def holds : Value → Bool
  | .truth b => b
  | .number x => x != 0
  | .text s => !s.isEmpty
  | .blank => false

def isEmpty : Value → Bool
  | .blank => true
  | .text s => s.isEmpty
  | _ => false

def isNumber : Value → Bool
  | .number _ => true
  | _ => false

def kind : Value → String
  | .text _ => "string"
  | .number _ => "number"
  | .truth _ => "bool"
  | .blank => "undefined"

def ofNumber? : Option Float → Value
  | some x => .number x
  | none => .blank

end Value

end Spreadsheet
