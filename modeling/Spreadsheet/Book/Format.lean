import Spreadsheet.Markup.Tree
import Spreadsheet.Text.Numeral

/-!
# Number formats

The style of a cell is the number of a record. A record names a format and a parent; without a format of its own
it takes the parent's. Formats are known by number: a few of them to everyone, the others are listed in the part.
-/

set_option autoImplicit false

namespace Spreadsheet.Book

/-- A record of formats, as far as numbers go. -/
structure FormatRecord where
  format : Option Nat
  parent : Option Nat
  deriving DecidableEq, Repr

/-- The formats of a book: the codes by number, of which the first counts, the records of cells and the records
that these build on. -/
structure Formats where
  codes : List (Nat × String)
  records : List FormatRecord
  parents : List FormatRecord
  deriving DecidableEq, Repr

namespace Formats

def builtinCodes : List (Nat × String) :=
  [(14, "m/d/yyyy"), (22, "m/d/yyyy h:mm"), (37, "#,##0_);(#,##0)"), (38, "#,##0_);[Red](#,##0)"),
    (39, "#,##0.00_);(#,##0.00)"), (40, "#,##0.00_);[Red](#,##0.00)"), (47, "mm:ss.0"), (55, "yyyy/mm/dd")]

def builtin : Formats := ⟨builtinCodes, [], []⟩

def numberIn? (n : Markup.Node) (key : String) : Option Nat :=
  (n.attribute? key).bind fun s => Text.Numeral.readWord? 32 s.toList

def code? (n : Markup.Node) : Option (Nat × String) :=
  match numberIn? n "numFmtId", n.attribute? "formatCode" with
  | some id, some code => some (id, code)
  | _, _ => none

def recordOf (n : Markup.Node) : FormatRecord := ⟨numberIn? n "numFmtId", numberIn? n "xfId"⟩

/-- The elements of a name in the first list of the given name. -/
def listed (root : Markup.Node) (list name : String) : List Markup.Node :=
  ((root.child? list).map fun l => l.childrenNamed name).getD []

/-- The formats of a tree. A code that is listed later counts. -/
def ofTree (part : Markup.Node) : Formats :=
  match part.root? with
  | none => builtin
  | some root =>
    { codes := ((listed root "numFmts" "numFmt").filterMap code?).reverse ++ builtinCodes
      records := (listed root "cellXfs" "xf").map recordOf
      parents := (listed root "cellStyleXfs" "xf").map recordOf }

def read (bytes : Bytes) : Except Markup.Error Formats := (Markup.parse bytes).map ofTree

def code (f : Formats) (id : Nat) : Option String := f.codes.lookup id

def formatOf (f : Formats) (r : FormatRecord) : Option Nat :=
  match r.format with
  | some id => some id
  | none => (r.parent.bind fun p => f.parents[p]?).bind (·.format)

/-- The code that a cell of the given style is shown with. -/
def numberFormat (f : Formats) (style : Nat) : Option String :=
  (f.records[style]?.bind f.formatOf).bind f.code

end Formats

end Spreadsheet.Book
