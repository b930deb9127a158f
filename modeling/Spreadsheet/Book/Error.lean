import Spreadsheet.Archive.Error
import Spreadsheet.Formula.Expr
import Spreadsheet.Markup.Error

/-!
# What can be wrong with a book
-/

set_option autoImplicit false

namespace Spreadsheet.Book

/-- What can be wrong with a book, or with a request to it. -/
inductive Error where
  | archive (error : Archive.Error)
  | markup (error : Markup.Error)
  | formula (error : Formula.Error)
  | grid (error : Grid.Error)
  | missingPart (path : String)
  | invalidFormat (reason : String)
  | sheetNotFound (name : String)
  | cellNotFound (sheet address : String)
  | unsupportedVersion (expected found : String)
  deriving DecidableEq, Repr

def Error.message : Error → String
  | .archive e => String.join ["ZIP error: ", e.message]
  | .markup e => e.message
  | .formula e => String.join ["Formula error: ", e.message]
  | .grid e => String.join ["Core error: ", e.message]
  | .missingPart path => String.join ["Missing required part: ", path]
  | .invalidFormat reason => String.join ["Invalid XLSX format: ", reason]
  | .sheetNotFound name => String.join ["Sheet not found: ", name]
  | .cellNotFound sheet address => String.join ["Cell not found: ", sheet, "!", address]
  | .unsupportedVersion expected found =>
    String.join ["Unsupported version: expected ", expected, ", found ", found]

end Spreadsheet.Book
