import Spreadsheet.Text.Case
import Spreadsheet.Value.Basic

/-!
# Yes and no in cells

Books write a yes or no in several ways. A `FlagFormat` says which text stands for each answer; reading accepts
every way.
-/

set_option autoImplicit false

namespace Spreadsheet.Book

/-- The texts for the answers yes and no and for no answer. An empty text clears the cell. -/
structure FlagFormat where
  yes : String
  no : String
  unset : String
  deriving DecidableEq, Repr

namespace FlagFormat

def cross : FlagFormat := ⟨"X", "", ""⟩

def choice : FlagFormat := ⟨"YES", "NO", "YES | NO"⟩

def noByDefault : FlagFormat := ⟨"YES", "NO", "NO"⟩

def yesOrNo : FlagFormat := ⟨"YES", "NO", ""⟩

def encode (f : FlagFormat) (answer : Option Bool) : Value :=
  let text := match answer with
    | some true => f.yes
    | some false => f.no
    | none => f.unset
  if text.isEmpty then .blank else .text text

/-- Whether a text is one of the words for yes, in any case of their letters. -/
def isYes (s : String) : Bool := ["x", "yes", "y"].any fun word => Text.sameIgnoringAsciiCase s word

/-- Whether a text is one of the words for no, or empty. -/
def isNo (s : String) : Bool := s.isEmpty || ["no", "n"].any fun word => Text.sameIgnoringAsciiCase s word

/-- The answer that a value gives, if it gives one; a blank is a no. -/
def decode : Value → Option Bool
  | .truth b => some b
  | .blank => some false
  | .text s => if isYes s then some true else if isNo s then some false else none
  | .number _ => none

end FlagFormat

end Spreadsheet.Book
