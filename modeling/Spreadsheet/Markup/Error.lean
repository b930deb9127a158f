import Spreadsheet.Text.Numeral
import Spreadsheet.Text.Utf8

/-!
# What can be wrong with a part

The errors of reading markup: of its characters, its references, its tokens, the attributes of a tag, and the
nesting of its elements. Places are counted in bytes: in the text at hand for characters and references, in the
tag for attributes, and in the part for end tags.
-/

set_option autoImplicit false

namespace Spreadsheet.Markup

/-- What can be wrong with a reference, which stands from `start` up to `stop`. -/
inductive ReferenceError where
  | unterminated (start stop : Nat)
  | unknown (start stop : Nat) (name : String)
  | null (start stop : Nat)
  | longDecimal
  | badDecimal (digit : Char)
  | longHexadecimal
  | badHexadecimal (digit : Char)
  | noCharacter (code : Nat)
  deriving DecidableEq, Repr

/-- The constructs whose end or keyword can be missing. -/
inductive Construct where
  | bang
  | comment
  | cdata
  | doctype
  | instruction
  deriving DecidableEq, Repr

/-- What can be wrong with the attributes of a tag. -/
inductive AttributeError where
  | expectedEq (position : Nat)
  | expectedValue (position : Nat)
  | unquotedValue (position : Nat)
  | expectedQuote (position : Nat) (quote : Char)
  | duplicated (position previous : Nat)
  deriving DecidableEq, Repr

/-- What can be wrong with a part. -/
inductive Error where
  | undecodable (fault : Text.Utf8.Fault)
  | badReference (error : ReferenceError)
  | unexpectedEnd (construct : Construct)
  | unexpectedBang (found : Char)
  | emptyDoctype
  | attribute (error : AttributeError)
  | unopened (name : String) (position : Nat)
  | mismatched (expected found : String) (position : Nat)
  | unclosed (name : String)
  deriving DecidableEq, Repr

/-! ## Wording -/

def faultMessage (f : Text.Utf8.Fault) : String :=
  if f.unfinished then String.join ["incomplete utf-8 byte sequence from index ", Text.Numeral.text f.index]
  else
    String.join ["invalid utf-8 sequence of ", Text.Numeral.text f.width, " bytes from index ",
      Text.Numeral.text f.index]

def placeText (start stop : Nat) : String :=
  String.join [Text.Numeral.text start, "..", Text.Numeral.text stop]

/-- A character in quoted text: quotes, backslashes and control characters are escaped. -/
def quotedChar (c : Char) : List Char :=
  if c = '"' then ['\\', '"']
  else if c = '\\' then ['\\', '\\']
  else if c = '\t' then ['\\', 't']
  else if c = '\n' then ['\\', 'n']
  else if c = '\r' then ['\\', 'r']
  else if c.toNat = 0 then ['\\', '0']
  else if c.toNat < 32 ∨ c.toNat = 127 then
    '\\' :: 'u' :: Char.ofNat 123 :: Nat.toDigits 16 c.toNat ++ [Char.ofNat 125]
  else [c]

def quoted (s : String) : String := String.ofList ('"' :: s.toList.flatMap quotedChar ++ ['"'])

def ReferenceError.message : ReferenceError → String
  | .unterminated start stop =>
    String.join ["Error while escaping character at range ", placeText start stop, ": Cannot find ';' after '&'"]
  | .unknown start stop name =>
    String.join ["Error while escaping character at range ", placeText start stop,
      ": Unrecognized escape symbol: ", quoted name]
  | .null start stop =>
    String.join ["Error while escaping character at range ", placeText start stop,
      ": Null character entity not allowed"]
  | .longDecimal => "Cannot convert decimal to utf8"
  | .badDecimal c => String.join ["'", c.toString, "' is not a valid decimal character"]
  | .longHexadecimal => "Cannot convert hexadecimal to utf8"
  | .badHexadecimal c => String.join ["'", c.toString, "' is not a valid hexadecimal character"]
  | .noCharacter code => String.join ["'", Text.Numeral.text code, "' is not a valid codepoint"]

def Construct.name : Construct → String
  | .bang => "Bang"
  | .comment => "Comment"
  | .cdata => "CData"
  | .doctype => "DOCTYPE"
  | .instruction => "XmlDecl"

def AttributeError.reason : AttributeError → String
  | .expectedEq _ => "attribute key must be directly followed by `=` or space"
  | .expectedValue _ => "`=` must be followed by an attribute value"
  | .unquotedValue _ => "attribute value must be enclosed in `\"` or `'`"
  | .expectedQuote _ quote => String.join ["missing closing quote `", quote.toString, "` in attribute value"]
  | .duplicated _ previous =>
    String.join ["duplicated attribute, previous declaration at position ", Text.Numeral.text previous]

def AttributeError.position : AttributeError → Nat
  | .expectedEq p => p
  | .expectedValue p => p
  | .unquotedValue p => p
  | .expectedQuote p _ => p
  | .duplicated p _ => p

def AttributeError.message (e : AttributeError) : String :=
  String.join ["position ", Text.Numeral.text e.position, ": ", e.reason]

def Error.message : Error → String
  | .undecodable f => String.join ["XML error: Malformed UTF-8 input: ", faultMessage f]
  | .badReference e => String.join ["XML error: ", e.message]
  | .unexpectedEnd c => String.join ["XML error: Unexpected EOF during reading ", c.name]
  | .unexpectedBang c =>
    String.join ["XML error: Only Comment (`--`), CDATA (`[CDATA[`) and DOCTYPE (`DOCTYPE`) ",
      "nodes can start with a '!', but symbol `", c.toString, "` found"]
  | .emptyDoctype => "XML error: DOCTYPE declaration must not be empty"
  | .attribute e => String.join ["XML attribute error: ", e.message]
  | .unopened name position =>
    String.join ["Malformed XML: closing </", name, "> at byte ", Text.Numeral.text position,
      " with no open element"]
  | .mismatched expected found position =>
    String.join ["Malformed XML: expected </", expected, ">, found </", found, "> at byte ",
      Text.Numeral.text position]
  | .unclosed name => String.join ["Malformed XML: element <", name, "> is never closed"]

end Spreadsheet.Markup
