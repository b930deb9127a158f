import Spreadsheet.Text.Numeral

/-!
# What can be wrong with an archive
-/

set_option autoImplicit false

namespace Spreadsheet.Archive

/-- What can be wrong with an archive, or with a request to it. -/
inductive Error where
  | corruptStream
  | invalid (reason : String)
  | truncated (offset needed : Nat)
  | unsupportedMethod (name : String) (method : Nat)
  | memberNotFound (name : String)
  | checksumMismatch (name : String) (expected actual : UInt32)
  | sizeMismatch (name : String) (expected actual : Nat)
  | extendedFormat
  | tooLarge (what : String)
  deriving DecidableEq, Repr

def hexDigits : Nat → Nat → List Char
  | 0, _ => []
  | width + 1, n => hexDigits width (n / 16) ++ [Nat.digitChar (n % 16)]

def checksumText (n : UInt32) : String := String.ofList (hexDigits 8 n.toNat)

def Error.message : Error → String
  | .corruptStream => "IO error: corrupt deflate stream"
  | .invalid reason => String.join ["Invalid archive: ", reason]
  | .truncated offset needed =>
    String.join ["Archive truncated: need ", Text.Numeral.text needed, " bytes at offset ",
      Text.Numeral.text offset]
  | .unsupportedMethod name method =>
    String.join ["Unsupported compression method ", Text.Numeral.text method, " for entry ", name]
  | .memberNotFound name => String.join ["Entry not found: ", name]
  | .checksumMismatch name expected actual =>
    String.join ["Checksum mismatch in ", name, ": expected ", checksumText expected, ", got ",
      checksumText actual]
  | .sizeMismatch name expected actual =>
    String.join ["Size mismatch in ", name, ": expected ", Text.Numeral.text expected, " bytes, got ",
      Text.Numeral.text actual]
  | .extendedFormat => "ZIP64 archives are not supported"
  | .tooLarge what => String.join ["Entry too large for a 32-bit archive: ", what]

end Spreadsheet.Archive
