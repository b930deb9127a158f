/-!
# Blank characters

* `isBlank`: the 25 code points of the White_Space property.
* `skipBlanks`, `trimmed`: text without its leading blanks, and without blanks at either end.
-/

set_option autoImplicit false

namespace Spreadsheet.Text

def isBlank (c : Char) : Bool :=
  let n := c.toNat
  (0x9 ≤ n && n ≤ 0xD) || n == 0x20 || n == 0x85 || n == 0xA0 || n == 0x1680 ||
    (0x2000 ≤ n && n ≤ 0x200A) || n == 0x2028 || n == 0x2029 || n == 0x202F || n == 0x205F ||
    n == 0x3000

def skipBlanks (s : List Char) : List Char := s.dropWhile isBlank

def trimmed (s : List Char) : List Char :=
  ((skipBlanks s).reverse.dropWhile isBlank).reverse

def trim (s : String) : String := String.ofList (trimmed s.toList)

def hasEdgeBlank (s : String) : Bool :=
  s.toList.head?.any isBlank || s.toList.getLast?.any isBlank

end Spreadsheet.Text
