/-!
# The order of texts

`order` compares two texts character by character, by code point; a text comes before its extensions.
`Ordering.swap` exchanges the two answers "before" and "after".
-/

set_option autoImplicit false

namespace Spreadsheet.Text

def orderNat (m n : Nat) : Ordering := if m < n then .lt else if m = n then .eq else .gt

def order : List Char → List Char → Ordering
  | [], [] => .eq
  | [], _ :: _ => .lt
  | _ :: _, [] => .gt
  | a :: s, b :: t =>
    match orderNat a.toNat b.toNat with
    | .lt => .lt
    | .gt => .gt
    | .eq => order s t

end Spreadsheet.Text
