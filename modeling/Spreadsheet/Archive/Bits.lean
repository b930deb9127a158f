import Spreadsheet.Text.Utf8

/-!
# Bits of a payload

A compressed payload is a row of bits, the least significant bit of each byte first. The last byte is filled up
with zeros.

* `ofBytes`, `toBytes`: bytes as bits, and back.
* `take?`: a number of a given width from the front.
-/

set_option autoImplicit false

namespace Spreadsheet.Archive

abbrev Bits := List Bool

namespace Bits

def number : Bits → Nat
  | [] => 0
  | b :: rest => b.toNat + 2 * number rest

def numeral : Nat → Nat → Bits
  | 0, _ => []
  | width + 1, n => (n % 2 == 1) :: numeral width (n / 2)

@[simp] theorem length_numeral (width n : Nat) : (numeral width n).length = width := by
  induction width generalizing n with
  | zero => rfl
  | succ width ih => simp [numeral, ih]

def ofBytes (bytes : Bytes) : Bits := bytes.flatMap fun b => numeral 8 b.toNat

def toBytes (bits : Bits) : Bytes :=
  match bits with
  | [] => []
  | b :: rest => UInt8.ofNat (number (b :: rest.take 7)) :: toBytes (rest.drop 7)
termination_by bits.length
decreasing_by
  simp only [List.length_drop, List.length_cons]
  omega

/-- The first `width` bits as a number, and the bits after them. -/
def take? : Nat → Bits → Option (Nat × Bits)
  | 0, bits => some (0, bits)
  | _ + 1, [] => none
  | width + 1, b :: bits => (take? width bits).map fun (n, rest) => (b.toNat + 2 * n, rest)

theorem take?_append (bits rest : Bits) : take? bits.length (bits ++ rest) = some (number bits, rest) := by
  induction bits with
  | nil => rfl
  | cons b bits ih => simp [take?, number, ih]

end Bits

end Spreadsheet.Archive
