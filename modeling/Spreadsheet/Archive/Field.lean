import Spreadsheet.Archive.Error
import Spreadsheet.Text.Utf8

/-!
# Fields of records

An archive is a byte string in which records stand at known places. A record is a row of fields, and a number
takes two or four bytes, the least significant first.

* `slice`, `field`: bytes and numbers at a place; beyond the last byte nothing is read.
* `numeral`, `number`: a number as bytes, and back.
* `patch`: a byte string with a number written at a place.
-/

set_option autoImplicit false

namespace Spreadsheet.Archive

def number : Bytes → Nat
  | [] => 0
  | b :: rest => b.toNat + 256 * number rest

def numeral : Nat → Nat → Bytes
  | 0, _ => []
  | width + 1, n => UInt8.ofNat n :: numeral width (n / 256)

@[simp] theorem length_numeral (width n : Nat) : (numeral width n).length = width := by
  induction width generalizing n with
  | zero => rfl
  | succ width ih => simp [numeral, ih]

def slice (data : Bytes) (offset size : Nat) : Except Error Bytes :=
  if offset + size ≤ data.length then .ok ((data.drop offset).take size) else .error (.truncated offset size)

def field (data : Bytes) (offset width : Nat) : Except Error Nat := (slice data offset width).map number

def hasSignature (data : Bytes) (offset signature : Nat) : Bool :=
  match field data offset 4 with
  | .ok n => n == signature
  | .error _ => false

/-- A byte string with the bytes from a place on overwritten by others. -/
def overwrite (data : Bytes) (offset : Nat) (new : Bytes) : Bytes :=
  data.take offset ++ new ++ data.drop (offset + new.length)

/-- A byte string with a number of `width` bytes written at a place. -/
def patch (data : Bytes) (offset width n : Nat) : Bytes := overwrite data offset (numeral width n)

theorem length_patch (data : Bytes) (offset width n : Nat) (h : offset + width ≤ data.length) :
    (patch data offset width n).length = data.length := by
  simp only [patch, overwrite, List.length_append, List.length_take, List.length_drop, length_numeral]
  omega

end Spreadsheet.Archive
