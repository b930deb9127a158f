import Spreadsheet.Text.Utf8

/-!
# Checksums

The checksum of contents is the cyclic redundancy check of 32 bits with the reflected polynomial of the format;
register and result are inverted.
-/

set_option autoImplicit false

namespace Spreadsheet.Archive

def divideBit (register : UInt32) : UInt32 :=
  if register &&& 1 == 1 then (register >>> 1) ^^^ 0xEDB88320 else register >>> 1

def divideByte (register : UInt32) (b : UInt8) : UInt32 :=
  Nat.repeat divideBit 8 (register ^^^ b.toUInt32)

def checksum (contents : Bytes) : UInt32 := contents.foldl divideByte 0xFFFFFFFF ^^^ 0xFFFFFFFF

end Spreadsheet.Archive
