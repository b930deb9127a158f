import Spreadsheet.Archive.Checksum
import Spreadsheet.Archive.Field

/-!
# Members of an archive

A member has a record, which holds its contents, and an entry in the directory at the end of the archive. Both
begin with a header; the bytes of the headers are kept, so that what a header says about other things than the
contents is written back as it was.

* `Method`: how contents are stored.
* `Member`: one member.
* `Archive`: the bytes of an archive with what has been found in them.
-/

set_option autoImplicit false

namespace Spreadsheet

namespace Archive

/-! ## The layout of headers -/

namespace Layout

def localSignature : Nat := 0x04034B50

def centralSignature : Nat := 0x02014B50

def endSignature : Nat := 0x06054B50

def descriptorSignature : Nat := 0x08074B50

/-- The size of a record's header without name and extra field. -/
def localSize : Nat := 30

/-- The size of a directory entry without name, extra field and comment. -/
def centralSize : Nat := 46

/-- The size of the end record without comment. -/
def endSize : Nat := 22

/-- The value of a field of four bytes that refers to another place. -/
def wide : Nat := 0xFFFFFFFF

/-- Whether a descriptor follows the payload: bit 3 of the flags. -/
def hasDescriptor (flags : Nat) : Bool := flags.testBit 3

/-- Whether the name is in UTF-8: bit 11 of the flags. -/
def isUtf8 (flags : Nat) : Bool := flags.testBit 11

def withoutDescriptor (flags : Nat) : Nat := if hasDescriptor flags then flags - 8 else flags

end Layout

inductive Method where
  | stored
  | deflated
  | other (id : Nat)
  deriving DecidableEq, Repr

namespace Method

def ofId : Nat → Method
  | 0 => stored
  | 8 => deflated
  | id => other id

def id : Method → Nat
  | stored => 0
  | deflated => 8
  | other id => id

end Method

structure Extent where
  start : Nat
  size : Nat
  deriving DecidableEq, Repr

structure Member where
  name : String
  start : Nat
  localHeader : Bytes
  centralHeader : Bytes
  payload : Extent
  descriptor : Option Bytes
  method : Method
  checksum : UInt32
  compressedSize : Nat
  size : Nat
  /-- A payload to be written in place of the one in the archive. -/
  replacement : Option Bytes
  deriving DecidableEq, Repr

namespace Member

def recordEnd (m : Member) : Nat := m.payload.start + m.payload.size + (m.descriptor.getD []).length

def describeLocal (method : Method) (checksum : UInt32) (compressedSize size : Nat) (header : Bytes) : Bytes :=
  let flags := number ((header.drop 6).take 2)
  let header := patch header 6 2 (Layout.withoutDescriptor flags)
  let header := patch header 8 2 method.id
  let header := patch header 14 4 checksum.toNat
  let header := patch header 18 4 compressedSize
  patch header 22 4 size

def describeCentral (method : Method) (checksum : UInt32) (compressedSize size : Nat) (header : Bytes) : Bytes :=
  let flags := number ((header.drop 8).take 2)
  let header := patch header 8 2 (Layout.withoutDescriptor flags)
  let header := patch header 10 2 method.id
  let header := patch header 16 4 checksum.toNat
  let header := patch header 20 4 compressedSize
  patch header 24 4 size

/-- The member with another payload for contents of the given size. Both headers tell it, and no descriptor is
needed. -/
def withPayload (m : Member) (method : Method) (checksum : UInt32) (payload : Bytes) (size : Nat) : Member :=
  { m with
    localHeader := describeLocal method checksum payload.length size m.localHeader
    centralHeader := describeCentral method checksum payload.length size m.centralHeader
    descriptor := none
    method
    checksum
    compressedSize := payload.length
    size
    replacement := some payload }

end Member

end Archive

/-- An archive: its bytes, its members in the order of the directory, the end record with the comment, and where
the directory begins. `verifies` says whether checksums are compared when contents are read. -/
structure Archive where
  bytes : Bytes
  members : List Archive.Member
  endRecord : Bytes
  directoryStart : Nat
  verifies : Bool
  deriving DecidableEq, Repr

namespace Archive

/-- The member of a name. Of several, the last one counts. -/
def find? (a : Archive) (name : String) : Option Member := a.members.reverse.find? fun m => m.name == name

def contains (a : Archive) (name : String) : Bool := (a.find? name).isSome

def names (a : Archive) : List String := a.members.map (·.name)

def verifying (a : Archive) (verifies : Bool) : Archive := { a with verifies }

end Archive

end Spreadsheet
