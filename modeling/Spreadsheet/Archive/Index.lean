import Spreadsheet.Archive.Member

/-!
# Finding the members of an archive

The end record is looked for from the last byte backwards, past a comment. It says where the directory is, and a
directory entry says where its record is. An entry whose record is not there is passed over.

* `findEnd`: where the end record begins.
* `readEntry`: a directory entry with its record.
* `index`: an archive.
-/

set_option autoImplicit false

namespace Spreadsheet.Archive

open Layout

/-- The longest comment. -/
def maxComment : Nat := 0xFFFF

def signatureBytes (signature : Nat) : Bytes := numeral 4 signature

/-- The places at which a byte string has a signature; `position` is the place of its first byte. -/
def signaturePositions (signature : Bytes) (position : Nat) : Bytes → List Nat
  | [] => []
  | b :: rest =>
    let others := signaturePositions signature (position + 1) rest
    if signature.isPrefixOf (b :: rest) then position :: others else others

def findEnd (data : Bytes) : Except Error Nat :=
  if data.length < endSize then
    .error (.invalid (Text.Numeral.text data.length ++ " bytes is too short for a zip archive"))
  else
    let last := data.length - endSize
    let first := last - maxComment
    let positions := signaturePositions (signatureBytes endSignature) first (data.drop first)
    match (positions.filter fun p => p ≤ last).getLast? with
    | some p => .ok p
    | none => .error (.invalid "end of central directory not found")

/-- The name of a member. Without the flag for UTF-8 each byte is a character. -/
def nameOf (flags : Nat) (bytes : Bytes) : String :=
  if isUtf8 flags then String.ofList (Text.Utf8.lossy (Text.Utf8.decode bytes))
  else String.ofList (bytes.map fun b => Char.ofNat b.toNat)

/-- What follows the payload that ends at a place: a descriptor, with a signature or without. -/
def readDescriptor (data : Bytes) (flags position : Nat) : Except Error (Option Bytes) :=
  if hasDescriptor flags then
    (slice data position (if hasSignature data position descriptorSignature then 16 else 12)).map some
  else .ok none

structure Entry where
  name : String
  header : Bytes
  method : Nat
  checksum : Nat
  compressedSize : Nat
  size : Nat
  start : Nat
  next : Nat

def readEntry (data : Bytes) (position : Nat) : Except Error Entry := do
  let signature ← field data position 4
  if signature ≠ centralSignature then
    throw (.invalid ("bad central directory signature at offset " ++ Text.Numeral.text position))
  let _ ← slice data (position + 4) 4
  let flags ← field data (position + 8) 2
  let method ← field data (position + 10) 2
  let _ ← slice data (position + 12) 4
  let checksum ← field data (position + 16) 4
  let compressedSize ← field data (position + 20) 4
  let size ← field data (position + 24) 4
  let nameSize ← field data (position + 28) 2
  let extraSize ← field data (position + 30) 2
  let commentSize ← field data (position + 32) 2
  let _ ← slice data (position + 34) 8
  let start ← field data (position + 42) 4
  let name ← slice data (position + 46) nameSize
  let _ ← slice data (position + 46 + nameSize) (extraSize + commentSize)
  if compressedSize = wide ∨ size = wide ∨ start = wide then throw .extendedFormat
  let headerSize := centralSize + nameSize + (extraSize + commentSize)
  let header ← slice data position headerSize
  return ⟨nameOf flags name, header, method, checksum, compressedSize, size, start, position + headerSize⟩

/-- The record of an entry, unless it is not where the entry says. -/
def readRecord (data : Bytes) (e : Entry) : Except Error (Option Member) :=
  if hasSignature data e.start localSignature then do
    let flags ← field data (e.start + 6) 2
    let nameSize ← field data (e.start + 26) 2
    let extraSize ← field data (e.start + 28) 2
    let headerSize := localSize + nameSize + extraSize
    let header ← slice data e.start headerSize
    let payloadStart := e.start + headerSize
    let _ ← slice data payloadStart e.compressedSize
    let descriptor ← readDescriptor data flags (payloadStart + e.compressedSize)
    return some {
      name := e.name
      start := e.start
      localHeader := header
      centralHeader := e.header
      payload := ⟨payloadStart, e.compressedSize⟩
      descriptor
      method := .ofId e.method
      checksum := UInt32.ofNat e.checksum
      compressedSize := e.compressedSize
      size := e.size
      replacement := none }
  else .ok none

def readMembers (data : Bytes) : Nat → Nat → Except Error (List Member)
  | 0, _ => .ok []
  | count + 1, position => do
    let entry ← readEntry data position
    let member ← readRecord data entry
    let others ← readMembers data count entry.next
    return member.toList ++ others

def index (data : Bytes) : Except Error Archive := do
  let position ← findEnd data
  let disk ← field data (position + 4) 2
  let count ← field data (position + 10) 2
  let directorySize ← field data (position + 12) 4
  let directoryStart ← field data (position + 16) 4
  let commentSize ← field data (position + 20) 2
  if disk ≠ 0 then throw (.invalid "multi-disk archives are not supported")
  if count = 0xFFFF ∨ directorySize = wide ∨ directoryStart = wide then throw .extendedFormat
  let ending ← slice data position (endSize + commentSize)
  let members ← readMembers data count directoryStart
  return ⟨data, members, ending, directoryStart, true⟩

end Spreadsheet.Archive
