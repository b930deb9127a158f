import Std.Data.HashMap
import Spreadsheet.Archive.Index
import Spreadsheet.Archive.Update

/-!
# Access with every bound in sight

Most bytes of an archive are taken from places that are checked, and a place that is not there is reported. Other places
are trusted: they follow from lengths that were read before, or they are positions in the list of members. Here a trusted
place that is not there is a fault of its own kind, which no caller can expect.

* `Fault`: what stops an access.
* `elementAt`, `setAt`, `bytesBetween`, `patchAt`: accesses to trusted places.
* `Container`: an archive with the positions of its members by name.
* `Container.ofBytes`, `Container.replace`, `Container.read`, `Container.save`: the operations on an archive, one access after
  the other.
-/

set_option autoImplicit false

namespace Spreadsheet.Archive.Guarded

open Layout

inductive Fault where
  | reported (e : Error)
  /-- A trusted place that is outside of the bytes or of the list. -/
  | outside
  deriving DecidableEq, Repr

def reported {α : Type} (r : Except Error α) : Except Fault α := r.mapError .reported

/-! ## Trusted places -/

def elementAt {α : Type} (l : List α) (i : Nat) : Except Fault α :=
  match l[i]? with
  | some x => .ok x
  | none => .error .outside

def setAt {α : Type} (l : List α) (i : Nat) (x : α) : Except Fault (List α) :=
  if i < l.length then .ok (l.set i x) else .error .outside

def bytesBetween (data : Bytes) (start stop : Nat) : Except Fault Bytes :=
  if start ≤ stop ∧ stop ≤ data.length then .ok ((data.drop start).take (stop - start)) else .error .outside

def patchAt (data : Bytes) (offset width n : Nat) : Except Fault Bytes :=
  if offset + width ≤ data.length then .ok (patch data offset width n) else .error .outside

/-! ## Finding the members -/

def field (data : Bytes) (offset width : Nat) : Except Fault Nat := do
  let bytes ← reported (slice data offset width)
  -- The slice is checked; that it has the bytes that are taken from it one by one is trusted.
  return number (← (List.range width).mapM (elementAt bytes))

def hasSignature (data : Bytes) (offset signature : Nat) : Except Fault Bool :=
  match field data offset 4 with
  | .ok n => .ok (n == signature)
  | .error (.reported _) => .ok false
  | .error .outside => .error .outside

def findSignature (data : Bytes) : List Nat → Except Fault (Option Nat)
  | [] => .ok none
  | p :: rest => do
    if ← hasSignature data p endSignature then return some p
    else findSignature data rest

/-- The places that leave room for an end record and at most for the longest comment, from the last one backwards. -/
def endings (data : Bytes) : List Nat :=
  let last := data.length - endSize
  let first := last - maxComment
  (List.range' first (last + 1 - first)).reverse

def findEnd (data : Bytes) : Except Fault Nat :=
  if data.length < endSize then
    .error (.reported (.invalid (Text.Numeral.text data.length ++ " bytes is too short for a zip archive")))
  else do
    match ← findSignature data (endings data) with
    | some p => return p
    | none => throw (.reported (.invalid "end of central directory not found"))

def readDescriptor (data : Bytes) (flags position : Nat) : Except Fault (Option Bytes) :=
  if hasDescriptor flags then do
    let size := if ← hasSignature data position descriptorSignature then 16 else 12
    return some (← reported (slice data position size))
  else .ok none

def readEntry (data : Bytes) (position : Nat) : Except Fault Entry := do
  let signature ← field data position 4
  if signature ≠ centralSignature then
    throw (.reported (.invalid ("bad central directory signature at offset " ++ Text.Numeral.text position)))
  let _ ← reported (slice data (position + 4) 4)
  let flags ← field data (position + 8) 2
  let method ← field data (position + 10) 2
  let _ ← reported (slice data (position + 12) 4)
  let checksum ← field data (position + 16) 4
  let compressedSize ← field data (position + 20) 4
  let size ← field data (position + 24) 4
  let nameSize ← field data (position + 28) 2
  let extraSize ← field data (position + 30) 2
  let commentSize ← field data (position + 32) 2
  let _ ← reported (slice data (position + 34) 8)
  let start ← field data (position + 42) 4
  let name ← reported (slice data (position + 46) nameSize)
  let _ ← reported (slice data (position + 46 + nameSize) (extraSize + commentSize))
  if compressedSize = wide ∨ size = wide ∨ start = wide then throw (.reported .extendedFormat)
  let next := position + (centralSize + nameSize + (extraSize + commentSize))
  -- All fields have been read up to `next`, so the whole of the entry is taken unchecked.
  let header ← bytesBetween data position next
  return ⟨nameOf flags name, header, method, checksum, compressedSize, size, start, next⟩

/-- The record of an entry, unless it is not where the entry says. -/
def readRecord (data : Bytes) (e : Entry) : Except Fault (Option Member) := do
  if ← hasSignature data e.start localSignature then
    let flags ← field data (e.start + 6) 2
    let nameSize ← field data (e.start + 26) 2
    let extraSize ← field data (e.start + 28) 2
    let headerSize := localSize + nameSize + extraSize
    let header ← reported (slice data e.start headerSize)
    let payloadStart := e.start + headerSize
    let _ ← reported (slice data payloadStart e.compressedSize)
    let descriptor ← readDescriptor data flags (payloadStart + e.compressedSize)
    return some {
      name := e.name
      start := e.start
      localHeader := header
      centralHeader := e.header
      payload := ⟨payloadStart, e.compressedSize⟩
      descriptor
      method := .ofId e.method
      checksum := UInt32.ofNat e.checksum
      compressedSize := e.compressedSize
      size := e.size
      replacement := none }
  else return none

def readMembers (data : Bytes) : Nat → Nat → Except Fault (List Member)
  | 0, _ => .ok []
  | count + 1, position => do
    let entry ← readEntry data position
    let member ← readRecord data entry
    let others ← readMembers data count entry.next
    return member.toList ++ others

def index (data : Bytes) : Except Fault Archive := do
  let position ← findEnd data
  let disk ← field data (position + 4) 2
  let count ← field data (position + 10) 2
  let directorySize ← field data (position + 12) 4
  let directoryStart ← field data (position + 16) 4
  let commentSize ← field data (position + 20) 2
  if disk ≠ 0 then throw (.reported (.invalid "multi-disk archives are not supported"))
  if count = 0xFFFF ∨ directorySize = wide ∨ directoryStart = wide then throw (.reported .extendedFormat)
  let ending ← reported (slice data position (endSize + commentSize))
  let members ← readMembers data count directoryStart
  return ⟨data, members, ending, directoryStart, true⟩

/-- The positions of names in a list. A repeated name has its last position. -/
def positionsOf (names : List String) : Std.HashMap String Nat :=
  names.zipIdx.foldl (fun positions p => positions.insert p.1 p.2) ∅

/-- An archive with the positions of its members by name. -/
structure Container where
  archive : Archive
  positions : Std.HashMap String Nat

namespace Container

def ofArchive (a : Archive) : Container := ⟨a, positionsOf a.names⟩

def ofBytes (data : Bytes) : Except Fault Container := do
  let a ← index data
  return ofArchive a

/-! ## Reading members -/

def read (c : Container) (name : String) : Except Fault Bytes :=
  match c.positions[name]? with
  | some i => do
    let m ← elementAt c.archive.members i
    reported (c.archive.contents m)
  | none => .error (.reported (.memberNotFound name))

/-! ## Replacing contents -/

/-- A header with new facts about the contents, which stand from a place on. -/
def describe (base : Nat) (method : Method) (checksum : UInt32) (compressedSize size : Nat) (header : Bytes) :
    Except Fault Bytes := do
  let low ← elementAt header base
  let high ← elementAt header (base + 1)
  let header ← patchAt header base 2 (withoutDescriptor (number [low, high]))
  let header ← patchAt header (base + 2) 2 method.id
  let header ← patchAt header (base + 8) 4 checksum.toNat
  let header ← patchAt header (base + 12) 4 compressedSize
  patchAt header (base + 16) 4 size

def withPayload (m : Member) (method : Method) (checksum : UInt32) (payload : Bytes) (size : Nat) :
    Except Fault Member := do
  let localHeader ← describe 6 method checksum payload.length size m.localHeader
  let centralHeader ← describe 8 method checksum payload.length size m.centralHeader
  return { m with
    localHeader
    centralHeader
    descriptor := none
    method
    checksum
    compressedSize := payload.length
    size
    replacement := some payload }

def replace (c : Container) (name : String) (contents : Bytes) : Except Fault Container :=
  match c.positions[name]? with
  | some i =>
    if wide < contents.length ∨ wide < (pack contents).2.length then .error (.reported (.tooLarge name))
    else do
      let m ← elementAt c.archive.members i
      let m ← withPayload m (pack contents).1 (checksum contents) (pack contents).2 contents.length
      let members ← setAt c.archive.members i m
      return { c with archive := { c.archive with members } }
  | none => .error (.reported (.memberNotFound name))

/-- The container after requests to replace contents. A request that fails with an error changes nothing. -/
def replaceEach (c : Container) : List (String × Bytes) → Except Fault Container
  | [] => .ok c
  | (name, contents) :: rest =>
    match c.replace name contents with
    | .ok c => c.replaceEach rest
    | .error (.reported _) => c.replaceEach rest
    | .error .outside => .error .outside

/-! ## Writing -/

def order (a : Archive) : Except Fault (List Nat) := do
  let keys ← (List.range a.members.length).mapM fun i => do return ((← elementAt a.members i).start, i)
  return (keys.mergeSort fun m n => m.1 ≤ n.1).map (·.2)

/-- Where the first of the records begins; without one it is where the directory does. -/
def firstStart (a : Archive) : List Nat → Except Fault Nat
  | [] => .ok a.directoryStart
  | i :: _ => do return (← elementAt a.members i).start

/-- What has been written with the record at a position, and the starts with its start. -/
def writeRecord (a : Archive) (written : Bytes × List Nat) (i : Nat) : Except Fault (Bytes × List Nat) := do
  let m ← elementAt a.members i
  let start ← reported (fitting m.name written.1.length)
  let starts ← setAt written.2 i start
  let payload ← reported (a.payload m)
  return (written.1 ++ (m.localHeader ++ payload ++ m.descriptor.getD []), starts)

/-- What has been written with a directory entry, which says the start of its record. -/
def writeEntry (written : Bytes) (entry : Member × Nat) : Except Fault Bytes := do
  let all := written ++ entry.1.centralHeader
  let header ← bytesBetween all written.length all.length
  return written ++ (← patchAt header 42 4 entry.2)

/-- The end record for a directory of a size at a place. -/
def closing (a : Archive) (size start : Nat) : Except Fault Bytes := do
  if 0xFFFF < a.members.length then throw (.reported .extendedFormat)
  let ending ← patchAt a.endRecord 8 2 a.members.length
  let ending ← patchAt ending 10 2 a.members.length
  let size ← reported (fitting "central directory" size)
  let ending ← patchAt ending 12 4 size
  let start ← reported (fitting "central directory" start)
  patchAt ending 16 4 start

def save (c : Container) : Except Fault Bytes := do
  let positions ← order c.archive
  let first ← firstStart c.archive positions
  let front ← bytesBetween c.archive.bytes 0 (min first c.archive.bytes.length)
  let (records, starts) ←
    positions.foldlM (writeRecord c.archive) (front, List.replicate c.archive.members.length 0)
  let all ← (c.archive.members.zip starts).foldlM writeEntry records
  return all ++ (← closing c.archive (all.length - records.length) records.length)

end Container

end Spreadsheet.Archive.Guarded
