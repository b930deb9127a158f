import Spreadsheet.Archive.Compression
import Spreadsheet.Archive.Content

/-!
# Changing an archive

Contents are replaced in the index only; `save` writes the archive. Records are written in the order in which they
stood, after the bytes before the first of them. The directory keeps its own order.

* `replace`: new contents for a member.
* `save`: the bytes of the archive.
-/

set_option autoImplicit false

namespace Spreadsheet.Archive

/-! ## Replacing contents -/

/-- Members with the last one of a name changed, if there is one. -/
def changeLast? (name : String) (change : Member → Member) : List Member → Option (List Member)
  | [] => none
  | m :: rest =>
    match changeLast? name change rest with
    | some rest => some (m :: rest)
    | none => if m.name = name then some (change m :: rest) else none

/-- How contents are stored: compressed if that makes them smaller. -/
def pack (contents : Bytes) : Method × Bytes :=
  match compressed? contents with
  | some payload => (.deflated, payload)
  | none => (.stored, contents)

def Member.withContents (m : Member) (contents : Bytes) : Member :=
  m.withPayload (pack contents).1 (Archive.checksum contents) (pack contents).2 contents.length

def replace (a : Archive) (name : String) (contents : Bytes) : Except Error Archive :=
  match changeLast? name (fun m => m.withContents contents) a.members with
  | none => .error (.memberNotFound name)
  | some members => if Layout.wide < contents.length then .error (.tooLarge name) else .ok { a with members }

/-! ## Writing -/

/-- The members with their places in the directory, in the order of their records. -/
def inOrder (a : Archive) : List (Member × Nat) :=
  a.members.zipIdx.mergeSort fun m n => m.1.start ≤ n.1.start

def preamble (a : Archive) : Bytes :=
  a.bytes.take ((a.inOrder.head?.map fun m => m.1.start).getD a.directoryStart)

def record (a : Archive) (m : Member) : Except Error Bytes := do
  let payload ← a.payload m
  return m.localHeader ++ payload ++ m.descriptor.getD []

def fitting (what : String) (n : Nat) : Except Error Nat :=
  if n ≤ Layout.wide then .ok n else .error (.tooLarge what)

/-- Records one after the other, and where each one begins; `offset` is the place of the first. -/
def writeRecords (a : Archive) (offset : Nat) : List (Member × Nat) → Except Error (Bytes × List (Nat × Nat))
  | [] => .ok ([], [])
  | (m, i) :: rest => do
    let start ← fitting m.name offset
    let bytes ← a.record m
    let (others, starts) ← a.writeRecords (offset + bytes.length) rest
    return (bytes ++ others, (i, start) :: starts)

def directory (a : Archive) (starts : List (Nat × Nat)) : Bytes :=
  a.members.zipIdx.flatMap fun (m, i) => patch m.centralHeader 42 4 ((starts.lookup i).getD 0)

def closing (a : Archive) (count size start : Nat) : Bytes :=
  let ending := patch (patch a.endRecord 8 2 count) 10 2 count
  patch (patch ending 12 4 size) 16 4 start

def save (a : Archive) : Except Error Bytes := do
  let (records, starts) ← a.writeRecords a.preamble.length a.inOrder
  let start := a.preamble.length + records.length
  let entries := a.directory starts
  if 0xFFFF < a.members.length then throw .extendedFormat
  let size ← fitting "central directory" entries.length
  let start ← fitting "central directory" start
  return a.preamble ++ records ++ entries ++ a.closing a.members.length size start

end Spreadsheet.Archive
