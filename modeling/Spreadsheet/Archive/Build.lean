import Spreadsheet.Archive.Member

/-!
# Building an archive

`build` is the archive of given contents: every member is stored as it is, in the order of the list, with its name
in UTF-8 and without anything optional.
-/

set_option autoImplicit false

namespace Spreadsheet.Archive

/-- What record and directory entry say alike about a member: the format's version, flags, method, a date, the
checksum, both sizes, and the sizes of the name and the extra field. -/
def commonFields (name contents : Bytes) : Bytes :=
  numeral 2 20 ++ numeral 2 0x800 ++ numeral 2 0 ++ numeral 2 0 ++ numeral 2 0x21 ++
    numeral 4 (checksum contents).toNat ++ numeral 4 contents.length ++ numeral 4 contents.length ++
    numeral 2 name.length ++ numeral 2 0

def buildRecord (name contents : Bytes) : Bytes :=
  numeral 4 Layout.localSignature ++ commonFields name contents ++ name ++ contents

/-- The directory entry of a member whose record begins at a place. -/
def buildEntry (name contents : Bytes) (start : Nat) : Bytes :=
  numeral 4 Layout.centralSignature ++ numeral 2 20 ++ commonFields name contents ++ numeral 2 0 ++ numeral 2 0 ++
    numeral 2 0 ++ numeral 4 0 ++ numeral 4 start ++ name

def buildDirectory (start : Nat) : List (String × Bytes) → Bytes
  | [] => []
  | (name, contents) :: rest =>
    buildEntry (Text.Utf8.encode name) contents start ++
      buildDirectory (start + (buildRecord (Text.Utf8.encode name) contents).length) rest

def build (members : List (String × Bytes)) : Bytes :=
  let records := members.flatMap fun (name, contents) => buildRecord (Text.Utf8.encode name) contents
  let directory := buildDirectory 0 members
  records ++ directory ++ (numeral 4 Layout.endSignature ++ numeral 2 0 ++ numeral 2 0 ++
    numeral 2 members.length ++ numeral 2 members.length ++ numeral 4 directory.length ++
    numeral 4 records.length ++ numeral 2 0)

end Spreadsheet.Archive
