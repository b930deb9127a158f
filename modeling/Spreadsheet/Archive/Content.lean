import Spreadsheet.Archive.Deflate
import Spreadsheet.Archive.Member

/-!
# Reading members

The payload of a member, its replacement if it has one, is expanded, and size and checksum are compared with what
the member says about itself.
-/

set_option autoImplicit false

namespace Spreadsheet.Archive

def payload (a : Archive) (m : Member) : Except Error Bytes :=
  match m.replacement with
  | some payload => .ok payload
  | none => slice a.bytes m.payload.start m.payload.size

def expandPayload (name : String) (method : Method) (payload : Bytes) : Except Error Bytes :=
  match method with
  | .stored => .ok payload
  | .deflated =>
    match inflate? payload with
    | some contents => .ok contents
    | none => .error .corruptStream
  | .other id => .error (.unsupportedMethod name id)

def verify (a : Archive) (m : Member) (contents : Bytes) : Except Error Bytes :=
  if contents.length ≠ m.size then .error (.sizeMismatch m.name m.size contents.length)
  else if a.verifies ∧ checksum contents ≠ m.checksum then
    .error (.checksumMismatch m.name m.checksum (checksum contents))
  else .ok contents

def contents (a : Archive) (m : Member) : Except Error Bytes := do
  let payload ← a.payload m
  let contents ← expandPayload m.name m.method payload
  a.verify m contents

def read (a : Archive) (name : String) : Except Error Bytes :=
  match a.find? name with
  | some m => a.contents m
  | none => .error (.memberNotFound name)

end Spreadsheet.Archive
