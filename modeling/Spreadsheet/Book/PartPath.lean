/-!
# Paths of parts

A part is named by its path in the package, and it refers to others by targets relative to its own directory.

* `directory`, `relationshipsPath`: the directory of a part, and the part with its relationships.
* `resolve`: the path of a target.
-/

set_option autoImplicit false

namespace Spreadsheet.Book.PartPath

def splitLast? : List Char → Option (List Char × List Char)
  | [] => none
  | c :: s =>
    match splitLast? s with
    | some (before, after) => some (c :: before, after)
    | none => if c = '/' then some ([], s) else none

def directory (path : String) : String :=
  match splitLast? path.toList with
  | some (before, _) => String.ofList before
  | none => ""

def relationshipsPath (path : String) : String :=
  match splitLast? path.toList with
  | some (before, after) => String.ofList before ++ "/_rels/" ++ String.ofList after ++ ".rels"
  | none => "_rels/" ++ path ++ ".rels"

abbrev Segment := List Char

def segments : List Char → List Segment
  | [] => [[]]
  | c :: s =>
    if c = '/' then [] :: segments s
    else
      match segments s with
      | [] => [[c]]
      | first :: rest => (c :: first) :: rest

def join : List Segment → List Char
  | [] => []
  | [s] => s
  | s :: rest => s ++ '/' :: join rest

/-- Follows a segment from a directory, whose segments stand last first. Above the root there is nothing. -/
def enter (inside : List Segment) (s : Segment) : List Segment :=
  if s = [] ∨ s = ['.'] then inside
  else if s = ['.', '.'] then inside.tail
  else s :: inside

/-- The segments of a target's path, last first. A target that begins with a slash starts at the root. -/
def walk (base target : List Char) : List Segment :=
  match target with
  | '/' :: absolute => (segments absolute).foldl enter []
  | _ => (segments target).foldl enter ((segments base).filter fun s => s ≠ []).reverse

/-- The path of a target of a part in the directory `base`. -/
def resolve (base target : String) : String := String.ofList (join (walk base.toList target.toList).reverse)

end Spreadsheet.Book.PartPath
