import Spreadsheet.Markup.Token

/-!
# From tokens to a tree

A start tag opens an element, and the end tag of the innermost open element closes it. `build` puts the tokens of
a part together and `parse` reads a part. Nothing is dropped: blanks between tags are text.
-/

set_option autoImplicit false

namespace Spreadsheet.Markup

/-- A part while it is put together: the open elements, innermost first, with the children that each has so far,
and the finished nodes outside all elements. Children are kept last first. -/
structure Builder where
  opened : List (Tag × List Node)
  finished : List Node

namespace Builder

def add (b : Builder) (n : Node) : Builder :=
  match b.opened with
  | [] => { b with finished := n :: b.finished }
  | (tag, children) :: outer => { b with opened := (tag, n :: children) :: outer }

/-- Takes in a token of a part of `size` bytes, given what follows the token: messages tell the place after it. -/
def step (size : Nat) (b : Builder) (token : Token) (rest : Source) : Except Error Builder :=
  match token with
  | .startTag tag => .ok { b with opened := (tag, []) :: b.opened }
  | .emptyTag tag => .ok (b.add (.element tag []))
  | .leaf n => .ok (b.add n)
  | .endTag name =>
    match b.opened with
    | [] => .error (.unopened name (size - byteLength rest))
    | (tag, children) :: outer =>
      if tag.name = name then .ok (add { b with opened := outer } (.element tag children.reverse))
      else .error (.mismatched tag.name name (size - byteLength rest))

def run (size : Nat) (b : Builder) : List (Token × Source) → Except Error Builder
  | [] => .ok b
  | (token, rest) :: others =>
    match step size b token rest with
    | .ok b => b.run size others
    | .error e => .error e

end Builder

/-- The tree of a source. A wrong end tag is reported before a fault that comes after it. -/
def build (s : Source) : Except Error Node :=
  match Builder.run (byteLength s) ⟨[], []⟩ (scan s).tokens with
  | .error e => .error e
  | .ok b =>
    match (scan s).fault, b.opened with
    | some e, _ => .error e
    | none, (tag, _) :: _ => .error (.unclosed tag.name)
    | none, [] => .ok (.document b.finished.reverse)

def parse (bytes : Bytes) : Except Error Node := build (sourceOf bytes)

end Spreadsheet.Markup
