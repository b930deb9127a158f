import Spreadsheet.Markup.Escape
import Spreadsheet.Markup.Node
import Spreadsheet.Text.Blank

/-!
# Texts in parts

A part holds a text as an item: one run of characters, or several runs with formats of their own. Characters that
markup cannot hold are written as `_xHHHH_`, where the digits name the character.

* `decodeEscapes`: text with each such sequence replaced by its character.
* `itemText`: the text of an item.
* `textElement`: a run for a text; blanks at its ends are marked to be kept.
-/

set_option autoImplicit false

namespace Spreadsheet.Book

open Markup

def namedChar? (digits : List Char) : Option Char :=
  (readDigitsFrom 16 hexValue? 0 digits).toOption.bind charOf?

/-- The character of the sequence that a text begins with, and the text after it. -/
def escape? : List Char → Option (Char × List Char)
  | '_' :: 'x' :: a :: b :: c :: d :: '_' :: rest => (namedChar? [a, b, c, d]).map fun e => (e, rest)
  | _ => none

theorem length_lt_of_escape? {s rest : List Char} {c : Char} (h : escape? s = some (c, rest)) :
    rest.length < s.length := by
  unfold escape? at h
  split at h
  · obtain ⟨e, _, he⟩ := Option.map_eq_some_iff.mp h
    cases he
    simp only [List.length_cons]
    omega
  · cases h

/-- Text with each sequence `_xHHHH_` replaced by the character it names, from left to right. -/
def decodeEscapesIn (s : List Char) : List Char :=
  match s with
  | [] => []
  | c :: s =>
    match _h : escape? (c :: s) with
    | some (e, rest) => e :: decodeEscapesIn rest
    | none => c :: decodeEscapesIn s
termination_by s.length
decreasing_by
  · exact length_lt_of_escape? _h
  · simp

/-- A string with each sequence `_xHHHH_` replaced by the character it names. -/
def decodeEscapes (s : String) : String := String.ofList (decodeEscapesIn s.toList)

/-- The characters of an item as they stand in the part. Notes on the pronunciation do not count. -/
def itemRuns : List Node → String
  | [] => ""
  | n :: rest =>
    (if n.isElement "t" then n.content
      else if n.isElement "r" then ((n.child? "t").map Node.content).getD ""
      else "") ++ itemRuns rest

def itemText (item : Node) : String := decodeEscapes (itemRuns item.children)

def textElement (s : String) : Node :=
  .element ⟨"t", if Text.hasEdgeBlank s then [("xml:space", "preserve")] else []⟩ [.text s]

def stringItem (s : String) : Node := .element (.named "si") [textElement s]

end Spreadsheet.Book
