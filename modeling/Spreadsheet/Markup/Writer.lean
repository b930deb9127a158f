import Spreadsheet.Markup.Escape
import Spreadsheet.Markup.Node
import Spreadsheet.Text.Utf8

/-!
# Writing a tree

`Node.chars` is the markup of a tree, and `Node.charsBefore` writes it before other characters. An element without
children is written as one empty tag; everything but character data and attribute values is written as it stands.
-/

set_option autoImplicit false

namespace Spreadsheet.Markup

def attributeChars : List (String × String) → List Char
  | [] => []
  | (key, value) :: rest =>
    ' ' :: key.toList ++ '=' :: '"' :: escapeAttribute value.toList ++ '"' :: attributeChars rest

def enclosed (mark s close : String) : List Char := mark.toList ++ s.toList ++ close.toList

namespace Node

mutual

def chars : Node → List Char
  | document cs => charsOfAll cs
  | element t [] => '<' :: t.name.toList ++ attributeChars t.attributes ++ ['/', '>']
  | element t (c :: cs) =>
    '<' :: t.name.toList ++ attributeChars t.attributes ++ '>' :: (c.chars ++ charsOfAll cs) ++
      '<' :: '/' :: t.name.toList ++ ['>']
  | text s => escapeText s.toList
  | comment s => enclosed "<!--" s "-->"
  | cdata s => enclosed "<![CDATA[" s "]]>"
  | declaration s => enclosed "<?" s "?>"
  | instruction s => enclosed "<?" s "?>"
  | doctype s => enclosed "<!DOCTYPE " s ">"

def charsOfAll : List Node → List Char
  | [] => []
  | n :: rest => n.chars ++ charsOfAll rest

end

mutual

/-- The markup of a tree before other characters. Each character is written once, however deep it stands. -/
def charsBefore : Node → List Char → List Char
  | document cs, rest => charsOfAllBefore cs rest
  | element t [], rest => '<' :: t.name.toList ++ attributeChars t.attributes ++ '/' :: '>' :: rest
  | element t (c :: cs), rest =>
    '<' :: t.name.toList ++ attributeChars t.attributes ++
      '>' :: c.charsBefore (charsOfAllBefore cs ('<' :: '/' :: t.name.toList ++ '>' :: rest))
  | text s, rest => (text s).chars ++ rest
  | comment s, rest => (comment s).chars ++ rest
  | cdata s, rest => (cdata s).chars ++ rest
  | declaration s, rest => (declaration s).chars ++ rest
  | instruction s, rest => (instruction s).chars ++ rest
  | doctype s, rest => (doctype s).chars ++ rest

def charsOfAllBefore : List Node → List Char → List Char
  | [], rest => rest
  | n :: ns, rest => n.charsBefore (charsOfAllBefore ns rest)

end

mutual

theorem charsBefore_eq : (n : Node) → (rest : List Char) → n.charsBefore rest = n.chars ++ rest
  | document cs, rest => by rw [charsBefore, chars, charsOfAllBefore_eq cs]
  | element t [], rest => by
    rw [charsBefore, chars]
    simp only [List.append_assoc, List.cons_append, List.nil_append]
  | element t (c :: cs), rest => by
    rw [charsBefore, chars, charsBefore_eq c, charsOfAllBefore_eq cs]
    simp only [List.append_assoc, List.cons_append, List.nil_append]
  | text s, rest => by rw [charsBefore]
  | comment s, rest => by rw [charsBefore]
  | cdata s, rest => by rw [charsBefore]
  | declaration s, rest => by rw [charsBefore]
  | instruction s, rest => by rw [charsBefore]
  | doctype s, rest => by rw [charsBefore]

theorem charsOfAllBefore_eq : (ns : List Node) → (rest : List Char) →
    charsOfAllBefore ns rest = charsOfAll ns ++ rest
  | [], rest => by rw [charsOfAllBefore, charsOfAll, List.nil_append]
  | n :: ns, rest => by
    rw [charsOfAllBefore, charsOfAll, charsBefore_eq n, charsOfAllBefore_eq ns, List.append_assoc]

end

def markup (n : Node) : String := String.ofList (n.charsBefore [])

def bytes (n : Node) : Bytes := Text.Utf8.encodeChars (n.charsBefore [])

theorem markup_eq (n : Node) : n.markup = String.ofList n.chars := by
  rw [markup, charsBefore_eq, List.append_nil]

theorem bytes_eq (n : Node) : n.bytes = Text.Utf8.encodeChars n.chars := by
  rw [bytes, charsBefore_eq, List.append_nil]

end Node

end Spreadsheet.Markup
