import Spreadsheet.Text.CaseData

/-!
# Letter case

* `asciiUpper`, `sameIgnoringAsciiCase`: case folding of the letters A to Z alone, for names that are
  keywords.
* `lower`: lower-casing of any text. A capital I with a dot becomes two characters, and a capital sigma at
  the end of a word takes its final form.
-/

set_option autoImplicit false

namespace Spreadsheet.Text

/-- One of the letters A to Z in upper case; every other character is kept. -/
def asciiUpper (c : Char) : Char :=
  if 'a' ≤ c ∧ c ≤ 'z' then Char.ofNat (c.toNat - 32) else c

def upperName (s : String) : String := String.ofList (s.toList.map asciiUpper)

def sameIgnoringAsciiCase (s t : String) : Bool :=
  s.toList.map asciiUpper == t.toList.map asciiUpper

def inRanges (ranges : List (Nat × Nat)) (n : Nat) : Bool :=
  ranges.any fun (first, last) => first ≤ n && n ≤ last

def isCased (c : Char) : Bool := inRanges casedRanges c.toNat

/-- A character that does not end a word for the choice of the final sigma. -/
def isPassedOver (c : Char) : Bool := inRanges passedRanges c.toNat

def lowerCode (n : Nat) : Nat :=
  match caseRuns.find? fun (first, last, stride, _) => first ≤ n && n ≤ last && (n - first) % stride == 0 with
  | some (_, _, _, delta) => ((n : Int) + delta).toNat
  | none => n

/-- Whether the nearest character that is not passed over is a cased letter. -/
def meetsCased (s : List Char) : Bool := ((s.dropWhile isPassedOver).head?).any isCased

/-- The lower-case form of `c` between the text `before` it, nearest character first, and the text `after` it.
A sigma is final when a cased letter precedes it and none follows. -/
def lowerAt (before : List Char) (c : Char) (after : List Char) : List Char :=
  if c = 'Σ' then (if meetsCased before && !meetsCased after then ['ς'] else ['σ'])
  else if c = 'İ' then ['i', '\u0307']
  else [Char.ofNat (lowerCode c.toNat)]

def lowerAfter (before : List Char) : List Char → List Char
  | [] => []
  | c :: rest => lowerAt before c rest ++ lowerAfter (c :: before) rest

def lower (s : List Char) : List Char := lowerAfter [] s

end Spreadsheet.Text
