import Spreadsheet.Markup.Error

/-!
# Character references

* `escapeText`, `escapeAttribute`: text as it is written between tags and inside double quotes. In an attribute
  the blanks other than a space are written as references, which a reader keeps as they are.
* `unescape`: text with its references resolved. Five names are known, and code points in decimal and in
  hexadecimal; an ampersand that begins no such reference is an error.
-/

set_option autoImplicit false

namespace Spreadsheet.Markup

open Text

def escapeTextChar (c : Char) : List Char :=
  if c = '&' then "&amp;".toList
  else if c = '<' then "&lt;".toList
  else if c = '>' then "&gt;".toList
  else [c]

def escapeAttributeChar (c : Char) : List Char :=
  if c = '"' then "&quot;".toList
  else if c = '\n' then "&#10;".toList
  else if c = '\r' then "&#13;".toList
  else if c = '\t' then "&#9;".toList
  else escapeTextChar c

def escapeText (s : List Char) : List Char := s.flatMap escapeTextChar

def escapeAttribute (s : List Char) : List Char := s.flatMap escapeAttributeChar

def decimalValue? (c : Char) : Option Nat := if '0' ≤ c ∧ c ≤ '9' then some (c.toNat - 48) else none

def hexValue? (c : Char) : Option Nat :=
  if '0' ≤ c ∧ c ≤ '9' then some (c.toNat - 48)
  else if 'a' ≤ c ∧ c ≤ 'f' then some (c.toNat - 87)
  else if 'A' ≤ c ∧ c ≤ 'F' then some (c.toNat - 55)
  else none

def leading (c : Char) : Char := Char.ofNat (((Utf8.encodeChar c).map (·.toNat)).headD 0)

/-- The value of digits after the number `n`, or the first character that is no digit. -/
def readDigitsFrom (base : Nat) (value? : Char → Option Nat) (n : Nat) : List Char → Except Char Nat
  | [] => .ok n
  | c :: s =>
    match value? c with
    | some d => readDigitsFrom base value? (base * n + d) s
    | none => .error (leading c)

def bytesOf (s : List Char) : Nat := (Utf8.encodeChars s).length

/-- The code point that a reference gives by number: at most seven decimal or six hexadecimal digits. No digits
count as zero. -/
def referenceCode : List Char → Except ReferenceError Nat
  | 'x' :: digits =>
    if 6 < bytesOf digits then .error .longHexadecimal
    else (readDigitsFrom 16 hexValue? 0 digits).mapError .badHexadecimal
  | digits =>
    if 7 < bytesOf digits then .error .longDecimal
    else (readDigitsFrom 10 decimalValue? 0 digits).mapError .badDecimal

def charOf? (n : Nat) : Option Char :=
  if h : n.isValidChar then some (Char.ofNatAux n h) else none

def named? (name : List Char) : Option Char :=
  if name = ['l', 't'] then some '<'
  else if name = ['g', 't'] then some '>'
  else if name = ['a', 'm', 'p'] then some '&'
  else if name = ['a', 'p', 'o', 's'] then some '\''
  else if name = ['q', 'u', 'o', 't'] then some '"'
  else none

/-- The character that the inside of a reference names. The ampersand stands at `start` and the semicolon at
`stop`. -/
def referenced (start stop : Nat) (name : List Char) : Except ReferenceError Char :=
  match name with
  | '#' :: code =>
    match referenceCode code with
    | .error e => .error e
    | .ok n =>
      if n = 0 then .error (.null start stop)
      else
        match charOf? n with
        | some c => .ok c
        | none => .error (.noCharacter n)
  | _ =>
    match named? name with
    | some c => .ok c
    | none => .error (.unknown (start + 1) stop (String.ofList name))

/-- The inside of a reference whose ampersand has been taken, and the text after its semicolon. Another
ampersand cannot stand inside. -/
def splitReference? : List Char → Option (List Char × List Char)
  | [] => none
  | c :: s =>
    if c = ';' then some ([], s)
    else if c = '&' then none
    else (splitReference? s).map fun (name, rest) => (c :: name, rest)

theorem length_lt_of_splitReference? {s name rest : List Char}
    (h : splitReference? s = some (name, rest)) : rest.length < s.length := by
  induction s generalizing name rest with
  | nil => cases h
  | cons c s ih =>
    rw [splitReference?] at h
    split at h
    · cases h
      simp
    · split at h
      · cases h
      · obtain ⟨⟨n, r⟩, hr, e⟩ := Option.map_eq_some_iff.mp h
        cases e
        exact Nat.lt_succ_of_lt (ih hr)

/-- Text with its references resolved. It stands at the place `offset` of a text of `size` bytes. -/
def unescapeFrom (size offset : Nat) : List Char → Except ReferenceError (List Char)
  | [] => .ok []
  | c :: s =>
    if c = '&' then
      match _h : splitReference? s with
      | none => .error (.unterminated offset size)
      | some (name, rest) =>
        let stop := offset + 1 + bytesOf name
        match referenced offset stop name with
        | .ok r => (unescapeFrom size (stop + 1) rest).map (r :: ·)
        | .error e => .error e
    else (unescapeFrom size (offset + (Utf8.encodeChar c).length) s).map (c :: ·)
termination_by s => s.length
decreasing_by
  · have := length_lt_of_splitReference? _h
    simp only [List.length_cons]
    omega
  · simp

def unescape (s : List Char) : Except ReferenceError (List Char) := unescapeFrom (bytesOf s) 0 s

end Spreadsheet.Markup
