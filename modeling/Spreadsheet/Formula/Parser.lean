import Spreadsheet.Formula.Printer
import Spreadsheet.Text.Blank

/-!
# Reading a formula

`parse` reads the text of a formula, with or without a leading equals sign. From the weakest binding to the
strongest: comparisons, sums and joined texts, products, signs, operands. Each level is a function from the
remaining text to a formula and the text after it. Blanks may stand before every token.

An operand is tried as a function call, a parenthesis, a reference, a truth value, a number and a text, in this
order. Only a parenthesis or an argument of a call nests a whole formula, and each takes a character first, so
the length of the text bounds the nesting.
-/

set_option autoImplicit false

namespace Spreadsheet.Formula

open Grid Text

abbrev Parsed := Except Error (Expr × List Char)

def excerpt (s : List Char) : String := String.ofList (s.take 16)

def afterToken? : List Char → List Char → Option (List Char)
  | [], s => some s
  | t :: token, c :: s => if c = t then afterToken? token s else none
  | _ :: _, [] => none

def eat? (token : String) (s : List Char) : Option (List Char) := afterToken? token.toList (skipBlanks s)

/-! ## Tokens -/

/-- The inside of a quoted text whose opening quote has been taken, and the text after the closing quote. A
quote that is written twice stands for one. -/
def quoted? (mark : Char) : List Char → Option (List Char × List Char)
  | [] => none
  | [c] => if c = mark then some ([], []) else none
  | c :: d :: s =>
    if c = mark then
      if d = mark then (quoted? mark s).map fun (body, rest) => (mark :: body, rest) else some ([], d :: s)
    else (quoted? mark (d :: s)).map fun (body, rest) => (c :: body, rest)

def isFunctionStart (c : Char) : Bool := isLetter c || c == '_'

def isFunctionChar (c : Char) : Bool := isLetter c || Numeral.isDigit c || c == '_' || c == '.'

/-- The name of a function that a parenthesis follows directly, and the text after the parenthesis. -/
def callName? (s : List Char) : Option (List Char × List Char) :=
  if s.head?.any isFunctionStart then
    match s.dropWhile isFunctionChar with
    | '(' :: rest => some (s.takeWhile isFunctionChar, rest)
    | _ => none
  else none

def truth? (s : List Char) : Option (Bool × List Char) :=
  let word := s.takeWhile isNameChar
  if word = "TRUE".toList then some (true, s.dropWhile isNameChar)
  else if word = "FALSE".toList then some (false, s.dropWhile isNameChar)
  else none

/-- The digits at the beginning of a text after an optional sign, with the sign. -/
def signedDigits (s : List Char) : List Char × List Char :=
  match s with
  | '+' :: t => ('+' :: t.takeWhile Numeral.isDigit, t.dropWhile Numeral.isDigit)
  | '-' :: t => ('-' :: t.takeWhile Numeral.isDigit, t.dropWhile Numeral.isDigit)
  | t => (t.takeWhile Numeral.isDigit, t.dropWhile Numeral.isDigit)

/-- The exponent of a number, if there is a complete one, and the text after it. -/
def splitExponent (s : List Char) : List Char × List Char :=
  match s with
  | e :: t =>
    if (e = 'e' ∨ e = 'E') ∧ (signedDigits t).1.any Numeral.isDigit then
      (e :: (signedDigits t).1, (signedDigits t).2)
    else ([], s)
  | [] => ([], [])

/-- The point of a number with the digits after it, if there is one, and the text after them. -/
def splitFraction (s : List Char) : List Char × List Char :=
  match s with
  | '.' :: t => ('.' :: t.takeWhile Numeral.isDigit, t.dropWhile Numeral.isDigit)
  | _ => ([], s)

def number? (s : List Char) : Option (Float × List Char) :=
  let whole := s.takeWhile Numeral.isDigit
  let (fraction, rest) := splitFraction (s.dropWhile Numeral.isDigit)
  let (exponent, rest) := splitExponent rest
  (Number.readDecimal? (whole ++ fraction ++ exponent)).map fun x => (x, rest)

/-! ## References -/

abbrev Reference := Option String × Address

/-- An address after its qualifier. `start` is the text from the qualifier on, for messages. Without a sheet and
without an anchor, a text that has no letters or no digits in the right places is no reference. -/
def addressAfter (start : List Char) (sheet : Option String) (s : List Char) :
    Except Error (Option (Reference × List Char)) :=
  let (columnAnchored, s) := Address.splitAnchor s
  let letters := s.takeWhile isLetter
  let (rowAnchored, s) := Address.splitAnchor (s.dropWhile isLetter)
  let digits := s.takeWhile Numeral.isDigit
  if letters.isEmpty || digits.isEmpty then
    if sheet.isSome || columnAnchored || rowAnchored then .error (.malformedAddress (excerpt start))
    else .ok none
  else
    match Address.ofParts? columnAnchored letters rowAnchored digits with
    | some a => .ok (some ((sheet, a), s.dropWhile Numeral.isDigit))
    | none => .error (.malformedAddress (excerpt start))

/-- The sheet that a text without blanks before it names by a plain qualifier. An exclamation mark that begins
the operator `!=` is no qualifier. -/
def plainSheet? (s : List Char) : Option (List Char × List Char) :=
  if s.head?.any isNameStart then
    match s.dropWhile isNameChar with
    | '!' :: '=' :: _ => none
    | '!' :: rest => some (s.takeWhile isNameChar, rest)
    | _ => none
  else none

def reference (s : List Char) : Except Error (Option (Reference × List Char)) :=
  match skipBlanks s with
  | '\'' :: body =>
    match quoted? '\'' body with
    | some (name, '!' :: rest) => addressAfter ('\'' :: body) (some (String.ofList name)) rest
    | _ => .error (.malformedAddress (excerpt ('\'' :: body)))
  | start =>
    match plainSheet? start with
    | some (name, rest) => addressAfter start (some (String.ofList name)) rest
    | none => addressAfter start none start

/-- The sheet of a range whose ends are qualified with `a` and `b`. -/
def jointSheet (a b : Option String) : Except Error (Option String) :=
  match a, b with
  | some a, some b => if a = b then .ok (some a) else .error (.malformedRange (a ++ "!..:" ++ b ++ "!.."))
  | some a, none => .ok (some a)
  | none, b => .ok b

/-- A cell, or a range when a colon and a second reference follow. -/
def rangeTail (first : Reference) (s : List Char) : Parsed :=
  match eat? ":" s with
  | none => .ok (.cell first.1 first.2, s)
  | some rest => do
    match ← reference rest with
    | none => throw (.malformedRange (excerpt s))
    | some ((sheet, stop), rest) =>
      let sheet ← jointSheet first.1 sheet
      return (.range sheet first.2 stop, rest)

/-! ## Levels -/

/-- The arguments of a call and its closing parenthesis; at most `limit` arguments are read. -/
def arguments (formula : List Char → Parsed) (function : String) : Nat → List Char → Except Error (List Expr × List Char)
  | 0, _ => .error .missingClosingParen
  | limit + 1, s => do
    let (e, s) ← formula s
    match eat? ")" s with
    | some rest => return ([e], rest)
    | none =>
      match eat? "," s with
      | some rest =>
        let (es, rest) ← arguments formula function limit rest
        return (e :: es, rest)
      | none => if (skipBlanks s).isEmpty then throw .missingClosingParen else throw (.expectedComma function)

def callTail (formula : List Char → Parsed) (name s : List Char) : Parsed :=
  match eat? ")" s with
  | some rest => .ok (.call (String.ofList name) [], rest)
  | none => do
    let (args, rest) ← arguments formula (String.ofList name) (s.length + 1) s
    return (.call (String.ofList name) args, rest)

def literal (s : List Char) : Parsed :=
  match truth? s with
  | some (b, rest) => .ok (.truth b, rest)
  | none =>
    match number? s with
    | some (x, rest) => .ok (.number x, rest)
    | none =>
      match s with
      | '"' :: body =>
        match quoted? '"' body with
        | some (text, rest) => .ok (.text (String.ofList text), rest)
        | none => .error .unterminatedString
      | [] => .error (.unrecognizedTerminal "end of formula")
      | _ => .error (.unrecognizedTerminal (excerpt s))

def operand (formula : List Char → Parsed) (s : List Char) : Parsed :=
  let s := skipBlanks s
  match callName? s with
  | some (name, rest) => callTail formula name rest
  | none =>
    match eat? "(" s with
    | some rest => do
      let (e, rest) ← formula rest
      match eat? ")" rest with
      | some rest => return (e, rest)
      | none => throw .missingClosingParen
    | none => do
      match ← reference s with
      | some (first, rest) => rangeTail first rest
      | none => literal s

/-- An operand with signs before it, at most `limit`. A plus sign leaves no trace. -/
def signed (operand : List Char → Parsed) : Nat → List Char → Parsed
  | 0, s => operand s
  | limit + 1, s =>
    match eat? "-" s with
    | some rest => do
      let (e, rest) ← signed operand limit rest
      return (.negate e, rest)
    | none =>
      match eat? "+" s with
      | some rest => signed operand limit rest
      | none => operand s

/-- The first of the operators that stands next, and the text after it. -/
def operator? (s : List Char) : List (String × BinaryOp) → Option (BinaryOp × List Char)
  | [] => none
  | (token, op) :: others =>
    match eat? token s with
    | some rest => some (op, rest)
    | none => operator? s others

/-- Further operands of one level after `left`, at most `limit`, joined from the left. -/
def chain (operators : List (String × BinaryOp)) (operand : List Char → Parsed) :
    Nat → Expr → List Char → Parsed
  | 0, left, s => .ok (left, s)
  | limit + 1, left, s =>
    match operator? s operators with
    | none => .ok (left, s)
    | some (op, rest) => do
      let (right, rest) ← operand rest
      chain operators operand limit (.binary op left right) rest

/-- One level: an operand, then operators of the level with an operand after each. -/
def level (operators : List (String × BinaryOp)) (operand : List Char → Parsed) (s : List Char) :
    Parsed := do
  let (left, rest) ← operand s
  chain operators operand rest.length left rest

def products : List (String × BinaryOp) := [("*", .multiply), ("/", .divide)]

def sums : List (String × BinaryOp) := [("+", .add), ("-", .subtract), ("&", .concat)]

/-- The operators of comparisons; a longer one comes before one that it begins with. -/
def comparisons : List (String × BinaryOp) :=
  [("=", .equal), ("!=", .notEqual), ("<>", .notEqual), (">=", .greaterEqual), ("<=", .lessEqual),
    (">", .greater), ("<", .less)]

def factor (formula : List Char → Parsed) (s : List Char) : Parsed := signed (operand formula) s.length s

def levels (formula : List Char → Parsed) : List Char → Parsed :=
  level comparisons (level sums (level products (factor formula)))

def formula : Nat → List Char → Parsed
  | 0, _ => .error .missingClosingParen
  | depth + 1, s => levels (formula depth) s

def dropEquals : List Char → List Char
  | '=' :: s => s
  | s => s

def parseChars (s : List Char) : Except Error Expr := do
  let s := dropEquals (trimmed s)
  let (e, rest) ← formula (s.length + 1) s
  match skipBlanks rest with
  | [] => return e
  | rest => throw (.trailingInput (String.ofList rest))

def parse (s : String) : Except Error Expr := parseChars s.toList

end Spreadsheet.Formula
