import Spreadsheet.Markup.Error
import Spreadsheet.Markup.Escape
import Spreadsheet.Markup.Node
import Spreadsheet.Text.Blank
import Spreadsheet.Text.Case
import Spreadsheet.Text.Utf8

/-!
# Tokens

A part is a sequence of tokens: tags, character data, and the constructs that begin with `<!` and `<?`. The
bounds of a token are found before its characters are decoded, and a fault ends the sequence.

* `next`: the first token of a part and what follows it.
* `scan`: all tokens up to the end of the part or to a fault.
-/

set_option autoImplicit false

namespace Spreadsheet.Markup

open Text.Utf8

/-- A part as it is read: characters, and bytes that encode none. -/
abbrev Source := List Symbol

inductive Token where
  | startTag (tag : Tag)
  | emptyTag (tag : Tag)
  | endTag (name : String)
  | leaf (node : Node)

/-- The text of a source in which every byte belongs to a character. -/
def decoded (s : Source) : Except Error String :=
  match strict s with
  | .ok cs => .ok (String.ofList cs)
  | .error f => .error (.undecodable f)

def resolved (s : Source) : Except Error String :=
  match strict s with
  | .ok cs =>
    match unescape cs with
    | .ok cs => .ok (String.ofList cs)
    | .error e => .error (.badReference e)
  | .error f => .error (.undecodable f)

def byteLength (s : Source) : Nat := s.foldr (fun x n => x.width + n) 0

def isSpace : Symbol → Bool
  | .char c => c == ' ' || c == '\t' || c == '\n' || c == '\r'
  | .broken _ => false

def isChar (c : Char) (x : Symbol) : Bool := x == .char c

/-! ## Bounds -/

/-- A source up to a character, and what follows that character. Without the character it is all of it. -/
def upTo (c : Char) (s : Source) : Source × Source :=
  (s.takeWhile fun x => !isChar c x, (s.dropWhile fun x => !isChar c x).tail)

/-- The inside of a tag up to the first `>` outside quotes, and what follows. -/
def tagBody (quote : Option Char) : Source → Source × Source
  | [] => ([], [])
  | x :: s =>
    match quote with
    | some q =>
      let (body, rest) := tagBody (if isChar q x then none else some q) s
      (x :: body, rest)
    | none =>
      if isChar '>' x then ([], s)
      else
        let quote := if isChar '"' x then some '"' else if isChar '\'' x then some '\'' else none
        let (body, rest) := tagBody quote s
        (x :: body, rest)

/-- What follows a word at the beginning of a source, in any case of its letters. -/
def afterWord? : List Char → Source → Option Source
  | [], s => some s
  | c :: word, .char d :: s => if Text.asciiUpper d = c then afterWord? word s else none
  | _ :: _, _ => none

/-- A source up to the first occurrence of three closing characters, of which the first two are equal, and what
follows them. -/
def upToClosing? (twice : Char) : Source → Option (Source × Source)
  | x :: y :: z :: s =>
    if isChar twice x && isChar twice y && isChar '>' z then some ([], s)
    else (upToClosing? twice (y :: z :: s)).map fun (body, rest) => (x :: body, rest)
  | _ => none

/-- A source up to the first `>` that closes as many `<` as are open, given how many are open, and what
follows. -/
def upToBalanced? (opened : Int) : Source → Option (Source × Source)
  | [] => none
  | x :: s =>
    if isChar '>' x && opened == 0 then some ([], s)
    else
      let opened := if isChar '<' x then opened + 1 else if isChar '>' x then opened - 1 else opened
      (upToBalanced? opened s).map fun (body, rest) => (x :: body, rest)

/-! ## Attributes -/

/-- One attribute as written, and what follows it. -/
structure RawAttribute where
  key : Source
  value : Source
  rest : Source

/-- The value after an equals sign. Positions are told by `place`, given what follows them. -/
def attributeValue (place : Source → Nat) (s : Source) : Except AttributeError (Source × Source) :=
  match s.dropWhile isSpace with
  | [] => .error (.expectedValue (place []))
  | x :: s =>
    if x = .char '"' ∨ x = .char '\'' then
      match s.dropWhile fun y => y ≠ x with
      | _ :: rest => .ok (s.takeWhile fun y => y ≠ x, rest)
      | [] => .error (.expectedQuote (place []) (if x = .char '"' then '"' else '\''))
    else .error (.unquotedValue (place (x :: s)))

abbrev SeenKey := Source × Source

/-- The attribute that begins with the symbol `x`; a key that has been seen may not come again. -/
def rawAttribute (place : Source → Nat) (seen : List SeenKey) (x : Symbol) (s : Source) :
    Except AttributeError RawAttribute :=
  let inKey (y : Symbol) : Bool := !(isChar '=' y || isSpace y)
  let key := x :: s.takeWhile inKey
  match (s.dropWhile inKey).dropWhile isSpace with
  | .char '=' :: rest =>
    match seen.find? fun k => k.1 == key with
    | some k => .error (.duplicated (place (x :: s)) (place k.2))
    | none =>
      match attributeValue place rest with
      | .ok (value, rest) => .ok ⟨key, value, rest⟩
      | .error e => .error e
  | rest => .error (.expectedEq (place rest))

/-- The attributes of a tag, at most `limit`. An attribute is decoded before the next one is looked for. -/
def attributes (place : Source → Nat) (seen : List SeenKey) :
    Nat → Source → Except Error (List (String × String))
  | 0, _ => .ok []
  | limit + 1, s =>
    match s.dropWhile isSpace with
    | [] => .ok []
    | x :: s =>
      match rawAttribute place seen x s with
      | .error e => .error (.attribute e)
      | .ok a => do
        let key ← decoded a.key
        let value ← resolved a.value
        let others ← attributes place ((a.key, x :: s) :: seen) limit a.rest
        return (key, value) :: others

def tagOf (body : Source) : Except Error Tag := do
  let name ← decoded (body.takeWhile fun x => !isSpace x)
  let rest := body.dropWhile fun x => !isSpace x
  return ⟨name, ← attributes (fun s => byteLength body - byteLength s) [] rest.length rest⟩

/-! ## Tokens -/

/-- The token of an opening tag with the given inside; a `/` at its end closes the element. -/
def openingToken (body : Source) : Except Error Token :=
  if body.getLast? = some (.char '/') then (tagOf body.dropLast).map .emptyTag else (tagOf body).map .startTag

def closingToken (body : Source) : Except Error Token :=
  let name := (body.reverse.dropWhile isSpace).reverse
  (decoded (if name.isEmpty then body else name)).map .endTag

/-- The token of a `<?` with the given inside: a declaration when it begins with `xml` and a blank. -/
def questionToken (body : Source) : Except Error Token :=
  if body.getLast? = some (.char '?') ∧ body.dropLast ≠ [] then
    let body := body.dropLast
    let isDeclaration := match body with
      | .char 'x' :: .char 'm' :: .char 'l' :: y :: _ => isSpace y
      | _ => false
    (decoded body).map fun s => .leaf (if isDeclaration then .declaration s else .instruction s)
  else .error (.unexpectedEnd .instruction)

def doctypeToken (body : Source) : Except Error Token :=
  match body.dropWhile isSpace with
  | [] => .error .emptyDoctype
  | body => (decoded body).map fun s => .leaf (.doctype (Text.trim s))

/-- What follows in a source: a token and the rest, or nothing. -/
abbrev Found := Except Error (Option (Token × Source))

def found (token : Except Error Token) (rest : Source) : Found := token.map fun t => some (t, rest)

def firstByte : Symbol → Char
  | .char c => leading c
  | .broken bytes => Char.ofNat ((bytes.map (·.toNat)).headD 0)

def bang (s : Source) : Found :=
  match s with
  | .char '-' :: .char '-' :: s =>
    match upToClosing? '-' s with
    | some (body, rest) => found ((decoded body).map fun t => .leaf (.comment t)) rest
    | none => .error (.unexpectedEnd .comment)
  | .char '[' :: s =>
    match afterWord? ['C', 'D', 'A', 'T', 'A'] s with
    | some (.char '[' :: s) =>
      match upToClosing? ']' s with
      | some (body, rest) => found ((decoded body).map fun t => .leaf (.cdata t)) rest
      | none => .error (.unexpectedEnd .cdata)
    | _ => .error (.unexpectedEnd .cdata)
  | [] => .error (.unexpectedEnd .bang)
  | x :: _ =>
    if x = .char '-' then .error (.unexpectedEnd .comment)
    else if x = .char 'D' ∨ x = .char 'd' then
      match (afterWord? ['D', 'O', 'C', 'T', 'Y', 'P', 'E'] s).bind (upToBalanced? 0) with
      | some (body, rest) => found (doctypeToken body) rest
      | none => .error (.unexpectedEnd .doctype)
    else .error (.unexpectedBang (firstByte x))

/-- A construct that begins with `<`, which has been taken. A `<` at the very end is passed over. -/
def markup (s : Source) : Found :=
  match s with
  | [] => .ok none
  | .char '!' :: s => bang s
  | .char '/' :: s => found (closingToken (upTo '>' s).1) (upTo '>' s).2
  | .char '?' :: s => found (questionToken (upTo '>' s).1) (upTo '>' s).2
  | s => found (openingToken (tagBody none s).1) (tagBody none s).2

/-- The first token of a source and what follows it, if anything stands there. -/
def next (s : Source) : Found :=
  match s with
  | [] => .ok none
  | x :: s' =>
    if isChar '<' x then markup s'
    else found ((resolved (s.takeWhile fun y => !isChar '<' y)).map fun t => .leaf (.text t))
      (s.dropWhile fun y => !isChar '<' y)

/-- The tokens of a source with what follows each of them, and the fault that ends them, if there is one. -/
structure Scan where
  tokens : List (Token × Source)
  fault : Option Error

def scanUpTo : Nat → Source → Scan
  | 0, _ => ⟨[], none⟩
  | limit + 1, s =>
    match next s with
    | .ok none => ⟨[], none⟩
    | .error e => ⟨[], some e⟩
    | .ok (some (token, rest)) =>
      let others := scanUpTo limit rest
      ⟨(token, rest) :: others.tokens, others.fault⟩

/-- All tokens of a source; a token takes at least one symbol. -/
def scan (s : Source) : Scan := scanUpTo s.length s

/-- A byte string as a source, without a byte order mark at its beginning. -/
def sourceOf (bytes : Bytes) : Source :=
  match decode bytes with
  | .char '\uFEFF' :: s => s
  | s => s

end Spreadsheet.Markup
