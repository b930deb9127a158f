import Spreadsheet.Archive.OptimalCode
import Spreadsheet.Archive.Repeats

/-!
# Compressing contents

Contents are compressed into one block. Short contents are written in the fixed codes, longer ones in codes made
for them, which are described at the beginning of the block.

* `LengthSymbol`, `lengthSymbols`: the description of a code's lengths.
* `fixedBlock`, `describedBlock`: a block of tokens.
* `compressed?`: the payload of contents, if it is shorter than they are.
-/

set_option autoImplicit false

namespace Spreadsheet.Archive

namespace Deflate

/-! ## Tokens -/

/-- The symbol of the code for bytes, the end and lengths that a token begins with. -/
def symbolOf : Token → Nat
  | .literal b => b.toNat
  | .copy length _ => endOfBlock + 1 + spanIndex length lengthSpans

def distanceSymbolOf? : Token → Option Nat
  | .literal _ => none
  | .copy _ distance => some (spanIndex distance distanceSpans)

def wordFor (ws : List PrefixCode.Word) (symbol : Nat) : Bits :=
  ((ws.find? fun w => w.2 == symbol).map (·.1)).getD []

/-- The field that tells a number apart from the others of its range. -/
def spanBits (spans : List Span) (n : Nat) : Bits :=
  let span := spans.getD (spanIndex n spans) ⟨0, 0⟩
  Bits.numeral span.width (n - span.base)

structure Words where
  literals : List PrefixCode.Word
  distances : List PrefixCode.Word

def tokenBits (ws : Words) (t : Token) : Bits :=
  match t with
  | .literal _ => wordFor ws.literals (symbolOf t)
  | .copy length distance =>
    wordFor ws.literals (symbolOf t) ++ spanBits lengthSpans length ++
      (wordFor ws.distances (spanIndex distance distanceSpans) ++ spanBits distanceSpans distance)

def bodyBits (ws : Words) (ts : List Token) : Bits := ts.flatMap (tokenBits ws) ++ wordFor ws.literals endOfBlock

def headBits (kind : Nat) : Bits := true :: Bits.numeral 2 kind

/-! ## The fixed codes -/

def fixedWords : Words := ⟨PrefixCode.words fixedLiteralLengths, PrefixCode.words fixedDistanceLengths⟩

def fixedBlock (ts : List Token) : Bits := headBits 1 ++ bodyBits fixedWords ts

/-! ## Described codes -/

/-- A symbol of the code for lengths, and the field after it. -/
structure LengthSymbol where
  symbol : Nat
  width : Nat
  extra : Nat

def LengthSymbol.single (length : Nat) : LengthSymbol := ⟨length, 0, 0⟩

/-- A run of lengths zero: in pieces of at most 138. -/
def zeroRun (count : Nat) : List LengthSymbol :=
  List.replicate (count / 138) ⟨18, 7, 127⟩ ++
    (let rest := count % 138
    if rest < 3 then List.replicate rest (.single 0)
    else if rest ≤ 10 then [⟨17, 3, rest - 3⟩]
    else [⟨18, 7, rest - 11⟩])

/-- A run of equal lengths: one, and the others in pieces of at most six. -/
def lengthRun (length count : Nat) : List LengthSymbol :=
  .single length :: (List.replicate ((count - 1) / 6) ⟨16, 2, 3⟩ ++
    (let rest := (count - 1) % 6
    if rest < 3 then List.replicate rest (.single length) else [⟨16, 2, rest - 3⟩]))

/-- The symbols of lengths. `count` more of `length` stand before them. -/
def lengthSymbolsFrom (length count : Nat) : List Nat → List LengthSymbol
  | [] => close
  | next :: rest =>
    if next = length then lengthSymbolsFrom length (count + 1) rest else close ++ lengthSymbolsFrom next 1 rest
where
  close : List LengthSymbol :=
    if count = 0 then [] else if length = 0 then zeroRun count else lengthRun length count

def lengthSymbols (lengths : List Nat) : List LengthSymbol := lengthSymbolsFrom 0 0 lengths

/-- Numbers without the zeros at the end, but at least `least` of them. -/
def trimmed (least : Nat) (ns : List Nat) : List Nat :=
  ns.take (max least (ns.reverse.dropWhile (· = 0)).length)

def countsOf (n : Nat) (symbols : List Nat) : List Nat :=
  (symbols.foldl (fun counts symbol => counts.modify symbol (· + 1)) (Array.replicate n 0)).toList

def descriptionBits (literals distances : List Nat) : Bits :=
  let symbols := lengthSymbols (literals ++ distances)
  let widths := PrefixCode.optimalLengths 7 (countsOf 19 (symbols.map (·.symbol)))
  let ws := PrefixCode.words widths
  let given := trimmed 4 (lengthOrder.map fun symbol => widths.getD symbol 0)
  Bits.numeral 5 (literals.length - 257) ++ Bits.numeral 5 (distances.length - 1) ++
    Bits.numeral 4 (given.length - 4) ++ given.flatMap (Bits.numeral 3) ++
    symbols.flatMap fun s => wordFor ws s.symbol ++ Bits.numeral s.width s.extra

def describedBlock (ts : List Token) : Bits :=
  let literals := trimmed 257 (PrefixCode.optimalLengths 15 (countsOf 286 (endOfBlock :: ts.map symbolOf)))
  let distances := trimmed 1 (PrefixCode.optimalLengths 15 (countsOf 30 (ts.filterMap distanceSymbolOf?)))
  headBits 2 ++ descriptionBits literals distances ++
    bodyBits ⟨PrefixCode.words literals, PrefixCode.words distances⟩ ts

/-- Contents shorter than this are written in the fixed codes. -/
def describedFrom : Nat := 48

/-- Contents up to this size are compressed whatever little is gained. -/
def tiny : Nat := 32

def block (contents : Bytes) : Bits :=
  if contents.length < describedFrom then fixedBlock (tokens contents) else describedBlock (tokens contents)

def spares (size : Nat) (block : Bits) : Bool :=
  (block.length + 7) / 8 < size && (size ≤ tiny || block.length / 8 + 1 < size)

end Deflate

/-- The payload of contents, if it is shorter than they are. It is kept only if the contents can be read back from
it. -/
def compressed? (contents : Bytes) : Option Bytes :=
  let block := Deflate.block contents
  if Deflate.spares contents.length block then
    let payload := Bits.toBytes block
    if inflate? payload = some contents then some payload else none
  else none

theorem inflate?_of_compressed? {contents payload : Bytes} (h : compressed? contents = some payload) :
    inflate? payload = some contents := by
  simp only [compressed?] at h
  split at h
  · split at h
    next hread => exact Option.some.inj h ▸ hread
    next => simp at h
  · simp at h

end Spreadsheet.Archive
