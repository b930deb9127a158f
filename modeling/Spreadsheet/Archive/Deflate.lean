import Spreadsheet.Archive.PrefixCode

/-!
# Compressed payloads

A payload is a row of blocks. A block holds bytes as they are, or tokens in prefix codes: single bytes, and
copies of bytes that stand some distance before. The codes of a block are the fixed ones of the format or are
described at its beginning.

* `Token`, `expand`: the tokens and the bytes that they stand for.
* `lengthSpans`, `distanceSpans`: the ranges of numbers that one symbol stands for.
* `inflate?`: the contents of a payload. What follows the last block is passed over.
-/

set_option autoImplicit false

namespace Spreadsheet.Archive

inductive Token where
  | literal (b : UInt8)
  | copy (length distance : Nat)
  deriving DecidableEq, Repr

/-- The byte at a distance before the end of contents. Before the first byte stand zeros. -/
def byteBefore (distance : Nat) (out : Array UInt8) : UInt8 :=
  if distance ≤ out.size then out.getD (out.size - distance) 0 else 0

/-- Contents after a copy of bytes that stand at a distance before the end, which may be bytes of the copy itself. -/
def copyBack (distance : Nat) : Nat → Array UInt8 → Array UInt8
  | 0, out => out
  | length + 1, out => copyBack distance length (out.push (byteBefore distance out))

def Token.append (out : Array UInt8) : Token → Array UInt8
  | .literal b => out.push b
  | .copy length distance => copyBack distance length out

def expand (tokens : List Token) : Bytes := (tokens.foldl Token.append #[]).toList

namespace Deflate

/-! ## Symbols -/

/-- A range of numbers: its least number, and the width of the field that tells the numbers of it apart. -/
structure Span where
  base : Nat
  width : Nat
  deriving Repr, Inhabited

def spansFrom (base : Nat) : List Nat → List Span
  | [] => []
  | width :: rest => ⟨base, width⟩ :: spansFrom (base + Nat.pow 2 width) rest

/-- The lengths of copies. The longest has a range of its own. -/
def lengthSpans : List Span :=
  spansFrom 3 [0, 0, 0, 0, 0, 0, 0, 0, 1, 1, 1, 1, 2, 2, 2, 2, 3, 3, 3, 3, 4, 4, 4, 4, 5, 5, 5, 5] ++ [⟨258, 0⟩]

def distanceSpans : List Span :=
  spansFrom 1 [0, 0, 0, 0, 1, 1, 2, 2, 3, 3, 4, 4, 5, 5, 6, 6, 7, 7, 8, 8, 9, 9, 10, 10, 11, 11, 12, 12, 13, 13]

/-- The symbol that ends a block. Lower ones are bytes, and those above it ranges of lengths. -/
def endOfBlock : Nat := 256

/-- The place of the last range that begins at or before a number. -/
def spanIndex (n : Nat) (spans : List Span) : Nat := (spans.takeWhile fun s => s.base ≤ n).length - 1

structure Codes where
  literals : PrefixCode.Tree
  distances : PrefixCode.Tree

/-- The lengths of the words for bytes, the end and lengths in the fixed codes. -/
def fixedLiteralLengths : List Nat :=
  List.replicate 144 8 ++ List.replicate 112 9 ++ List.replicate 24 7 ++ List.replicate 8 8

def fixedDistanceLengths : List Nat := List.replicate 32 5

def fixedCodes : Codes :=
  ⟨.ofWords (PrefixCode.words fixedLiteralLengths), .ofWords (PrefixCode.words fixedDistanceLengths)⟩

/-! ## Reading tokens -/

/-- A number of the range at a place, and the bits after its field. -/
def readSpan? (spans : List Span) (i : Nat) (bits : Bits) : Option (Nat × Bits) :=
  spans[i]?.bind fun s => (bits.take? s.width).map fun (extra, rest) => (s.base + extra, rest)

/-- A copy whose length has the given symbol, and the bits after it. -/
def readCopy? (codes : Codes) (symbol : Nat) (bits : Bits) : Option (Token × Bits) := do
  let (length, bits) ← readSpan? lengthSpans (symbol - endOfBlock - 1) bits
  let (symbol, bits) ← codes.distances.read? bits
  let (distance, bits) ← readSpan? distanceSpans symbol bits
  return (.copy length distance, bits)

/-- The tokens of a block, at most `limit` of them, and the bits after it. -/
def readTokens? (codes : Codes) : Nat → Bits → Option (List Token × Bits)
  | 0, _ => none
  | limit + 1, bits => do
    let (symbol, bits) ← codes.literals.read? bits
    if symbol < endOfBlock then
      let (tokens, bits) ← readTokens? codes limit bits
      return (.literal (UInt8.ofNat symbol) :: tokens, bits)
    else if symbol = endOfBlock then
      return ([], bits)
    else
      let (token, bits) ← readCopy? codes symbol bits
      let (tokens, bits) ← readTokens? codes limit bits
      return (token :: tokens, bits)

/-! ## The head of a block -/

/-- The order in which the lengths of the code for lengths are given. -/
def lengthOrder : List Nat := [16, 17, 18, 0, 8, 7, 9, 6, 10, 5, 11, 4, 12, 3, 13, 2, 14, 1, 15]

def readNumbers? (width : Nat) : Nat → Bits → Option (List Nat × Bits)
  | 0, bits => some ([], bits)
  | count + 1, bits => do
    let (n, bits) ← bits.take? width
    let (ns, bits) ← readNumbers? width count bits
    return (n :: ns, bits)

/-- A number that stands for a run of lengths: what is repeated, how often at least, and the width of the field
that tells how often more. The first one repeats the length before, if there is one. -/
def run? (symbol : Nat) (before : Option Nat) : Option (Nat × Nat × Nat) :=
  if symbol = 16 then before.map fun length => (length, 3, 2)
  else if symbol = 17 then some (0, 3, 3)
  else if symbol = 18 then some (0, 11, 7)
  else none

/-- Exactly `count` lengths after the given ones, which stand last first. A step takes at least one bit. -/
def readLengths? (code : PrefixCode.Tree) (count : Nat) : Nat → List Nat → Bits → Option (List Nat × Bits)
  | 0, _, _ => none
  | limit + 1, before, bits =>
    if before.length = count then some (before.reverse, bits)
    else if count < before.length then none
    else do
      let (symbol, bits) ← code.read? bits
      if symbol < 16 then readLengths? code count limit (symbol :: before) bits
      else
        let (length, least, width) ← run? symbol before.head?
        let (more, bits) ← bits.take? width
        readLengths? code count limit (List.replicate (least + more) length ++ before) bits

def readCodes? (bits : Bits) : Option (Codes × Bits) := do
  let (literals, bits) ← bits.take? 5
  let (distances, bits) ← bits.take? 5
  let (given, bits) ← bits.take? 4
  let (widths, bits) ← readNumbers? 3 (given + 4) bits
  if 29 < literals ∨ 29 < distances then none
  else
    let widthOf (symbol : Nat) : Nat := ((lengthOrder.zip widths).lookup symbol).getD 0
    let code ← PrefixCode.complete? ((List.range 19).map widthOf)
    let (lengths, bits) ← readLengths? code (literals + 257 + (distances + 1)) (bits.length + 1) [] bits
    let literalCode ← PrefixCode.ofLengths? (lengths.take (literals + 257))
    let distanceCode ← PrefixCode.ofLengths? (lengths.drop (literals + 257))
    return (⟨literalCode, distanceCode⟩, bits)

/-- A block of bytes as they are. It begins at a byte, with its size and the size inverted. -/
def readStored? (bits : Bits) : Option (List Token × Bits) := do
  let (size, bits) ← Bits.take? 16 (bits.drop (bits.length % 8))
  let (inverted, bits) ← bits.take? 16
  if size + inverted = 0xFFFF then
    let (bytes, bits) ← readNumbers? 8 size bits
    return (bytes.map fun n => .literal (UInt8.ofNat n), bits)
  else none

def readBlock? (kind : Nat) (bits : Bits) : Option (List Token × Bits) :=
  match kind with
  | 0 => readStored? bits
  | 1 => readTokens? fixedCodes (bits.length + 1) bits
  | 2 => (readCodes? bits).bind fun (codes, bits) => readTokens? codes (bits.length + 1) bits
  | _ => none

def readBlocks? : Nat → Bits → Option (List Token)
  | 0, _ => none
  | limit + 1, bits => do
    let (last, bits) ← bits.take? 1
    let (kind, bits) ← bits.take? 2
    let (tokens, bits) ← readBlock? kind bits
    if last = 1 then return tokens
    else
      let others ← readBlocks? limit bits
      return tokens ++ others

end Deflate

def inflate? (payload : Bytes) : Option Bytes :=
  (Deflate.readBlocks? (8 * payload.length + 1) (Bits.ofBytes payload)).map expand

end Spreadsheet.Archive
