/-!
# Bytes and characters

A byte string is read as a list of symbols: the characters that are encoded in it, and groups of bytes that
encode none. A group holds the longest beginning of a well-formed sequence, so it ends before the next byte
that can begin a character, and no symbol reaches across an ASCII byte.

* `encode`: the bytes of a text.
* `decode`: the symbols of a byte string; `strict` and `lossy` make text of them.
-/

set_option autoImplicit false

namespace Spreadsheet

abbrev Bytes := List UInt8

namespace Text.Utf8

def encodeChar (c : Char) : Bytes :=
  let n := c.toNat
  if n < 0x80 then [UInt8.ofNat n]
  else if n < 0x800 then [UInt8.ofNat (0xC0 + n / 64), UInt8.ofNat (0x80 + n % 64)]
  else if n < 0x10000 then
    [UInt8.ofNat (0xE0 + n / 4096), UInt8.ofNat (0x80 + n / 64 % 64), UInt8.ofNat (0x80 + n % 64)]
  else
    [UInt8.ofNat (0xF0 + n / 262144), UInt8.ofNat (0x80 + n / 4096 % 64), UInt8.ofNat (0x80 + n / 64 % 64),
      UInt8.ofNat (0x80 + n % 64)]

def encodeChars (s : List Char) : Bytes := s.flatMap encodeChar

def encode (s : String) : Bytes := encodeChars s.toList

/-- What stands next in a byte string. -/
inductive Symbol where
  | char (c : Char)
  | broken (bytes : Bytes)
  deriving DecidableEq, Repr

def Symbol.width : Symbol → Nat
  | .char c => (encodeChar c).length
  | .broken bytes => bytes.length

def isContinuation (b : UInt8) : Bool := 0x80 ≤ b && b ≤ 0xBF

/-- Whether `b` may follow the leading byte `lead` of a sequence of three or four bytes: it continues a
character that is not written too long, is no surrogate and is not above the last code point. -/
def isSecond (lead b : UInt8) : Bool :=
  if lead == 0xE0 then 0xA0 ≤ b && b ≤ 0xBF
  else if lead == 0xED then 0x80 ≤ b && b ≤ 0x9F
  else if lead == 0xF0 then 0x90 ≤ b && b ≤ 0xBF
  else if lead == 0xF4 then 0x80 ≤ b && b ≤ 0x8F
  else isContinuation b

/-- The code point of a sequence, from the bits of its leading byte and its other bytes. -/
def codePoint (lead : Nat) (others : Bytes) : Nat :=
  others.foldl (fun n b => 64 * n + (b.toNat - 0x80)) lead

def complete (lead : Nat) (others : Bytes) : Symbol := .char (Char.ofNat (codePoint lead others))

/-- The first symbol of a byte string that begins with `lead`, and what follows it. -/
def first (lead : UInt8) (rest : Bytes) : Symbol × Bytes :=
  if lead < 0x80 then (.char (Char.ofNat lead.toNat), rest)
  else if 0xC2 ≤ lead && lead ≤ 0xDF then
    match rest with
    | b :: more => if isContinuation b then (complete (lead.toNat - 0xC0) [b], more) else (.broken [lead], rest)
    | [] => (.broken [lead], rest)
  else if 0xE0 ≤ lead && lead ≤ 0xEF then
    match rest with
    | b :: more =>
      if isSecond lead b then
        match more with
        | c :: more' =>
          if isContinuation c then (complete (lead.toNat - 0xE0) [b, c], more') else (.broken [lead, b], more)
        | [] => (.broken [lead, b], more)
      else (.broken [lead], rest)
    | [] => (.broken [lead], rest)
  else if 0xF0 ≤ lead && lead ≤ 0xF4 then
    match rest with
    | b :: more =>
      if isSecond lead b then
        match more with
        | c :: more' =>
          if isContinuation c then
            match more' with
            | d :: more'' =>
              if isContinuation d then (complete (lead.toNat - 0xF0) [b, c, d], more'')
              else (.broken [lead, b, c], more')
            | [] => (.broken [lead, b, c], more')
          else (.broken [lead, b], more)
        | [] => (.broken [lead, b], more)
      else (.broken [lead], rest)
    | [] => (.broken [lead], rest)
  else (.broken [lead], rest)

theorem first_length (lead : UInt8) (rest : Bytes) : (first lead rest).2.length ≤ rest.length := by
  unfold first
  repeat' split
  all_goals simp only [List.length_cons]
  all_goals omega

def decode : Bytes → List Symbol
  | [] => []
  | lead :: rest => (first lead rest).1 :: decode (first lead rest).2
termination_by s => s.length
decreasing_by
  have := first_length lead rest
  simp only [List.length_cons]
  omega

/-- Why symbols are no text: the place of the first bytes that encode no character, and their number. Bytes at the
very end may be an unfinished character. -/
structure Fault where
  index : Nat
  width : Nat
  unfinished : Bool
  deriving DecidableEq, Repr

/-- The text of symbols that are all characters; the first one stands at the place `index`. -/
def strictFrom (index : Nat) : List Symbol → Except Fault (List Char)
  | [] => .ok []
  | .char c :: rest => (strictFrom (index + (Symbol.char c).width) rest).map (c :: ·)
  | .broken bytes :: rest =>
    .error ⟨index, bytes.length, rest.isEmpty && bytes.any fun b => 0xC2 ≤ b && b ≤ 0xF4⟩

def strict (s : List Symbol) : Except Fault (List Char) := strictFrom 0 s

/-- The text of symbols, with one replacement character for each group of bytes that encodes none. -/
def lossy (s : List Symbol) : List Char :=
  s.map fun
    | .char c => c
    | .broken _ => '\uFFFD'

end Text.Utf8

end Spreadsheet
