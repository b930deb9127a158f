import Spreadsheet.Archive.Bits

/-!
# Prefix codes

A prefix code writes each symbol as a word of bits, and no word begins another. A code is given by the length of
each symbol's word: words of one length are consecutive numbers in the order of their symbols, and shorter words
come first.

* `words`: the words that lengths stand for.
* `Tree`: a code as a tree; `Tree.read?` follows the bits of a word from the root.
* `ofLengths?`: the tree of lengths that leave no word unused; only a trivial code may leave some.
-/

set_option autoImplicit false

namespace Spreadsheet.Archive.PrefixCode

/-- The longest word. -/
def maxLength : Nat := 15

/-- The number of the longest words that begin with a word of the given length. -/
def share (length : Nat) : Nat := Nat.pow 2 (maxLength - length)

def space : Nat := share 0

abbrev Word := Bits × Nat

def wordOf (width n : Nat) : Bits := (Bits.numeral width n).reverse

def symbolsOf (lengths : List Nat) (length : Nat) : List Nat :=
  lengths.zipIdx.filterMap fun (l, symbol) => if l = length then some symbol else none

/-- The words of symbols, given with the lengths of their words from the shortest on. The words divide a space
of 32768 places, of which those before `start` are taken. -/
def assign (start : Nat) : List (Nat × Nat) → List Word
  | [] => []
  | (length, symbol) :: rest =>
    (wordOf length (start / share length), symbol) :: assign (start + share length) rest

/-- The symbols in use with the lengths of their words, the shortest first. -/
def used (lengths : List Nat) : List (Nat × Nat) :=
  (List.range maxLength).flatMap fun i => (symbolsOf lengths (i + 1)).map fun symbol => (i + 1, symbol)

def words (lengths : List Nat) : List Word := assign 0 (used lengths)

def weight (lengths : List Nat) : Nat :=
  (used lengths).foldr (fun w n => share w.1 + n) 0

/-- A code as a tree: a leaf is the end of a word. -/
inductive Tree where
  | empty
  | leaf (symbol : Nat)
  | node (zero one : Tree)
  deriving Repr, Inhabited

namespace Tree

def child : Tree → Bool → Tree
  | node zero _, false => zero
  | node _ one, true => one
  | _, _ => empty

def insert (symbol : Nat) : Bits → Tree → Tree
  | [], _ => leaf symbol
  | false :: word, t => node (insert symbol word (t.child false)) (t.child true)
  | true :: word, t => node (t.child false) (insert symbol word (t.child true))

def ofWords (ws : List Word) : Tree := ws.foldl (fun t w => t.insert w.2 w.1) empty

/-- The symbol whose word the bits begin with, and the bits after it. -/
def read? : Tree → Bits → Option (Nat × Bits)
  | leaf symbol, bits => some (symbol, bits)
  | node zero one, b :: bits => if b then one.read? bits else zero.read? bits
  | _, _ => none

theorem read?_append {t : Tree} {word rest : Bits} {symbol : Nat} (more : Bits)
    (h : t.read? word = some (symbol, rest)) : t.read? (word ++ more) = some (symbol, rest ++ more) := by
  induction t generalizing word with
  | empty => simp [read?] at h
  | leaf s =>
    simp only [read?, Option.some.injEq, Prod.mk.injEq] at h ⊢
    exact ⟨h.1, by rw [h.2]⟩
  | node zero one ihz iho =>
    cases word with
    | nil => simp [read?] at h
    | cons b word =>
      cases b
      · simpa [read?] using ihz (by simpa [read?] using h)
      · simpa [read?] using iho (by simpa [read?] using h)

end Tree

/-- Whether a code has no words, or a single one of one bit. -/
def isTrivial (lengths : List Nat) : Bool :=
  match used lengths with
  | [] => true
  | [(length, _)] => length == 1
  | _ => false

/-- The tree of the code that lengths stand for. The words have to take all places; only a trivial code may leave
places free. -/
def ofLengths? (lengths : List Nat) : Option Tree :=
  if weight lengths = space ∨ isTrivial lengths then some (.ofWords (words lengths)) else none

def complete? (lengths : List Nat) : Option Tree :=
  if weight lengths = space then some (.ofWords (words lengths)) else none

end Spreadsheet.Archive.PrefixCode
