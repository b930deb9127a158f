import Spreadsheet.Book.StringItem

/-!
# Escapes read one character after the other

A reader that takes one character after the other has taken an underscore, an `x` and some digits before it knows
whether they are an escape. If they are not, it gives them as they are and goes on behind them.

* `hexRun`: the digits that may belong to an escape.
* `scanEscapes`: a text with its escapes replaced.
* `decodeScanned`: the same for a string, which is only read if it has an underscore before an `x` somewhere.
-/

set_option autoImplicit false

namespace Spreadsheet.Book

open Markup

/-- The hexadecimal digits that a text begins with, at most `limit` of them, and the text after them. -/
def hexRun : Nat → List Char → List Char × List Char
  | limit + 1, c :: s =>
    if (hexValue? c).isSome then (c :: (hexRun limit s).1, (hexRun limit s).2) else ([], c :: s)
  | _, s => ([], s)

theorem hexRun_append (limit : Nat) (s : List Char) : (hexRun limit s).1 ++ (hexRun limit s).2 = s := by
  induction limit generalizing s with
  | zero => cases s <;> rfl
  | succ limit ih =>
    cases s with
    | nil => rfl
    | cons c s =>
      rw [hexRun]
      split
      · simp [ih s]
      · rfl

/-- The character that the digits of an escape name, if there are four of them and an underscore follows. -/
def closedChar? (digits rest : List Char) : Option Char :=
  if digits.length = 4 ∧ rest.head? = some '_' then namedChar? digits else none

theorem length_hexRun_le (limit : Nat) (s : List Char) : (hexRun limit s).2.length ≤ s.length := by
  have hlength := congrArg List.length (hexRun_append limit s)
  rw [List.length_append] at hlength
  omega

def scanEscapes (s : List Char) : List Char :=
  match s with
  | [] => []
  | '_' :: 'x' :: s =>
    match closedChar? (hexRun 4 s).1 (hexRun 4 s).2 with
    | some c => c :: scanEscapes (hexRun 4 s).2.tail
    | none => '_' :: 'x' :: ((hexRun 4 s).1 ++ scanEscapes (hexRun 4 s).2)
  | c :: s => c :: scanEscapes s
termination_by s.length
decreasing_by
  · have := length_hexRun_le 4 s
    simp only [List.length_tail, List.length_cons]
    omega
  · have := length_hexRun_le 4 s
    simp only [List.length_cons]
    omega
  · simp

def hasEscapeStart : List Char → Bool
  | [] => false
  | c :: s => (c == '_' && s.head? == some 'x') || hasEscapeStart s

/-- A string with its escapes replaced. One that cannot have any is taken as it is. -/
def decodeScanned (s : String) : String :=
  if hasEscapeStart s.toList then String.ofList (scanEscapes s.toList) else s

end Spreadsheet.Book
