import Spreadsheet.Value.Basic

/-!
# Criteria

The criterion of a conditional count or sum is a pattern when it is a text with a `*` or a `?` in it, and
otherwise a value that a cell must equal. A pattern applies to texts only: `*` stands for any run of characters,
`?` for exactly one, and every other character for itself. Where a `*` of the pattern meets a `*` of the text it
is taken for that character alone.

* `walk`: goes through pattern and text side by side up to a `*`, a difference or the end of the text.
* `matchAfterStar`: what follows a `*` is tried at every later place of the text in turn; a further `*` settles
  the part before it.
-/

set_option autoImplicit false

namespace Spreadsheet.Formula

inductive Criterion where
  | pattern (p : List Char)
  | equals (v : Value)

/-- How far a pattern goes along a text. -/
inductive Walk where
  /-- Up to the end of the text; the answer says whether the rest of the pattern can stand for nothing. -/
  | ended (matched : Bool)
  /-- Up to a `*`, with the pattern after it and the text from there on. -/
  | star (pattern text : List Char)
  /-- Up to a difference, or to the end of the pattern before that of the text. -/
  | stuck

def walk : List Char → List Char → Walk
  | p, [] => .ended (p.all (· == '*'))
  | [], _ :: _ => .stuck
  | c :: p, d :: text =>
    if c = '?' ∨ c = d then walk p text else if c = '*' then .star p (d :: text) else .stuck

theorem length_lt_of_walk_eq_star {pattern text p t : List Char} (h : walk pattern text = .star p t) :
    p.length < pattern.length := by
  induction pattern generalizing text with
  | nil => cases text <;> simp [walk] at h
  | cons c pattern ih =>
    cases text with
    | nil => simp [walk] at h
    | cons d text =>
      rw [walk] at h
      split at h
      · exact Nat.lt_succ_of_lt (ih h)
      · split at h
        · cases h
          simp
        · cases h

/-- Whether a pattern that follows a `*` matches an end of the text. -/
def matchAfterStar (pattern text : List Char) : Bool :=
  match _h : walk pattern text with
  | .ended matched => matched
  | .star p t => matchAfterStar p t
  | .stuck =>
    match text with
    | [] => false
    | _ :: rest => matchAfterStar pattern rest
termination_by (pattern.length, text.length)
decreasing_by
  · exact Prod.Lex.left _ _ (length_lt_of_walk_eq_star _h)
  · exact Prod.Lex.right _ (by simp)

def wildcardMatch (pattern text : List Char) : Bool :=
  match walk pattern text with
  | .ended matched => matched
  | .star p t => matchAfterStar p t
  | .stuck => false

def Criterion.ofValue : Value → Criterion
  | .text s => if s.toList.any fun c => c == '*' || c == '?' then .pattern s.toList else .equals (.text s)
  | v => .equals v

def Criterion.accepts : Criterion → Value → Bool
  | .pattern p, .text s => wildcardMatch p s.toList
  | .pattern _, _ => false
  | .equals expected, v => v.same expected

end Spreadsheet.Formula
