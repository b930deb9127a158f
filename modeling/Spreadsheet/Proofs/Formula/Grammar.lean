import Spreadsheet.Formula.Parser

/-! # The grammar of formulas

Which texts are formulas, and of which tree, without saying how they are read.

* `IsNumeral`, `IsAddress`, `IsReference`: the words that stand for numbers and cells. No blank stands inside them,
  but for those in a quoted sheet's name.
* `IsFormula`: a formula of one of four levels. Level 0 has signs and operands, level 1 products, level 2 sums and
  joined texts, level 3 comparisons. Blanks may stand before every token.
* `IsOperand`, `AreArguments`: what stands between operators, and between the parentheses of a call. -/

set_option autoImplicit false

namespace Spreadsheet.Formula

open Grid Text

/-! ## Words -/

def AreBlanks (s : List Char) : Prop := ∀ c ∈ s, isBlank c = true

def AreDigits (s : List Char) : Prop := ∀ c ∈ s, Numeral.isDigit c = true

/-- An exponent, if there is one. -/
inductive IsExponent : List Char → Prop
  | none : IsExponent []
  | some {mark : Char} {sign digits : List Char} (hmark : mark = 'e' ∨ mark = 'E')
      (hsign : sign = [] ∨ sign = ['+'] ∨ sign = ['-']) (hdigits : AreDigits digits) (hne : digits ≠ []) :
      IsExponent (mark :: (sign ++ digits))

/-- Digits with an optional point and an optional exponent, and a digit before or after the point. -/
inductive IsNumeral : List Char → Prop
  | whole {digits exponent : List Char} (hdigits : AreDigits digits) (hne : digits ≠ [])
      (hexponent : IsExponent exponent) : IsNumeral (digits ++ exponent)
  | fraction {digits part exponent : List Char} (hdigits : AreDigits digits) (hpart : AreDigits part)
      (hne : digits ≠ [] ∨ part ≠ []) (hexponent : IsExponent exponent) :
      IsNumeral (digits ++ '.' :: (part ++ exponent))

/-- The letters of a column and the digits of a row that the grid has, each with an optional anchor mark before it. -/
inductive IsAddress : List Char → Address → Prop
  | mk {letters digits : List Char} {a : Address} (hletters : ∀ c ∈ letters, isLetter c = true) (hcolumn : letters ≠ [])
      (hdigits : AreDigits digits) (hrow : digits ≠ []) (hletter : lettersValue letters = a.column.toNat + 1)
      (hdigit : Numeral.valueFrom 0 digits = a.row.toNat) (h : a.OnGrid) :
      IsAddress (Address.anchorMark a.columnAnchored ++ letters ++ (Address.anchorMark a.rowAnchored ++ digits)) a

/-- What names the sheet of a reference: nothing, a plain name, or any name in quotes. -/
inductive IsQualifier : List Char → Option String → Prop
  | none : IsQualifier [] none
  | plain {sheet : String} (h : isPlainSheet sheet.toList = true) : IsQualifier (sheet.toList ++ ['!']) (some sheet)
  | quoted (sheet : String) : IsQualifier ('\'' :: doubled '\'' sheet.toList ++ ['\'', '!']) (some sheet)

inductive IsReference : List Char → Option String → Address → Prop
  | mk {qualifier address : List Char} {sheet : Option String} {a : Address} (hsheet : IsQualifier qualifier sheet)
      (haddress : IsAddress address a) : IsReference (qualifier ++ address) sheet a

/-- The sheet of a range, which one of its ends names, or both alike. -/
inductive Joins : Option String → Option String → Option String → Prop
  | first (sheet : Option String) : Joins sheet none sheet
  | second (sheet : Option String) : Joins none sheet sheet
  | both (sheet : String) : Joins (some sheet) (some sheet) (some sheet)

def truthChars (b : Bool) : List Char := if b then "TRUE".toList else "FALSE".toList

/-- A name that a call can have: a capital letter or an underscore, then capital letters, digits, underscores and
points. -/
def isFunctionName (s : String) : Bool := s.toList.head?.any isFunctionStart && s.toList.all isFunctionChar

def BinaryOp.spellings : BinaryOp → List String
  | .notEqual => ["<>", "!="]
  | op => [op.symbol]

/-! ## Formulas -/

mutual

/-- A formula of a level. Operators of one level associate to the left, and a plus sign leaves no trace. -/
inductive IsFormula : Nat → List Char → Expr → Prop
  | minus {b s : List Char} {e : Expr} (hb : AreBlanks b) (h : IsFormula 0 s e) :
      IsFormula 0 (b ++ '-' :: s) (.negate e)
  | plus {b s : List Char} {e : Expr} (hb : AreBlanks b) (h : IsFormula 0 s e) : IsFormula 0 (b ++ '+' :: s) e
  | operand {b s : List Char} {e : Expr} (hb : AreBlanks b) (h : IsOperand s e) : IsFormula 0 (b ++ s) e
  | single {j : Nat} {s : List Char} {e : Expr} (h : IsFormula j s e) : IsFormula (j + 1) s e
  | joined {j : Nat} {op : BinaryOp} {token : String} {b s t : List Char} {l r : Expr} (hop : op.strength + j = 3)
      (htoken : token ∈ op.spellings) (hb : AreBlanks b) (hl : IsFormula (j + 1) s l) (hr : IsFormula j t r) :
      IsFormula (j + 1) (s ++ (b ++ (token.toList ++ t))) (.binary op l r)

/-- An operand, without blanks before it. -/
inductive IsOperand : List Char → Expr → Prop
  | callEmpty {name : String} {b : List Char} (hname : isFunctionName name = true) (hb : AreBlanks b) :
      IsOperand (name.toList ++ '(' :: (b ++ [')'])) (.call name [])
  | call {name : String} {s : List Char} {args : List Expr} (hname : isFunctionName name = true)
      (h : AreArguments s args) : IsOperand (name.toList ++ '(' :: s) (.call name args)
  | parens {s b : List Char} {e : Expr} (h : IsFormula 3 s e) (hb : AreBlanks b) :
      IsOperand ('(' :: (s ++ (b ++ [')']))) e
  | cell {s : List Char} {sheet : Option String} {a : Address} (h : IsReference s sheet a) :
      IsOperand s (.cell sheet a)
  | range {s t b c : List Char} {first second sheet : Option String} {start stop : Address}
      (hfirst : IsReference s first start) (hb : AreBlanks b) (hc : AreBlanks c) (hsecond : IsReference t second stop)
      (hsheet : Joins first second sheet) : IsOperand (s ++ (b ++ ':' :: (c ++ t))) (.range sheet start stop)
  | truth (b : Bool) : IsOperand (truthChars b) (.truth b)
  | number {s : List Char} {x : Float} (h : IsNumeral s) (hx : Number.read? s = some x) : IsOperand s (.number x)
  | text (s : String) : IsOperand ('"' :: (doubled '"' s.toList ++ ['"'])) (.text s)

/-- The arguments of a call, at least one, with commas between them and the parenthesis after them. -/
inductive AreArguments : List Char → List Expr → Prop
  | last {s b : List Char} {e : Expr} (h : IsFormula 3 s e) (hb : AreBlanks b) :
      AreArguments (s ++ (b ++ [')'])) [e]
  | next {s b t : List Char} {e : Expr} {args : List Expr} (h : IsFormula 3 s e) (hb : AreBlanks b)
      (hrest : AreArguments t args) : AreArguments (s ++ (b ++ ',' :: t)) (e :: args)

end

end Spreadsheet.Formula
