import Spreadsheet.Formula.Criterion
import Spreadsheet.Formula.Printer
import Spreadsheet.Formula.Query

/-!
# Built-in functions

* `Builtin`: the functions that a formula can call, with their names and numbers of arguments.
* `Operand`: an argument before it is evaluated. A function decides which of its arguments it asks for, so a
  branch that is not taken asks for nothing, and which of them may be ranges.
* `Builtin.apply`: the dialogue of a call.
-/

set_option autoImplicit false

namespace Spreadsheet.Formula

open Grid

/-- The functions that a formula can call. -/
inductive Builtin where
  | and
  | count
  | counta
  | countif
  | if_
  | isblank
  | isna
  | match_
  | max
  | min
  | or
  | row
  | sum
  | sumif
  deriving DecidableEq, Repr

namespace Builtin

def all : List Builtin :=
  [and, count, counta, countif, if_, isblank, isna, match_, max, min, or, row, sum, sumif]

def name : Builtin → String
  | and => "AND"
  | count => "COUNT"
  | counta => "COUNTA"
  | countif => "COUNTIF"
  | if_ => "IF"
  | isblank => "ISBLANK"
  | isna => "ISNA"
  | match_ => "MATCH"
  | max => "MAX"
  | min => "MIN"
  | or => "OR"
  | row => "ROW"
  | sum => "SUM"
  | sumif => "SUMIF"

def minArgs : Builtin → Nat
  | row => 0
  | and | count | counta | isblank | isna | max | min | or | sum => 1
  | countif | if_ | match_ | sumif => 2

def maxArgs : Builtin → Option Nat
  | isblank | isna | row => some 1
  | countif => some 2
  | if_ | match_ | sumif => some 3
  | and | count | counta | max | min | or | sum => none

def ofName? (name : String) : Option Builtin := all.find? fun f => f.name == Text.upperName name

def checkArity (f : Builtin) (name : String) (actual : Nat) : Except Error Unit :=
  if actual < f.minArgs then .error (.argumentCount name ("at least " ++ Text.Numeral.text f.minArgs) actual)
  else
    match f.maxArgs with
    | some limit =>
      if limit < actual then .error (.argumentCount name ("at most " ++ Text.Numeral.text limit) actual)
      else .ok ()
    | none => .ok ()

end Builtin

/-- An argument of a call: as written, and the dialogue that evaluates it to a single value. -/
structure Operand where
  form : Expr
  value : Query Value

/-- The values of an argument: all cells of a range, or the single value of anything else. -/
def Operand.values (arg : Operand) : Query (List Value) :=
  match arg.form with
  | .range sheet a b => Query.readBlock sheet (Rect.spanning a b)
  | _ => arg.value.bind fun v => .done [v]

def Operand.allValues : List Operand → Query (List Value)
  | [] => .done []
  | arg :: rest => do
    let vs ← arg.values
    let ws ← allValues rest
    return vs ++ ws

/-! ## What the functions compute -/

/-- The numbers among values; truth values and texts are passed over. -/
def numbers (vs : List Value) : List Float :=
  vs.filterMap fun
    | .number x => some x
    | _ => none

/-- The sum of numbers from left to right, starting from a negative zero: an empty sum is a negative zero. -/
def total (xs : List Float) : Float := xs.foldl (· + ·) (-0.0)

/-- The result of joining numbers from left to right, if there is one. -/
def joined? (f : Float → Float → Float) : List Float → Option Float
  | [] => none
  | x :: xs => some (xs.foldl f x)

/-- The numbers that stand in `targets` where `tested` meets the criterion; the shorter list decides where the
pairing ends. -/
def selected (c : Criterion) (tested targets : List Value) : List Float :=
  numbers (((tested.zip targets).filter fun (v, _) => c.accepts v).map (·.2))

/-- How many values from the beginning on stand to `v` in a wanted way. -/
def runLength (wanted : Comparison → Bool) (v : Value) (vs : List Value) : Nat :=
  (vs.takeWhile fun w => wanted (v.compare true w)).length

/-- The position of `v` in `vs`, counted from one, for a kind of match: zero asks for an equal value, a positive
number for the last value of an ascending run up to `v`, any other for the last of a descending run. -/
def position? (v : Value) (vs : List Value) (kind : Float) : Option Nat :=
  if kind == 0 then (vs.findIdx? fun w => w.same v).map (· + 1)
  else
    let n :=
      if 0 < kind then runLength (fun c => c == .descending || c == .same) v vs
      else runLength (fun c => c == .ascending || c == .same) v vs
    if n = 0 then none else some n

/-! ## Calls -/

/-- Asks for truth values until one is `stop`; the answer is then `stop`, and otherwise the opposite. -/
def firstTruth (stop : Bool) : List Operand → Query Value
  | [] => .done (.truth !stop)
  | arg :: rest => do
    let v ← arg.value
    if v.holds == stop then return .truth stop else firstTruth stop rest

def matchKind (v : Value) : Query Float :=
  match v.toNumber? with
  | some x => .done x
  | none => .fail (.typeMismatch ("MATCH type must be a number, got " ++ v.kind))

def rowOf (here : Address) : List Operand → Query Value
  | [] => .done (.number (Float.ofNat here.row.toNat))
  | arg :: _ =>
    match arg.form with
    | .cell _ a => .done (.number (Float.ofNat a.row.toNat))
    | .range _ a b => .done (.number (Float.ofNat (Rect.spanning a b).first.row.toNat))
    | e => .fail (.typeMismatch ("ROW expects a reference, got " ++ e.toText))

/-- The dialogue of a call in the cell `here`. A call with a number of arguments that the function does not take
has no meaning here; `Builtin.checkArity` refuses it first. -/
def Builtin.apply (f : Builtin) (here : Address) (args : List Operand) : Query Value :=
  match f, args with
  | .if_, condition :: yes :: more => do
    let c ← condition.value
    if c.holds then yes.value
    else
      match more with
      | no :: _ => no.value
      | [] => return .blank
  | .and, _ => firstTruth false args
  | .or, _ => firstTruth true args
  | .isblank, arg :: _ => do return .truth (← arg.value).isEmpty
  | .isna, arg :: _ => do
    match ← arg.value with
    | .blank => return .truth true
    | _ => return .truth false
  | .sum, _ => do return .number (total (numbers (← Operand.allValues args)))
  | .count, _ => do return .number (Float.ofNat (numbers (← Operand.allValues args)).length)
  | .counta, _ => do
    let vs ← Operand.allValues args
    return .number (Float.ofNat (vs.filter fun v => !v.isEmpty).length)
  | .max, _ => do return .ofNumber? (joined? Number.larger (numbers (← Operand.allValues args)))
  | .min, _ => do return .ofNumber? (joined? Number.smaller (numbers (← Operand.allValues args)))
  | .countif, range :: criterion :: _ => do
    let vs ← range.values
    let c ← criterion.value
    return .number (Float.ofNat (vs.filter (Criterion.ofValue c).accepts).length)
  | .sumif, range :: criterion :: more => do
    let vs ← range.values
    let c ← criterion.value
    let ws ← match more with
      | targets :: _ => targets.values
      | [] => pure vs
    return .number (total (selected (Criterion.ofValue c) vs ws))
  | .match_, wanted :: range :: more => do
    let v ← wanted.value
    let vs ← range.values
    let kind ← match more with
      | arg :: _ => do matchKind (← arg.value)
      | [] => pure 1
    return .ofNumber? ((position? v vs kind).map Float.ofNat)
  | .row, _ => rowOf here args
  | _, _ => .done .blank

end Spreadsheet.Formula
