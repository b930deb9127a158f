import Spreadsheet.Formula.Eval
import Spreadsheet.Proofs.Grid.Moving
import Spreadsheet.Proofs.Outcome

/-! # Dialogues of functions

A function makes its dialogue out of those of its arguments. What holds of the dialogues of the arguments, and is kept
when one dialogue goes on with the result of another one, holds of the dialogue of the call.

* `ErrorKind`: errors without the case at hand.
* `Query.IsCongruence`: a relation of dialogues that is kept when dialogues are joined.
* `related_apply`, `related_call`: all functions but `ROW`, which looks at the form of its argument, keep such a
  relation of their arguments.
* `Expr.related_self`: what holds of reading the cells that a formula names holds of its dialogue. -/

set_option autoImplicit false

namespace Spreadsheet.Formula

open Grid

/-! ## Kinds of errors -/

/-- What an error says besides the case at hand. -/
inductive ErrorKind where
  | missingClosingParen
  | expectedComma
  | malformedAddress
  | malformedRange
  | unterminatedString
  | unrecognizedTerminal
  | trailingInput
  | typeMismatch
  | unimplementedFunction
  | argumentCount
  | rangeNotAllowed
  | cycleDetected
  | invalidReference
  | unknownSheet
  | referenceFailed
  deriving DecidableEq, Repr

def Error.kind : Error → ErrorKind
  | .missingClosingParen => .missingClosingParen
  | .expectedComma _ => .expectedComma
  | .malformedAddress _ => .malformedAddress
  | .malformedRange _ => .malformedRange
  | .unterminatedString => .unterminatedString
  | .unrecognizedTerminal _ => .unrecognizedTerminal
  | .trailingInput _ => .trailingInput
  | .typeMismatch _ => .typeMismatch
  | .unimplementedFunction _ => .unimplementedFunction
  | .argumentCount _ _ _ => .argumentCount
  | .rangeNotAllowed _ => .rangeNotAllowed
  | .cycleDetected _ => .cycleDetected
  | .invalidReference _ => .invalidReference
  | .unknownSheet _ => .unknownSheet
  | .referenceFailed _ => .referenceFailed

/-- An error that a formula can end with although all cells that it asks for have values. -/
def IsEvaluationError (e : Error) : Prop :=
  e.kind ∈ [.typeMismatch, .unimplementedFunction, .argumentCount, .rangeNotAllowed]

/-! ## Relations of dialogues -/

/-- A relation of dialogues that is kept when dialogues are joined. -/
structure Query.IsCongruence (R : ∀ {α : Type}, Query α → Query α → Prop) : Prop where
  done : ∀ {α : Type} (x : α), R (.done x) (.done x)
  fail : ∀ {α : Type} {e e' : Error}, e'.kind = e.kind → IsEvaluationError e →
    R (.fail e : Query α) (.fail e')
  bind : ∀ {α β : Type} {q q' : Query α} {f f' : α → Query β}, R q q' → (∀ x, R (f x) (f' x)) →
    R (q >>= f) (q' >>= f')

/-- Two arguments with related dialogues, for a single value and for all values. -/
structure Operand.Related (R : ∀ {α : Type}, Query α → Query α → Prop) (arg arg' : Operand) : Prop where
  value : R arg.value arg'.value
  values : R arg.values arg'.values

/-- Whether a formula is a range. -/
def Expr.isRange : Expr → Bool
  | .range _ _ _ => true
  | _ => false

theorem kind_of_checkArity {f : Builtin} {name : String} {actual : Nat} {e : Error}
    (h : f.checkArity name actual = .error e) : e.kind = .argumentCount := by
  unfold Builtin.checkArity at h
  split at h
  · cases h
    rfl
  split at h
  · split at h
    · cases h
      rfl
    · cases h
  · cases h

section Calls

variable {R : ∀ {α : Type}, Query α → Query α → Prop} (hR : Query.IsCongruence @R) {args args' : List Operand}

include hR

theorem Operand.related_of_value {arg arg' : Operand} (hform : arg.form.isRange = false)
    (hform' : arg'.form.isRange = false) (h : R arg.value arg'.value) : Operand.Related @R arg arg' := by
  have hvalues : ∀ p : Operand, p.form.isRange = false → p.values = p.value.bind fun v => .done [v] := by
    intro p hp
    unfold Operand.values
    split
    next sheet a b heq =>
      rw [heq] at hp
      cases hp
    next => rfl
  refine ⟨h, ?_⟩
  rw [hvalues arg hform, hvalues arg' hform']
  exact hR.bind h fun v => hR.done [v]

theorem Operand.related_allValues (h : Aligned (Operand.Related @R) args args') :
    R (Operand.allValues args) (Operand.allValues args') := by
  induction h with
  | nil => exact hR.done []
  | cons harg _ ih => exact hR.bind harg.values fun vs => hR.bind ih fun ws => hR.done (vs ++ ws)

theorem related_firstTruth (stop : Bool) (h : Aligned (Operand.Related @R) args args') :
    R (firstTruth stop args) (firstTruth stop args') := by
  induction h with
  | nil => exact hR.done _
  | cons harg _ ih =>
    refine hR.bind harg.value fun v => ?_
    split
    · exact hR.done _
    · exact ih

theorem related_matchKind (v : Value) : R (matchKind v) (matchKind v) := by
  unfold matchKind
  split
  · exact hR.done _
  · exact hR.fail rfl (by simp [IsEvaluationError, Error.kind])

theorem related_apply {f : Builtin} (hf : f ≠ .row) (here here' : Address)
    (h : Aligned (Operand.Related @R) args args') : R (f.apply here args) (f.apply here' args') := by
  have hall : ∀ g : List Value → Value, R (Operand.allValues args >>= fun vs => pure (g vs))
      (Operand.allValues args' >>= fun vs => pure (g vs)) := fun g =>
    hR.bind (Operand.related_allValues hR h) fun vs => hR.done (g vs)
  cases f with
  | row => exact absurd rfl hf
  | and => exact related_firstTruth hR false h
  | or => exact related_firstTruth hR true h
  | sum => exact hall fun vs => .number (total (numbers vs))
  | count => exact hall fun vs => .number (Float.ofNat (numbers vs).length)
  | counta => exact hall fun vs => .number (Float.ofNat (vs.filter fun v => !v.isEmpty).length)
  | max => exact hall fun vs => .ofNumber? (joined? Number.larger (numbers vs))
  | min => exact hall fun vs => .ofNumber? (joined? Number.smaller (numbers vs))
  | isblank =>
    cases h with
    | nil => exact hR.done _
    | cons harg _ => exact hR.bind harg.value fun v => hR.done _
  | isna =>
    cases h with
    | nil => exact hR.done _
    | cons harg _ =>
      refine hR.bind harg.value fun v => ?_
      split
      · exact hR.done _
      · exact hR.done _
  | if_ =>
    cases h with
    | nil => exact hR.done _
    | cons hcondition hmore =>
      cases hmore with
      | nil => exact hR.done _
      | cons hyes hmore =>
        refine hR.bind hcondition.value fun c => ?_
        split
        · exact hyes.value
        · cases hmore with
          | nil => exact hR.done _
          | cons hno _ => exact hno.value
  | countif =>
    cases h with
    | nil => exact hR.done _
    | cons hrange hmore =>
      cases hmore with
      | nil => exact hR.done _
      | cons hcriterion _ => exact hR.bind hrange.values fun vs => hR.bind hcriterion.value fun c => hR.done _
  | sumif =>
    cases h with
    | nil => exact hR.done _
    | cons hrange hmore =>
      cases hmore with
      | nil => exact hR.done _
      | cons hcriterion hmore =>
        refine hR.bind hrange.values fun vs => hR.bind hcriterion.value fun c => ?_
        cases hmore with
        | nil => exact hR.done _
        | cons htargets _ => exact hR.bind htargets.values fun ws => hR.done _
  | match_ =>
    cases h with
    | nil => exact hR.done _
    | cons hwanted hmore =>
      cases hmore with
      | nil => exact hR.done _
      | cons hrange hmore =>
        refine hR.bind hwanted.value fun v => hR.bind hrange.values fun vs => ?_
        cases hmore with
        | nil => exact hR.done _
        | cons harg _ =>
          exact hR.bind harg.value fun w => hR.bind (related_matchKind hR w) fun kind => hR.done _

theorem related_call {name : String} (hname : Builtin.ofName? name ≠ some .row) (here here' : Address)
    (h : Aligned (Operand.Related @R) args args') : R (call here name args) (call here' name args') := by
  unfold call
  rw [h.length_eq]
  split
  next => exact hR.fail rfl (by simp [IsEvaluationError, Error.kind])
  next f hf =>
    split
    next => exact related_apply hR (fun hrow => hname (hf.trans (congrArg some hrow))) here here' h
    next e he => exact hR.fail rfl (by simp [IsEvaluationError, kind_of_checkArity he])

end Calls

/-! ## Operators -/

theorem raises_apply (op : BinaryOp) (v w : Value) : Raises IsEvaluationError (op.apply v w) := by
  have hmismatch : ∀ op : BinaryOp, IsEvaluationError (mismatch op v w) := fun op => by
    simp [IsEvaluationError, mismatch, Error.kind]
  have harithmetic : ∀ op f, Raises IsEvaluationError (arithmetic op f v w) := by
    intro op f
    unfold arithmetic
    split
    · exact .ok _
    · exact .error (hmismatch op)
  have hordered : ∀ op wanted, Raises IsEvaluationError (ordered op wanted v w) := by
    intro op wanted
    unfold ordered
    split
    · exact .ok _
    · exact .ok _
    · exact .error (hmismatch op)
  cases op with
  | add | subtract | multiply | divide => exact harithmetic _ _
  | equal | notEqual => exact .ok _
  | less | lessEqual | greater | greaterEqual => exact hordered _ _
  | concat =>
    change Raises IsEvaluationError (joinTexts v w)
    unfold joinTexts
    split
    · exact .ok _
    · exact .error (hmismatch .concat)

theorem raises_negated (v : Value) : Raises IsEvaluationError (negated v) := by
  unfold negated
  split
  · exact .ok _
  · exact .error (by simp [IsEvaluationError, Error.kind])

/-! ## Formulas -/

mutual

/-- A formula that names a cell, by a reference to it or by a range that has it. -/
def Expr.Mentions (sheet : Option String) (a : Address) : Expr → Prop
  | .number _ => False
  | .text _ => False
  | .truth _ => False
  | .cell s b => s = sheet ∧ b = a
  | .range s b c => s = sheet ∧ a ∈ (Rect.spanning b c).cells
  | .binary _ l r => l.Mentions sheet a ∨ r.Mentions sheet a
  | .negate e => e.Mentions sheet a
  | .call _ args => Expr.AnyMentions sheet a args

/-- Formulas of which one names a cell. -/
def Expr.AnyMentions (sheet : Option String) (a : Address) : List Expr → Prop
  | [] => False
  | e :: rest => e.Mentions sheet a ∨ Expr.AnyMentions sheet a rest

end

section Formulas

variable {R : ∀ {α : Type}, Query α → Query α → Prop} (hR : Query.IsCongruence @R)

include hR

theorem related_ofExcept {α : Type} {r : Except Error α} (h : Raises IsEvaluationError r) :
    R (Query.ofExcept r) (Query.ofExcept r) := by
  cases r with
  | ok x => exact hR.done x
  | error e => exact hR.fail rfl (h e rfl)

theorem related_readAfter {sheet : Option String} {cells : List Address}
    (h : ∀ a ∈ cells, R (Query.read sheet a) (Query.read sheet a)) (known : List Value) :
    R (Query.readAfter sheet known cells) (Query.readAfter sheet known cells) := by
  induction cells generalizing known with
  | nil => exact hR.done _
  | cons a cells ih =>
    have hrest := ih fun c hc => h c (List.mem_cons_of_mem _ hc)
    exact hR.bind (h a (List.mem_cons_self ..)) fun v => hrest (v :: known)

theorem related_rowOf (here : Address) (args : List Operand) : R (rowOf here args) (rowOf here args) := by
  unfold rowOf
  split
  · exact hR.done _
  split
  · exact hR.done _
  · exact hR.done _
  · exact hR.fail rfl (by simp [IsEvaluationError, Error.kind])

theorem related_call_self (here : Address) (name : String) {args : List Operand}
    (h : Aligned (Operand.Related @R) args args) : R (call here name args) (call here name args) := by
  by_cases hrow : Builtin.ofName? name = some .row
  · unfold call
    rw [hrow]
    dsimp only
    split
    next => exact related_rowOf hR here args
    next e he => exact hR.fail rfl (by simp [IsEvaluationError, kind_of_checkArity he])
  · exact related_call hR hrow here here h

end Formulas

mutual

theorem Expr.related_self {R : ∀ {α : Type}, Query α → Query α → Prop} (hR : Query.IsCongruence @R) (here : Address) :
    (e : Expr) → (∀ sheet a, e.Mentions sheet a → R (Query.read sheet a) (Query.read sheet a)) →
      Operand.Related @R ⟨e, e.query here⟩ ⟨e, e.query here⟩
  | .number x, _ => Operand.related_of_value hR rfl rfl (hR.done _)
  | .text s, _ => Operand.related_of_value hR rfl rfl (hR.done _)
  | .truth b, _ => Operand.related_of_value hR rfl rfl (hR.done _)
  | .cell sheet a, hread => Operand.related_of_value hR rfl rfl (hread sheet a ⟨rfl, rfl⟩)
  | .range sheet a b, hread => by
    refine ⟨hR.fail rfl (by simp [IsEvaluationError, Error.kind]), ?_⟩
    change R (Query.readBlock sheet (Rect.spanning a b)) (Query.readBlock sheet (Rect.spanning a b))
    rw [Query.readBlock_eq]
    exact related_readAfter hR (fun c hc => hread sheet c ⟨rfl, hc⟩) []
  | .binary op l r, hread => by
    have hl := (Expr.related_self hR here l fun sheet a h => hread sheet a (.inl h)).value
    have hr := (Expr.related_self hR here r fun sheet a h => hread sheet a (.inr h)).value
    exact Operand.related_of_value hR rfl rfl <| hR.bind hl fun v => hR.bind hr fun w =>
      related_ofExcept hR (raises_apply op v w)
  | .negate e, hread => by
    have he := (Expr.related_self hR here e hread).value
    exact Operand.related_of_value hR rfl rfl <| hR.bind he fun v => related_ofExcept hR (raises_negated v)
  | .call name args, hread =>
    Operand.related_of_value hR rfl rfl (related_call_self hR here name (Expr.related_selves hR here args hread))

theorem Expr.related_selves {R : ∀ {α : Type}, Query α → Query α → Prop} (hR : Query.IsCongruence @R) (here : Address) :
    (args : List Expr) → (∀ sheet a, Expr.AnyMentions sheet a args → R (Query.read sheet a) (Query.read sheet a)) →
      Aligned (Operand.Related @R) (Expr.operands here args) (Expr.operands here args)
  | [], _ => .nil
  | e :: rest, hread =>
    .cons (Expr.related_self hR here e fun sheet a h => hread sheet a (.inl h))
      (Expr.related_selves hR here rest fun sheet a h => hread sheet a (.inr h))

end

end Spreadsheet.Formula
