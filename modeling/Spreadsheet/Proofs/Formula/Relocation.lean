import Spreadsheet.Book.Sheet
import Spreadsheet.Proofs.Formula.Dialogues
import Spreadsheet.Proofs.Formula.Displacements

/-! # What a formula that is moved means

A formula that is moved asks for the cells that lie at the displacement from those that it asked for, and makes the same of
their values. Only the wording of an error may name other cells.

* `Query.Mirrors`: two dialogues of which the second one asks for the cells of the first, moved.
* `isCongruence_mirrors`: this is kept by all functions but `ROW`.
* `evaluate_relocate`: the value of a formula that is moved.
* `evaluate_of_formulaOf`: the value of a cell of a group that shares a formula. -/

set_option autoImplicit false

namespace Spreadsheet.Formula

open Grid

/-! ## Dialogues about cells that are moved -/

/-- A cell of its own sheet after a move; a cell of another sheet stays. -/
def movedCell (d : Shift) : Option String × Address → Option String × Address
  | (none, a) => (none, (a.move? d).getD a)
  | (some sheet, a) => (some sheet, a)

namespace Query

variable {α β : Type} {d : Shift}

def asked {m : Type → Type} [Monad m] (answer : Option String → Address → m (Except Error Value)) :
    Query α → m (List (Option String × Address))
  | .done _ => pure []
  | .fail _ => pure []
  | .ask sheet a next => do
    match ← answer sheet a with
    | .ok v => return (sheet, a) :: (← (next v).asked answer)
    | .error _ => return [(sheet, a)]

/-- Two dialogues that go the same way if the second one is told about a cell what the first is told about the cell at the
displacement. -/
inductive Mirrors (d : Shift) : Query α → Query α → Prop where
  | done (x : α) : Mirrors d (.done x) (.done x)
  | fail {e e' : Error} (h : e'.kind = e.kind) : Mirrors d (.fail e) (.fail e')
  | own {a b : Address} {next next' : Value → Query α} (h : a.move? d = some b)
      (hnext : ∀ v, Mirrors d (next v) (next' v)) : Mirrors d (.ask none a next) (.ask none b next')
  | other (sheet : String) (a : Address) {next next' : Value → Query α} (hnext : ∀ v, Mirrors d (next v) (next' v)) :
      Mirrors d (.ask (some sheet) a next) (.ask (some sheet) a next')

theorem Mirrors.bind {q q' : Query α} (h : Mirrors d q q') {f f' : α → Query β} (hf : ∀ x, Mirrors d (f x) (f' x)) :
    Mirrors d (q >>= f) (q' >>= f') := by
  induction h with
  | done x => exact hf x
  | fail h => exact .fail h
  | own h _ ih => exact .own h ih
  | other sheet a _ ih => exact .other sheet a ih

theorem mirrors_ofExcept (d : Shift) (r : Except Error α) : Mirrors d (ofExcept r) (ofExcept r) := by
  cases r with
  | ok x => exact .done x
  | error e => exact .fail rfl

/-! ### Blocks -/

theorem mirrors_readAfter_other (d : Shift) (sheet : String) (known : List Value) (cells : List Address) :
    Mirrors d (readAfter (some sheet) known cells) (readAfter (some sheet) known cells) := by
  induction cells generalizing known with
  | nil => exact .done _
  | cons a cells ih => exact .other sheet a fun v => ih (v :: known)

theorem mirrors_readAfter_own {cells cells' : List Address}
    (h : Aligned (fun c c' => c.move? d = some c') cells cells') (known : List Value) :
    Mirrors d (readAfter none known cells) (readAfter none known cells') := by
  induction h generalizing known with
  | nil => exact .done _
  | cons hmove _ ih => exact .own hmove fun v => ih (v :: known)

theorem mirrors_readBlock_other (d : Shift) (sheet : String) (r : Rect) :
    Mirrors d (readBlock (some sheet) r) (readBlock (some sheet) r) := by
  rw [readBlock_eq]
  exact mirrors_readAfter_other d sheet [] r.cells

theorem mirrors_readBlock_own {r r' : Rect} (h : r.IsShifted d r') : Mirrors d (readBlock none r) (readBlock none r') := by
  rw [readBlock_eq, readBlock_eq]
  exact mirrors_readAfter_own h.move?_cells []

end Query

theorem Query.isCongruence_mirrors (d : Shift) : Query.IsCongruence (Query.Mirrors d) where
  done x := .done x
  fail hkind _ := .fail hkind
  bind h hf := h.bind hf

/-! ## Formulas -/

mutual

/-- A formula that can be moved without another meaning: cells of its own sheet lie on the grid, the corners of its ranges
have no anchors, and it does not ask for the row of a cell. -/
def Expr.IsMovable : Expr → Prop
  | .number _ => True
  | .text _ => True
  | .truth _ => True
  | .cell none a => a.OnGrid
  | .cell (some _) _ => True
  | .range none a b => (a.OnGrid ∧ a.unanchored = a) ∧ b.OnGrid ∧ b.unanchored = b
  | .range (some _) _ _ => True
  | .binary _ l r => l.IsMovable ∧ r.IsMovable
  | .negate e => e.IsMovable
  | .call name args => Builtin.ofName? name ≠ some .row ∧ Expr.AreMovable args

/-- Formulas that can all be moved without another meaning. -/
def Expr.AreMovable : List Expr → Prop
  | [] => True
  | e :: rest => e.IsMovable ∧ Expr.AreMovable rest

end

mutual

theorem Expr.onGrid_of_isMovable : (e : Expr) → e.IsMovable → ∀ a ∈ e.ownReferences, a.OnGrid
  | .number _, _ => by simp [Expr.ownReferences]
  | .text _, _ => by simp [Expr.ownReferences]
  | .truth _, _ => by simp [Expr.ownReferences]
  | .cell none _, h => by simpa [Expr.ownReferences, Expr.IsMovable] using h
  | .cell (some _) _, _ => by simp [Expr.ownReferences]
  | .range none _ _, h => by simpa [Expr.ownReferences] using ⟨h.1.1, h.2.1⟩
  | .range (some _) _ _, _ => by simp [Expr.ownReferences]
  | .binary _ l r, h => List.forall_mem_append.mpr ⟨l.onGrid_of_isMovable h.1, r.onGrid_of_isMovable h.2⟩
  | .negate e, h => e.onGrid_of_isMovable h
  | .call _ args, h => Expr.onGrid_of_areMovable args h.2

theorem Expr.onGrid_of_areMovable : (args : List Expr) → Expr.AreMovable args →
    ∀ a ∈ Expr.ownReferencesOf args, a.OnGrid
  | [], _ => by simp [Expr.ownReferencesOf]
  | e :: rest, h =>
    List.forall_mem_append.mpr ⟨e.onGrid_of_isMovable h.1, Expr.onGrid_of_areMovable rest h.2⟩

end

theorem Expr.relocate_eq_moved {e : Expr} (h : e.IsMovable) (d : Shift) : e.relocate d = e.moved d :=
  Expr.relocate_eq_moved_of_onGrid (e.onGrid_of_isMovable h) d

mutual

/-- A formula that is moved makes the dialogue of the formula about the cells at the displacement. -/
theorem Expr.mirrors_moved {d : Shift} (here here' : Address) : (e e' : Expr) → e.IsMovable → e.moved d = .ok e' →
    Operand.Related (Query.Mirrors d) ⟨e, e.query here⟩ ⟨e', e'.query here'⟩
  | .number x, e', _, hmoved => by
    obtain rfl := Except.ok.inj hmoved
    exact Operand.related_of_value (Query.isCongruence_mirrors d) rfl rfl (.done _)
  | .text s, e', _, hmoved => by
    obtain rfl := Except.ok.inj hmoved
    exact Operand.related_of_value (Query.isCongruence_mirrors d) rfl rfl (.done _)
  | .truth b, e', _, hmoved => by
    obtain rfl := Except.ok.inj hmoved
    exact Operand.related_of_value (Query.isCongruence_mirrors d) rfl rfl (.done _)
  | .cell none a, e', _, hmoved => by
    obtain ⟨b, hb, hmoved⟩ := bind_eq_ok.mp hmoved
    obtain rfl := Except.ok.inj hmoved
    exact Operand.related_of_value (Query.isCongruence_mirrors d) rfl rfl (.own (moveReference_eq_ok.mp hb) fun v => .done v)
  | .cell (some sheet) a, e', _, hmoved => by
    obtain rfl := Except.ok.inj hmoved
    exact Operand.related_of_value (Query.isCongruence_mirrors d) rfl rfl (.other sheet a fun v => .done v)
  | .range none a b, e', hmovable, hmoved => by
    obtain ⟨start, hstart, hmoved⟩ := bind_eq_ok.mp hmoved
    obtain ⟨stop, hstop, hmoved⟩ := bind_eq_ok.mp hmoved
    obtain rfl := Except.ok.inj hmoved
    obtain ⟨⟨ha, hafree⟩, hb, hbfree⟩ := hmovable
    -- Without anchors both corners move by the same displacement, and so does what they span.
    have hshifted := Rect.isShifted_spanning ha hb hafree hbfree (moveReference_eq_ok.mp hstart)
      (moveReference_eq_ok.mp hstop)
    exact ⟨.fail rfl, Query.mirrors_readBlock_own hshifted⟩
  | .range (some sheet) a b, e', _, hmoved => by
    obtain rfl := Except.ok.inj hmoved
    exact ⟨.fail rfl, Query.mirrors_readBlock_other d sheet _⟩
  | .binary op l r, e', hmovable, hmoved => by
    obtain ⟨l', hl', hmoved⟩ := bind_eq_ok.mp hmoved
    obtain ⟨r', hr', hmoved⟩ := bind_eq_ok.mp hmoved
    obtain rfl := Except.ok.inj hmoved
    have hl := (Expr.mirrors_moved here here' l l' hmovable.1 hl').value
    have hr := (Expr.mirrors_moved here here' r r' hmovable.2 hr').value
    refine Operand.related_of_value (Query.isCongruence_mirrors d) rfl rfl (hl.bind fun v => hr.bind fun w => ?_)
    exact Query.mirrors_ofExcept d (op.apply v w)
  | .negate e, e', hmovable, hmoved => by
    obtain ⟨o, ho, hmoved⟩ := bind_eq_ok.mp hmoved
    obtain rfl := Except.ok.inj hmoved
    have hoperand := (Expr.mirrors_moved here here' e o hmovable ho).value
    refine Operand.related_of_value (Query.isCongruence_mirrors d) rfl rfl (hoperand.bind fun v => ?_)
    exact Query.mirrors_ofExcept d (negated v)
  | .call name args, e', hmovable, hmoved => by
    obtain ⟨args', hargs', hmoved⟩ := bind_eq_ok.mp hmoved
    obtain rfl := Except.ok.inj hmoved
    have hargs := Expr.mirrors_movedAll here here' args args' hmovable.2 hargs'
    have hR := Query.isCongruence_mirrors d
    exact Operand.related_of_value hR rfl rfl (related_call hR hmovable.1 here here' hargs)

theorem Expr.mirrors_movedAll {d : Shift} (here here' : Address) : (args args' : List Expr) → Expr.AreMovable args →
    Expr.movedAll d args = .ok args' →
    Aligned (Operand.Related (Query.Mirrors d)) (Expr.operands here args) (Expr.operands here' args')
  | [], args', _, hmoved => by
    obtain rfl := Except.ok.inj hmoved
    exact .nil
  | e :: rest, args', hmovable, hmoved => by
    obtain ⟨e', he', hmoved⟩ := bind_eq_ok.mp hmoved
    obtain ⟨rest', hrest', hmoved⟩ := bind_eq_ok.mp hmoved
    obtain rfl := Except.ok.inj hmoved
    exact .cons (Expr.mirrors_moved here here' e e' hmovable.1 he')
      (Expr.mirrors_movedAll here here' rest rest' hmovable.2 hrest')

end

/-! ## Answers -/

/-- Someone who answers for the cells of the own sheet as another one does for the cells at a displacement, and for the
cells of other sheets in the same way. -/
structure AnswersFor {m : Type → Type} (d : Shift) (answer shifted : Option String → Address → m (Except Error Value)) :
    Prop where
  own : ∀ {a b}, a.move? d = some b → shifted none a = answer none b
  other : ∀ sheet a, shifted (some sheet) a = answer (some sheet) a

def seenFrom {m : Type → Type} (d : Shift) (answer : Option String → Address → m (Except Error Value)) :
    Option String → Address → m (Except Error Value)
  | none, a => answer none ((a.move? d).getD a)
  | some sheet, a => answer (some sheet) a

theorem answersFor_seenFrom {m : Type → Type} (d : Shift) (answer : Option String → Address → m (Except Error Value)) :
    AnswersFor d answer (seenFrom d answer) where
  own h := by rw [seenFrom, h, Option.getD_some]
  other _ _ := rfl

section Answers

variable {m : Type → Type} [Monad m] [LawfulMonad m] {d : Shift}
  {answer shifted : Option String → Address → m (Except Error Value)}

theorem Query.Mirrors.run {α : Type} {q q' : Query α} (h : Query.Mirrors d q q') (hanswer : AnswersFor d answer shifted) :
    Except.mapError Error.kind <$> q'.run answer = Except.mapError Error.kind <$> q.run shifted := by
  induction h with
  | done x => rw [Query.run, Query.run]
  | fail h =>
    rw [Query.run, Query.run, map_pure, map_pure]
    exact congrArg (fun kind => pure (Except.error kind)) h
  | own h _ ih =>
    rw [Query.run, Query.run, hanswer.own h, map_bind, map_bind]
    congr 1
    funext x
    cases x with
    | ok v => exact ih v
    | error e => rfl
  | other sheet a _ ih =>
    rw [Query.run, Query.run, hanswer.other sheet a, map_bind, map_bind]
    congr 1
    funext x
    cases x with
    | ok v => exact ih v
    | error e => rfl

theorem Query.Mirrors.asked {α : Type} {q q' : Query α} (h : Query.Mirrors d q q') (hanswer : AnswersFor d answer shifted) :
    q'.asked answer = List.map (movedCell d) <$> q.asked shifted := by
  induction h with
  | done x => rw [Query.asked, Query.asked, map_pure, List.map_nil]
  | fail h => rw [Query.asked, Query.asked, map_pure, List.map_nil]
  | own h _ ih =>
    rw [Query.asked, Query.asked, hanswer.own h, map_bind]
    congr 1
    funext x
    cases x with
    | ok v => simp [ih v, movedCell, h]
    | error e => simp [movedCell, h]
  | other sheet a _ ih =>
    rw [Query.asked, Query.asked, hanswer.other sheet a, map_bind]
    congr 1
    funext x
    cases x with
    | ok v => simp [ih v, movedCell]
    | error e => simp [movedCell]

/-- A formula that is moved has the value of the formula on the sheet as it is seen from the displacement, or fails with an
error of the same kind. It asks for the cells at the displacement from those that the formula asks for, in the same
order. -/
theorem evaluate_relocate {e e' : Expr} (he : e.IsMovable) (h : e.relocate d = .ok e')
    (hanswer : AnswersFor d answer shifted) (here here' : Address) :
    Except.mapError Error.kind <$> e'.evaluate here' answer = Except.mapError Error.kind <$> e.evaluate here shifted ∧
      (e'.query here').asked answer = List.map (movedCell d) <$> (e.query here).asked shifted := by
  rw [Expr.relocate_eq_moved he] at h
  have hmirrors := (Expr.mirrors_moved here here' e e' he h).value
  exact ⟨hmirrors.run hanswer, hmirrors.asked hanswer⟩

/-- `SUM(A1:B2)-$C3*Other!D4`, moved by two rows and a column, with the row of a cell for its value. -/
theorem evaluate_relocate_sum :
    let e : Expr := .binary .subtract (.call "SUM" [.range none (.plain 1 0) (.plain 2 1)])
      (.binary .multiply (.cell none ⟨3, 2, false, true⟩) (.cell (some "Other") (.plain 4 3)))
    let e' : Expr := .binary .subtract (.call "SUM" [.range none (.plain 3 1) (.plain 4 2)])
      (.binary .multiply (.cell none ⟨5, 2, false, true⟩) (.cell (some "Other") (.plain 4 3)))
    let answer : Option String → Address → Option (Except Error Value) :=
      fun _ a => some (.ok (.number (Float.ofNat a.row.toNat)))
    (e.IsMovable ∧ e.relocate ⟨2, 1⟩ = .ok e' ∧ AnswersFor ⟨2, 1⟩ answer (seenFrom ⟨2, 1⟩ answer)) ∧
      Except.mapError Error.kind <$> e'.evaluate (.plain 9 9) answer =
          Except.mapError Error.kind <$> e.evaluate (.plain 7 8) (seenFrom ⟨2, 1⟩ answer) ∧
        (e'.query (.plain 9 9)).asked answer =
          List.map (movedCell ⟨2, 1⟩) <$> (e.query (.plain 7 8)).asked (seenFrom ⟨2, 1⟩ answer) := by
  intro e e' answer
  have hcell : Address.OnGrid ⟨3, 2, false, true⟩ := by decide
  have he : e.IsMovable :=
    ⟨⟨by decide +kernel, ⟨⟨by decide, rfl⟩, by decide, rfl⟩, trivial⟩, hcell, trivial⟩
  have hmoved : e.relocate ⟨2, 1⟩ = .ok e' := rfl
  have hanswer := answersFor_seenFrom ⟨2, 1⟩ answer
  exact ⟨⟨he, hmoved, hanswer⟩, evaluate_relocate he hmoved hanswer (.plain 7 8) (.plain 9 9)⟩

theorem evaluate_of_formulaOf {s : Book.Sheet} {a : Address} {group : String} {text : Option String}
    {shared : Book.SharedFormula} {e e' : Expr} (hshared : s.sharedFormula? group = some shared)
    (he : parse shared.text = .ok e) (hmovable : e.IsMovable)
    (h : s.formulaOf a (.shared group text) = .ok (some e')) :
    Except.mapError Error.kind <$> e'.evaluate a answer =
      Except.mapError Error.kind <$> e.evaluate shared.anchor (seenFrom (shared.anchor.shiftTo a) answer) := by
  unfold Book.Sheet.formulaOf at h
  simp only [hshared, he, ok_bind, bind_eq_ok] at h
  obtain ⟨moved, hmoved, h⟩ := h
  obtain rfl := Option.some.inj (Except.ok.inj h)
  rw [Expr.relocate_eq_moved hmovable] at hmoved
  exact (Expr.mirrors_moved shared.anchor a e moved hmovable hmoved).value.run (answersFor_seenFrom _ answer)

end Answers

end Spreadsheet.Formula
