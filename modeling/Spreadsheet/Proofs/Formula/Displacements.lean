import Spreadsheet.Formula.Relocate
import Spreadsheet.Proofs.Grid.Moving
import Spreadsheet.Proofs.Outcome

/-! # Formulas that are moved

A formula is moved by moving each reference that names no sheet. Moves one after the other are one move by the sum, and
every move can be undone.

* `Expr.ownReferences`, `Expr.erased`: the addresses that a move is about, and all that it is not about.
* `moved_parts`, `exists_moved`: what a move makes of a formula, and when it makes one.
* `moved_moved`: two moves are one.
* `moved_zero`, `relocate_eq_moved_of_onGrid`: the move by nothing is no special case as long as references are on the
  grid.
* `relocate_relocate`: moves compose, are undone, and fail where a reference leaves the grid. -/

set_option autoImplicit false

namespace Spreadsheet.Formula

open Grid

/-! ## The parts of a formula -/

mutual

/-- The addresses of the references and corners of ranges that name no sheet, as written. -/
def Expr.ownReferences : Expr → List Address
  | .number _ => []
  | .text _ => []
  | .truth _ => []
  | .cell none a => [a]
  | .cell (some _) _ => []
  | .range none a b => [a, b]
  | .range (some _) _ _ => []
  | .binary _ l r => l.ownReferences ++ r.ownReferences
  | .negate e => e.ownReferences
  | .call _ args => Expr.ownReferencesOf args

def Expr.ownReferencesOf : List Expr → List Address
  | [] => []
  | e :: rest => e.ownReferences ++ Expr.ownReferencesOf rest

end

mutual

/-- A formula with one and the same address in all places of its own references. -/
def Expr.erased : Expr → Expr
  | .number x => .number x
  | .text s => .text s
  | .truth b => .truth b
  | .cell none _ => .cell none (.plain 0 0)
  | .cell (some sheet) a => .cell (some sheet) a
  | .range none _ _ => .range none (.plain 0 0) (.plain 0 0)
  | .range (some sheet) a b => .range (some sheet) a b
  | .binary op l r => .binary op l.erased r.erased
  | .negate e => .negate e.erased
  | .call name args => .call name (Expr.erasedAll args)

def Expr.erasedAll : List Expr → List Expr
  | [] => []
  | e :: rest => e.erased :: Expr.erasedAll rest

end

/-! ## One move -/

theorem moveReference_eq_ok {d : Shift} {a b : Address} : moveReference d a = .ok b ↔ a.move? d = some b := by
  unfold moveReference
  split
  next c hc =>
    rw [hc]
    exact ⟨fun h => congrArg some (Except.ok.inj h), fun h => congrArg Except.ok (Option.some.inj h)⟩
  next hnone =>
    rw [hnone]
    exact ⟨(fun h => nomatch h), (fun h => nomatch h)⟩

mutual

theorem Expr.moved_parts {d : Shift} : (e e' : Expr) → e.moved d = .ok e' →
    e'.erased = e.erased ∧ Aligned (fun a b => a.move? d = some b) e.ownReferences e'.ownReferences
  | .number _, e', h => by
    obtain rfl := Except.ok.inj h
    exact ⟨rfl, .nil⟩
  | .text _, e', h => by
    obtain rfl := Except.ok.inj h
    exact ⟨rfl, .nil⟩
  | .truth _, e', h => by
    obtain rfl := Except.ok.inj h
    exact ⟨rfl, .nil⟩
  | .cell none a, e', h => by
    obtain ⟨b, hb, h⟩ := bind_eq_ok.mp h
    obtain rfl := Except.ok.inj h
    exact ⟨rfl, .cons (moveReference_eq_ok.mp hb) .nil⟩
  | .cell (some _) _, e', h => by
    obtain rfl := Except.ok.inj h
    exact ⟨rfl, .nil⟩
  | .range none a b, e', h => by
    obtain ⟨start, hstart, h⟩ := bind_eq_ok.mp h
    obtain ⟨stop, hstop, h⟩ := bind_eq_ok.mp h
    obtain rfl := Except.ok.inj h
    exact ⟨rfl, .cons (moveReference_eq_ok.mp hstart) (.cons (moveReference_eq_ok.mp hstop) .nil)⟩
  | .range (some _) _ _, e', h => by
    obtain rfl := Except.ok.inj h
    exact ⟨rfl, .nil⟩
  | .binary op l r, e', h => by
    obtain ⟨l', hl, h⟩ := bind_eq_ok.mp h
    obtain ⟨r', hr, h⟩ := bind_eq_ok.mp h
    obtain rfl := Except.ok.inj h
    obtain ⟨hleft, hlefts⟩ := Expr.moved_parts l l' hl
    obtain ⟨hright, hrights⟩ := Expr.moved_parts r r' hr
    rw [Expr.erased, Expr.erased, hleft, hright]
    exact ⟨rfl, hlefts.append hrights⟩
  | .negate e, e', h => by
    obtain ⟨o, ho, h⟩ := bind_eq_ok.mp h
    obtain rfl := Except.ok.inj h
    obtain ⟨hoperand, hreferences⟩ := Expr.moved_parts e o ho
    rw [Expr.erased, Expr.erased, hoperand]
    exact ⟨rfl, hreferences⟩
  | .call name args, e', h => by
    obtain ⟨args', hargs', h⟩ := bind_eq_ok.mp h
    obtain rfl := Except.ok.inj h
    obtain ⟨hargs, hreferences⟩ := Expr.movedAll_parts args args' hargs'
    rw [Expr.erased, Expr.erased, hargs]
    exact ⟨rfl, hreferences⟩

theorem Expr.movedAll_parts {d : Shift} : (args args' : List Expr) → Expr.movedAll d args = .ok args' →
    Expr.erasedAll args' = Expr.erasedAll args ∧
      Aligned (fun a b => a.move? d = some b) (Expr.ownReferencesOf args) (Expr.ownReferencesOf args')
  | [], args', h => by
    obtain rfl := Except.ok.inj h
    exact ⟨rfl, .nil⟩
  | e :: rest, args', h => by
    obtain ⟨e', he, h⟩ := bind_eq_ok.mp h
    obtain ⟨rest', hrest, h⟩ := bind_eq_ok.mp h
    obtain rfl := Except.ok.inj h
    obtain ⟨hfirst, hfirsts⟩ := Expr.moved_parts e e' he
    obtain ⟨hothers, hreferences⟩ := Expr.movedAll_parts rest rest' hrest
    rw [Expr.erasedAll, Expr.erasedAll, hfirst, hothers]
    exact ⟨rfl, hfirsts.append hreferences⟩

end

mutual

theorem Expr.exists_moved {d : Shift} : (e : Expr) → (∀ a ∈ e.ownReferences, ∃ b, a.move? d = some b) →
    ∃ e', e.moved d = .ok e'
  | .number x, _ => ⟨.number x, rfl⟩
  | .text s, _ => ⟨.text s, rfl⟩
  | .truth b, _ => ⟨.truth b, rfl⟩
  | .cell none a, h => by
    obtain ⟨b, hb⟩ := h a (List.mem_cons_self ..)
    exact ⟨.cell none b, bind_eq_ok.mpr ⟨b, moveReference_eq_ok.mpr hb, rfl⟩⟩
  | .cell (some sheet) a, _ => ⟨.cell (some sheet) a, rfl⟩
  | .range none a b, h => by
    obtain ⟨start, hstart⟩ := h a (List.mem_cons_self ..)
    obtain ⟨stop, hstop⟩ := h b (List.mem_cons_of_mem _ (List.mem_cons_self ..))
    exact ⟨.range none start stop, bind_eq_ok.mpr ⟨start, moveReference_eq_ok.mpr hstart,
      bind_eq_ok.mpr ⟨stop, moveReference_eq_ok.mpr hstop, rfl⟩⟩⟩
  | .range (some sheet) a b, _ => ⟨.range (some sheet) a b, rfl⟩
  | .binary op l r, h => by
    obtain ⟨l', hl⟩ := Expr.exists_moved l fun a ha => h a (List.mem_append_left _ ha)
    obtain ⟨r', hr⟩ := Expr.exists_moved r fun a ha => h a (List.mem_append_right _ ha)
    exact ⟨.binary op l' r', bind_eq_ok.mpr ⟨l', hl, bind_eq_ok.mpr ⟨r', hr, rfl⟩⟩⟩
  | .negate e, h => by
    obtain ⟨e', he⟩ := Expr.exists_moved e h
    exact ⟨.negate e', bind_eq_ok.mpr ⟨e', he, rfl⟩⟩
  | .call name args, h => by
    obtain ⟨args', hargs⟩ := Expr.exists_movedAll args h
    exact ⟨.call name args', bind_eq_ok.mpr ⟨args', hargs, rfl⟩⟩

theorem Expr.exists_movedAll {d : Shift} : (args : List Expr) →
    (∀ a ∈ Expr.ownReferencesOf args, ∃ b, a.move? d = some b) → ∃ args', Expr.movedAll d args = .ok args'
  | [], _ => ⟨[], rfl⟩
  | e :: rest, h => by
    obtain ⟨e', he⟩ := Expr.exists_moved e fun a ha => h a (List.mem_append_left _ ha)
    obtain ⟨rest', hrest⟩ := Expr.exists_movedAll rest fun a ha => h a (List.mem_append_right _ ha)
    exact ⟨e' :: rest', bind_eq_ok.mpr ⟨e', he, bind_eq_ok.mpr ⟨rest', hrest, rfl⟩⟩⟩

end

/-! ## Two moves -/

theorem moveReference_moveReference {d : Shift} {a b : Address} (h : moveReference d a = .ok b) (d' : Shift)
    (c : Address) : moveReference d' b = .ok c ↔ moveReference (d + d') a = .ok c := by
  rw [moveReference_eq_ok, moveReference_eq_ok, Address.move?_move? (moveReference_eq_ok.mp h)]

mutual

theorem Expr.moved_moved {d d' : Shift} : (e e₁ : Expr) → e.moved d = .ok e₁ → (e₂ : Expr) →
    (e₁.moved d' = .ok e₂ ↔ e.moved (d + d') = .ok e₂)
  | .number _, e₁, h, e₂ => by
    obtain rfl := Except.ok.inj h
    exact Iff.rfl
  | .text _, e₁, h, e₂ => by
    obtain rfl := Except.ok.inj h
    exact Iff.rfl
  | .truth _, e₁, h, e₂ => by
    obtain rfl := Except.ok.inj h
    exact Iff.rfl
  | .cell none a, e₁, h, e₂ => by
    obtain ⟨b, hb, h⟩ := bind_eq_ok.mp h
    obtain rfl := Except.ok.inj h
    simp only [Expr.moved, bind_eq_ok, moveReference_moveReference hb]
  | .cell (some _) _, e₁, h, e₂ => by
    obtain rfl := Except.ok.inj h
    exact Iff.rfl
  | .range none a b, e₁, h, e₂ => by
    obtain ⟨start, hstart, h⟩ := bind_eq_ok.mp h
    obtain ⟨stop, hstop, h⟩ := bind_eq_ok.mp h
    obtain rfl := Except.ok.inj h
    simp only [Expr.moved, bind_eq_ok, moveReference_moveReference hstart, moveReference_moveReference hstop]
  | .range (some _) _ _, e₁, h, e₂ => by
    obtain rfl := Except.ok.inj h
    exact Iff.rfl
  | .binary op l r, e₁, h, e₂ => by
    obtain ⟨l₁, hl, h⟩ := bind_eq_ok.mp h
    obtain ⟨r₁, hr, h⟩ := bind_eq_ok.mp h
    obtain rfl := Except.ok.inj h
    simp only [Expr.moved, bind_eq_ok, Expr.moved_moved l l₁ hl, Expr.moved_moved r r₁ hr]
  | .negate e, e₁, h, e₂ => by
    obtain ⟨o₁, ho, h⟩ := bind_eq_ok.mp h
    obtain rfl := Except.ok.inj h
    simp only [Expr.moved, bind_eq_ok, Expr.moved_moved e o₁ ho]
  | .call name args, e₁, h, e₂ => by
    obtain ⟨args₁, hargs, h⟩ := bind_eq_ok.mp h
    obtain rfl := Except.ok.inj h
    simp only [Expr.moved, bind_eq_ok, Expr.movedAll_movedAll args args₁ hargs]

theorem Expr.movedAll_movedAll {d d' : Shift} : (args args₁ : List Expr) → Expr.movedAll d args = .ok args₁ →
    (args₂ : List Expr) → (Expr.movedAll d' args₁ = .ok args₂ ↔ Expr.movedAll (d + d') args = .ok args₂)
  | [], args₁, h, args₂ => by
    obtain rfl := Except.ok.inj h
    exact Iff.rfl
  | e :: rest, args₁, h, args₂ => by
    obtain ⟨e₁, he, h⟩ := bind_eq_ok.mp h
    obtain ⟨rest₁, hrest, h⟩ := bind_eq_ok.mp h
    obtain rfl := Except.ok.inj h
    simp only [Expr.movedAll, bind_eq_ok, Expr.moved_moved e e₁ he, Expr.movedAll_movedAll rest rest₁ hrest]

end

/-! ## The move by nothing -/

mutual

theorem Expr.moved_zero : (e : Expr) → (∀ a ∈ e.ownReferences, a.OnGrid) → e.moved .zero = .ok e
  | .number _, _ => rfl
  | .text _, _ => rfl
  | .truth _, _ => rfl
  | .cell none a, h => by
    have hmove : moveReference .zero a = .ok a :=
      moveReference_eq_ok.mpr (Address.move?_zero (h a (by simp [Expr.ownReferences])))
    rw [Expr.moved, hmove]
    rfl
  | .cell (some _) _, _ => rfl
  | .range none a b, h => by
    have hstart : moveReference .zero a = .ok a :=
      moveReference_eq_ok.mpr (Address.move?_zero (h a (by simp [Expr.ownReferences])))
    have hstop : moveReference .zero b = .ok b :=
      moveReference_eq_ok.mpr (Address.move?_zero (h b (by simp [Expr.ownReferences])))
    rw [Expr.moved, hstart, hstop]
    rfl
  | .range (some _) _ _, _ => rfl
  | .binary op l r, h => by
    rw [ownReferences, List.forall_mem_append] at h
    rw [Expr.moved, Expr.moved_zero l h.1, Expr.moved_zero r h.2]
    rfl
  | .negate e, h => by
    rw [Expr.moved, Expr.moved_zero e h]
    rfl
  | .call name args, h => by
    rw [Expr.moved, Expr.movedAll_zero args h]
    rfl

theorem Expr.movedAll_zero : (args : List Expr) → (∀ a ∈ Expr.ownReferencesOf args, a.OnGrid) →
    Expr.movedAll .zero args = .ok args
  | [], _ => rfl
  | e :: rest, h => by
    rw [Expr.ownReferencesOf, List.forall_mem_append] at h
    rw [Expr.movedAll, Expr.moved_zero e h.1, Expr.movedAll_zero rest h.2]
    rfl

end

theorem Expr.relocate_eq_moved_of_onGrid {e : Expr} (h : ∀ a ∈ e.ownReferences, a.OnGrid) (d : Shift) :
    e.relocate d = e.moved d := by
  rw [Expr.relocate]
  split
  next hzero =>
    obtain rfl : d = .zero := eq_of_beq hzero
    exact (e.moved_zero h).symm
  next => rfl

/-! ## Moves of formulas on the grid -/

variable {e e₁ : Expr} {d : Shift}

theorem Expr.onGrid_of_moved (he : ∀ a ∈ e.ownReferences, a.OnGrid) (h : e.moved d = .ok e₁) :
    ∀ b ∈ e₁.ownReferences, b.OnGrid := by
  intro b hb
  obtain ⟨a, ha, hmove⟩ := (Expr.moved_parts e e₁ h).2.exists_of_mem_right hb
  exact (he a ha).of_move? hmove

theorem Expr.moved_eq_error_iff :
    (∃ err, e.moved d = .error err) ↔ ∃ a ∈ e.ownReferences, a.LeavesGrid d := by
  constructor
  · rintro ⟨err, herr⟩
    refine Classical.byContradiction fun hstays => ?_
    obtain ⟨e₁, h⟩ := e.exists_moved fun a ha =>
      Option.ne_none_iff_exists'.mp fun hnone => hstays ⟨a, ha, Address.move?_eq_none_iff.mp hnone⟩
    rw [herr] at h
    cases h
  · rintro ⟨a, ha, hleaves⟩
    cases h : e.moved d with
    | error err => exact ⟨err, rfl⟩
    | ok e₁ =>
      obtain ⟨b, -, hmove⟩ := (Expr.moved_parts e e₁ h).2.exists_of_mem_left ha
      rw [Address.move?_eq_none_iff.mpr hleaves] at hmove
      cases hmove

/-- A formula can be moved unless the move takes one of its own references off the grid. Once it has been moved, a second
move is the move by the sum, so the move back gives the formula again; and the move has changed nothing but the axes
without anchors of its own references. -/
theorem relocate_relocate {e : Expr} (he : ∀ a ∈ e.ownReferences, a.OnGrid) (d : Shift) :
    ((∃ err, e.relocate d = .error err) ↔ ∃ a ∈ e.ownReferences, a.LeavesGrid d) ∧
      ∀ e₁, e.relocate d = .ok e₁ →
        (∀ d' e₂, e₁.relocate d' = .ok e₂ ↔ e.relocate (d + d') = .ok e₂) ∧ e₁.relocate (-d) = .ok e ∧
          e₁.erased = e.erased ∧ Aligned (Address.IsMoved d) e.ownReferences e₁.ownReferences := by
  rw [Expr.relocate_eq_moved_of_onGrid he]
  refine ⟨Expr.moved_eq_error_iff, fun e₁ h => ?_⟩
  have he₁ := Expr.onGrid_of_moved he h
  have hsum : ∀ d' e₂, e₁.relocate d' = .ok e₂ ↔ e.relocate (d + d') = .ok e₂ := by
    intro d' e₂
    rw [Expr.relocate_eq_moved_of_onGrid he₁, Expr.relocate_eq_moved_of_onGrid he]
    exact Expr.moved_moved e e₁ h e₂
  have hback : e.relocate (d + -d) = .ok e := by
    rw [Shift.add_neg, Expr.relocate_eq_moved_of_onGrid he]
    exact e.moved_zero he
  obtain ⟨herased, haligned⟩ := Expr.moved_parts e e₁ h
  exact ⟨hsum, (hsum (-d) e).mpr hback, herased, haligned.imp Address.isMoved_of_move?⟩

/-- `SUM(B3:$A2)+Other!C3*D$4` moved by a row and a column, and back; two rows above there is no such formula. -/
theorem relocate_relocate_sum :
    let e : Expr := .binary .add (.call "SUM" [.range none (.plain 3 1) ⟨2, 0, false, true⟩])
      (.binary .multiply (.cell (some "Other") (.plain 3 2)) (.cell none ⟨4, 3, true, false⟩))
    let e₁ : Expr := .binary .add (.call "SUM" [.range none (.plain 4 2) ⟨3, 0, false, true⟩])
      (.binary .multiply (.cell (some "Other") (.plain 3 2)) (.cell none ⟨4, 4, true, false⟩))
    (∀ a ∈ e.ownReferences, a.OnGrid) ∧ e.relocate ⟨1, 1⟩ = .ok e₁ ∧ e₁.relocate (-⟨1, 1⟩) = .ok e ∧
      ∃ err, e.relocate ⟨-2, 0⟩ = .error err := by
  intro e e₁
  have he : ∀ a ∈ e.ownReferences, a.OnGrid := by decide +kernel
  have hanchored : moveReference ⟨1, 1⟩ ⟨4, 3, true, false⟩ = .ok ⟨4, 4, true, false⟩ :=
    moveReference_eq_ok.mpr (by decide)
  have hmoved : e.relocate ⟨1, 1⟩ = .ok e₁ := by
    rw [Expr.relocate_eq_moved_of_onGrid he]
    simp only [e, Expr.moved, hanchored]
    rfl
  have hmem : ⟨2, 0, false, true⟩ ∈ e.ownReferences := by simp [e, Expr.ownReferences, Expr.ownReferencesOf]
  have hleaves : Address.LeavesGrid ⟨-2, 0⟩ ⟨2, 0, false, true⟩ := .inl ⟨rfl, by decide⟩
  have hfails := (relocate_relocate he ⟨-2, 0⟩).1.mpr ⟨_, hmem, hleaves⟩
  exact ⟨he, hmoved, ((relocate_relocate he ⟨1, 1⟩).2 e₁ hmoved).2.1, hfails⟩

end Spreadsheet.Formula
