import Spreadsheet.Proofs.Book.Requests
import Mathlib.Logic.Function.Iterate

/-! # Evaluation step by step

The evaluator is a recursion whose depth a number bounds. The machine here has no such bound: the formulas that wait for
a value stand in a list, and one step asks for one cell, goes on with one dialogue or hands over one result.

* `Machine.step`: one step. A result that nobody waits for stays as it is.
* `Machine.Reaches`: what a machine comes to.
* `Machine.reaches_evalWithin`: the machine comes to the result of the evaluator, and leaves the same book. -/

set_option autoImplicit false

namespace Spreadsheet.Book

open Grid

/-- What an evaluation is about to do. -/
inductive Task where
  | call (name : String) (a : Address) (force : Bool)
  | hold (f : Frame) (q : Formula.Query Value)
  /-- To hand over the result for the cell that has been asked for. -/
  | answer (r : Except Error Value)

/-- A cell whose formula has asked for a value, and how the formula goes on with it. -/
structure Waiting where
  frame : Frame
  next : Value → Formula.Query Value

/-- An evaluation between two steps. The formulas that wait stand innermost first. -/
structure Machine where
  task : Task
  waiting : List Waiting
  book : Book

namespace Machine

/-- What is done for a cell that is asked for: its sheet is read, and if its formula has to be evaluated the cell waits
from now on. -/
def called (name : String) (a : Address) (force : Bool) (b : Book) : Task × Book :=
  let f : Frame := ⟨name, a.unanchored⟩
  let c := b.loaded name
  match b.found name with
  | .error e => (.answer (.error e), c)
  | .ok s =>
    match Session.plan s c.strings f.address force with
    | .error e => (.answer (.error (.formula e)), c)
    | .ok (.known v) => (.answer (.ok v), c)
    | .ok (.compute e) =>
      if c.evaluating.contains f then (.answer (.error (Session.cycle f)), c)
      else (.hold f (e.query f.address), Session.pushed c f)

/-- What is done when a formula has ended: its cell waits no longer, and a value is kept for it. -/
def ended (f : Frame) (r : Except Formula.Error Value) (b : Book) : Task × Book :=
  let result := Session.kept f.sheet f.address (r, Session.popped b)
  (.answer result.1, result.2)

def step : Machine → Machine
  | ⟨.call name a force, waiting, b⟩ => ⟨(called name a force b).1, waiting, (called name a force b).2⟩
  | ⟨.hold f (.done v), waiting, b⟩ => ⟨(ended f (.ok v) b).1, waiting, (ended f (.ok v) b).2⟩
  | ⟨.hold f (.fail e), waiting, b⟩ => ⟨(ended f (.error e) b).1, waiting, (ended f (.error e) b).2⟩
  | ⟨.hold f (.ask sheet a next), waiting, b⟩ => ⟨.call (sheet.getD f.sheet) a true, ⟨f, next⟩ :: waiting, b⟩
  | ⟨.answer (.ok v), ⟨f, next⟩ :: waiting, b⟩ => ⟨.hold f (next v), waiting, b⟩
  | ⟨.answer (.error e), ⟨f, _⟩ :: waiting, b⟩ =>
    ⟨(ended f (.error (Session.asFormulaError e)) b).1, waiting, (ended f (.error (Session.asFormulaError e)) b).2⟩
  | ⟨.answer r, [], b⟩ => ⟨.answer r, [], b⟩

/-- The machine that is about to look up a cell of a book. -/
def start (name : String) (a : Address) (force : Bool) (b : Book) : Machine := ⟨.call name a force, [], b⟩

/-- The formula of a cell is about to ask for a cell. -/
def Asks (m : Machine) (f g : Frame) : Prop :=
  ∃ sheet a next, m.task = .hold f (.ask sheet a next) ∧ g = ⟨sheet.getD f.sheet, a.unanchored⟩

/-- What a machine comes to in some number of steps. -/
def Reaches (m m' : Machine) : Prop := ∃ n, step^[n] m = m'

theorem Reaches.refl (m : Machine) : Reaches m m := ⟨0, rfl⟩

theorem Reaches.head {m m' : Machine} (h : Reaches m.step m') : Reaches m m' := by
  obtain ⟨n, hn⟩ := h
  exact ⟨n + 1, hn⟩

theorem Reaches.trans {m m' m'' : Machine} (h : Reaches m m') (h' : Reaches m' m'') : Reaches m m'' := by
  obtain ⟨n, rfl⟩ := h
  obtain ⟨k, rfl⟩ := h'
  exact ⟨k + n, Function.iterate_add_apply step k n m⟩

/-! ## The machine and the evaluator -/

variable {b : Book}

/-- A dialogue is held to its end if every cell that it asks for is looked up. -/
theorem reaches_computed {limit : Nat} (hcall : ∀ {name a c w}, Extends b c → b.HasRoom limit c.evaluating →
      Reaches ⟨.call name a true, w, c⟩ ⟨.answer ((Session.evalWithin limit name a true).run c).1, w,
        ((Session.evalWithin limit name a true).run c).2⟩)
    (f : Frame) (q : Formula.Query Value) {c : Book} {w : List Waiting} (hc : Extends b c)
    (hroom : b.HasRoom limit c.evaluating) :
    let result := Formula.Query.run (m := StateM Book) (Session.cachedAnswer limit f.sheet) q c
    Reaches ⟨.hold f q, w, c⟩ ⟨(ended f result.1 result.2).1, w, (ended f result.1 result.2).2⟩ := by
  induction q generalizing c with
  | done v => exact ⟨1, rfl⟩
  | fail e => exact ⟨1, rfl⟩
  | ask sheet a next ih =>
    dsimp only
    rw [Formula.Query.run_ask_state]
    refine Reaches.head ((hcall hc hroom).trans ?_)
    have hadvances := (Session.evalWithin_sound limit (sheet.getD f.sheet) a true hc).1
    unfold Session.cachedAnswer
    cases hresult : (Session.evalWithin limit (sheet.getD f.sheet) a true).run c with
    | mk r d =>
      rw [hresult] at hadvances
      cases r with
      -- The look-up has left the stack as it found it, so there is room for the next one.
      | ok v => exact Reaches.head (ih v hadvances.extension (hadvances.evaluating ▸ hroom))
      | error e => exact ⟨1, rfl⟩

theorem reaches_evalWithin (hb : b.IsConsistent) (limit : Nat) {name : String} {a : Address} {force : Bool} {c : Book}
    {w : List Waiting} (hc : Extends b c) (hroom : b.HasRoom limit c.evaluating) :
    Reaches ⟨.call name a force, w, c⟩ ⟨.answer ((Session.evalWithin limit name a force).run c).1, w,
      ((Session.evalWithin limit name a force).run c).2⟩ := by
  -- The room is what the bound on the depth is for: it never runs out before the cells that may wait.
  induction limit generalizing name a force c w with
  | zero => exact absurd hroom.pos (Nat.lt_irrefl 0)
  | succ limit ih =>
    refine Reaches.head ?_
    rw [Session.run_evalWithin]
    unfold step called
    dsimp only
    cases hfound : c.found name with
    | error e => exact .refl _
    | ok t =>
      dsimp only
      cases hplan : Session.plan t (c.loaded name).strings a.unanchored force with
      | error e => exact .refl _
      | ok p =>
        cases p with
        | known v => exact .refl _
        | compute e =>
          dsimp only
          split
          next => exact .refl _
          next hwaits =>
            have hload := hc.advances_loaded name
            have htl : (c.loaded name).found name = .ok t := (found_loaded c name name).trans hfound
            obtain ⟨s, hs, hcompute⟩ := Session.exists_compute hload.extension htl hplan
            have hframe : b.IsFrame ⟨name, a.unanchored⟩ := Session.isFrame_of_plan hb hs hcompute
            have hnew : (⟨name, a.unanchored⟩ : Frame) ∉ (c.loaded name).evaluating := by simpa using hwaits
            have hpushed : b.HasRoom limit (Session.pushed (c.loaded name) ⟨name, a.unanchored⟩).evaluating := by
              refine HasRoom.push ?_ hframe hnew
              rw [hload.evaluating]
              exact hroom
            exact reaches_computed (fun hd hroom => ih hd hroom) ⟨name, a.unanchored⟩ (e.query a.unanchored)
              (hload.extension.pushed _) hpushed

end Machine

end Spreadsheet.Book
