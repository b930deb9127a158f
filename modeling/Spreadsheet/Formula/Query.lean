import Spreadsheet.Formula.Expr
import Spreadsheet.Value.Basic

/-!
# Queries

Evaluating a formula is a dialogue: it asks for one cell after the other and ends with a value or an error.
`Query` is that dialogue as a tree, so what is asked, in which order, and what depends on which answer are facts
about a value.

* `Query.bind`: continue with the result of a dialogue.
* `Query.readBlock`: ask for the cells of a block, row by row.
* `Query.run`: hold the dialogue with someone who answers. An answer that is an error ends it.
-/

set_option autoImplicit false

namespace Spreadsheet.Formula

open Grid

/-- A dialogue that asks for cells and ends with a result or an error. -/
inductive Query (α : Type) where
  | done (result : α)
  | fail (error : Error)
  /-- Asks for a cell, of another sheet when one is named, and goes on with its value. -/
  | ask (sheet : Option String) (address : Address) (next : Value → Query α)

namespace Query

def bind {α β : Type} (q : Query α) (f : α → Query β) : Query β :=
  match q with
  | .done a => f a
  | .fail e => .fail e
  | .ask sheet address next => .ask sheet address fun v => (next v).bind f

instance : Monad Query where
  pure := .done
  bind := bind

def read (sheet : Option String) (address : Address) : Query Value := .ask sheet address .done

/-- The values of cells of one sheet after those that have been read already, which stand last first. -/
def readAfter (sheet : Option String) (known : List Value) : List Address → Query (List Value)
  | [] => .done known.reverse
  | a :: rest => .ask sheet a fun v => readAfter sheet (v :: known) rest

def readAll (sheet : Option String) (cells : List Address) : Query (List Value) := readAfter sheet [] cells

/-- The values of the next `count` cells of a block from a row and a column on, after those that have been read
already. A cell is reached only when the one before has been answered, so a block that is never asked for costs
nothing. -/
def readBlockAfter (sheet : Option String) (r : Rect) (known : List Value) :
    Nat → UInt32 → UInt32 → Query (List Value)
  | 0, _, _ => .done known.reverse
  | count + 1, row, column =>
    .ask sheet (.plain row column) fun v =>
      readBlockAfter sheet r (v :: known) count (r.next row column).1 (r.next row column).2

def readBlock (sheet : Option String) (r : Rect) : Query (List Value) :=
  readBlockAfter sheet r [] r.size r.first.row r.first.column

theorem readBlockAfter_eq (sheet : Option String) (r : Rect) (known : List Value) (count : Nat)
    (row column : UInt32) :
    readBlockAfter sheet r known count row column = readAfter sheet known (r.cellsFrom count row column) := by
  induction count generalizing known row column with
  | zero => rfl
  | succ count ih => simp only [readBlockAfter, Rect.cellsFrom, readAfter, ih]

theorem readBlock_eq (sheet : Option String) (r : Rect) : readBlock sheet r = readAll sheet r.cells :=
  readBlockAfter_eq sheet r [] r.size r.first.row r.first.column

/-- Holds the dialogue with someone who answers each question with a value or an error. -/
def run {α : Type} {m : Type → Type} [Monad m] (answer : Option String → Address → m (Except Error Value)) :
    Query α → m (Except Error α)
  | .done a => pure (.ok a)
  | .fail e => pure (.error e)
  | .ask sheet address next => do
    match ← answer sheet address with
    | .ok v => (next v).run answer
    | .error e => pure (.error e)

end Query

end Spreadsheet.Formula
