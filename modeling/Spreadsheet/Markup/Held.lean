import Spreadsheet.Markup.Edit

/-!
# Trees in memory

A tree in memory is made of nodes that are held at places. An edit never writes to a place: a node above a dropped or replaced one
is built anew at a free place, and all other nodes are taken over as they are. Whether two trees are the same is decided by their
places alone.

* `Held`: a node in memory, and `Held.erase`: the same without its places.
* `Held.Answer`: what a visitor wants done with a node.
* `Held.walk`: a visit to a tree. A node is built anew when a child has come back from another place, or not at all.
* `Held.edited`: the tree after a visit.
-/

set_option autoImplicit false

namespace Spreadsheet.Markup

/-! ## Nodes in memory -/

def Node.IsLeaf (n : Node) : Prop := ∀ cs, n.withChildren cs = n

theorem Node.isLeaf_text (s : String) : (Node.text s).IsLeaf := fun _ => rfl

/-- A node that is held at a place in memory, as are its children. -/
inductive Held where
  | parent (place : Nat) (tag : Option Tag) (children : List Held)
  | leaf (place : Nat) (n : Node) (h : n.IsLeaf)

namespace Held

def place : Held → Nat
  | parent place _ _ => place
  | leaf place _ _ => place

/-- Two trees are the same if they are held at the same place. -/
def isSame (h k : Held) : Bool := h.place == k.place

def children : Held → List Held
  | parent _ _ cs => cs
  | leaf _ _ _ => []

/-- The node with other children; a node that has none is kept. -/
def withChildren : Held → List Held → Held
  | parent place tag _, cs => parent place tag cs
  | leaf place n h, _ => leaf place n h

/-- The node at another place; its children stay where they are. -/
def moveTo (place : Nat) : Held → Held
  | parent _ tag cs => parent place tag cs
  | leaf _ n h => leaf place n h

theorem withChildren_self (h : Held) : h.withChildren h.children = h := by
  cases h <;> rfl

theorem moveTo_self (h : Held) : h.moveTo h.place = h := by
  cases h <;> rfl

theorem place_moveTo (h : Held) (place : Nat) : (h.moveTo place).place = place := by
  cases h <;> rfl

theorem children_moveTo (h : Held) (place : Nat) : (h.moveTo place).children = h.children := by
  cases h <;> rfl

mutual

def erase : Held → Node
  | parent _ none cs => .document (eraseAll cs)
  | parent _ (some t) cs => .element t (eraseAll cs)
  | leaf _ n _ => n

def eraseAll : List Held → List Node
  | [] => []
  | h :: rest => h.erase :: eraseAll rest

end

def at? (h : Held) : List Nat → Option Held
  | [] => some h
  | i :: path => h.children[i]?.bind fun c => c.at? path

/-- All nodes of a tree are held below the first free place. -/
def IsBelow (h : Held) (free : Nat) : Prop := ∀ path k, h.at? path = some k → k.place < free

/-! ## A visit -/

/-- What a visitor wants done with a node. -/
inductive Answer where
  | keep
  | delete
  | replace (h : Held)

def Answer.erase : Answer → Edit
  | keep => .keep
  | delete => .delete
  | replace h => .replace h.erase

abbrev Visitor (σ : Type) : Type := σ → Held → Answer × σ

/-- What becomes of a node that is kept: it is built anew at the first free place if something has changed among its children. -/
def finish (h : Held) (free : Nat) : List Held × Bool → Option Held × Nat
  | (cs, true) => (some ((h.withChildren cs).moveTo free), free + 1)
  | (_, false) => (some h, free)

/-- What becomes of children of which the first one is `c`: a child that has another place, or none, is a change. -/
def joined (c : Held) : Option Held → List Held × Bool → List Held × Bool
  | some new, (rest, changed) => (new :: rest, new.place != c.place || changed)
  | none, (rest, _) => (rest, true)

mutual

/-- Shows a tree to a visitor, a node before its children. Nothing is left of a tree that is deleted. -/
def walk {σ : Type} (visit : Visitor σ) (s : σ) (free : Nat) : Held → (Option Held × Nat) × σ
  | parent place tag cs =>
    match visit s (parent place tag cs) with
    | (.delete, s) => ((none, free), s)
    | (.replace k, s) => ((some (k.moveTo free), free + 1), s)
    | (.keep, s) =>
      match walkAll visit s free cs with
      | ((rewritten, free), s) => (finish (parent place tag cs) free rewritten, s)
  | leaf place n h =>
    match visit s (leaf place n h) with
    | (.delete, s) => ((none, free), s)
    | (.replace k, s) => ((some (k.moveTo free), free + 1), s)
    | (.keep, s) => ((some (leaf place n h), free), s)

/-- Shows trees to a visitor, one after the other, and notes whether something has changed. -/
def walkAll {σ : Type} (visit : Visitor σ) (s : σ) (free : Nat) : List Held → ((List Held × Bool) × Nat) × σ
  | [] => ((([], false), free), s)
  | c :: cs =>
    match walk visit s free c with
    | ((new, free), s) =>
      match walkAll visit s free cs with
      | ((rewritten, free), s) => ((joined c new rewritten, free), s)

end

/-- The tree after a visit, and the visitor's last state. A tree that is deleted leaves an empty part. -/
def edited {σ : Type} (visit : Visitor σ) (s : σ) (free : Nat) (h : Held) : Held × σ :=
  match h.walk visit s free with
  | ((new, free), s) => (new.getD (parent free none []), s)

theorem walk_eq {σ : Type} (visit : Visitor σ) (s : σ) (free : Nat) (h : Held) :
    h.walk visit s free =
      match visit s h with
      | (.delete, s) => ((none, free), s)
      | (.replace k, s) => ((some (k.moveTo free), free + 1), s)
      | (.keep, s) =>
        match walkAll visit s free h.children with
        | ((rewritten, free), s) => (finish h free rewritten, s) := by
  cases h <;> rfl

end Held

end Spreadsheet.Markup
