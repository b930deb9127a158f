import Spreadsheet.Markup.Node

/-!
# Editing a tree

`Node.walk` shows the nodes of a tree to a visitor, parents before children and from left to right. The visitor
keeps a node, drops it or puts another in its place; the children of a kept node are visited, those of a dropped
or replaced one are not. The outcome says whether anything below a node was touched: an untouched tree is the same
tree, not a copy.
-/

set_option autoImplicit false

namespace Spreadsheet.Markup

/-- What a visitor wants done with a node. -/
inductive Edit where
  | keep
  | delete
  | replace (n : Node)

inductive Outcome where
  | untouched
  | deleted
  | changed (n : Node)

def Outcome.apply (n : Node) : Outcome → Option Node
  | untouched => some n
  | deleted => none
  | changed m => some m

namespace Node

mutual

def walk {σ : Type} (visit : σ → Node → Edit × σ) (s : σ) : Node → Outcome × σ
  | document cs =>
    match visit s (document cs) with
    | (.delete, s) => (.deleted, s)
    | (.replace m, s) => (.changed m, s)
    | (.keep, s) =>
      match walkAll visit s cs with
      | (some ds, s) => (.changed (document ds), s)
      | (none, s) => (.untouched, s)
  | element t cs =>
    match visit s (element t cs) with
    | (.delete, s) => (.deleted, s)
    | (.replace m, s) => (.changed m, s)
    | (.keep, s) =>
      match walkAll visit s cs with
      | (some ds, s) => (.changed (element t ds), s)
      | (none, s) => (.untouched, s)
  | text a => ofLeaf (visit s (text a))
  | comment a => ofLeaf (visit s (comment a))
  | cdata a => ofLeaf (visit s (cdata a))
  | declaration a => ofLeaf (visit s (declaration a))
  | instruction a => ofLeaf (visit s (instruction a))
  | doctype a => ofLeaf (visit s (doctype a))
where
  ofLeaf {σ : Type} : Edit × σ → Outcome × σ
    | (.keep, s) => (.untouched, s)
    | (.delete, s) => (.deleted, s)
    | (.replace m, s) => (.changed m, s)

/-- Shows trees to a visitor, one after the other; no list means that none of them was touched. -/
def walkAll {σ : Type} (visit : σ → Node → Edit × σ) (s : σ) : List Node → Option (List Node) × σ
  | [] => (none, s)
  | n :: rest =>
    let (outcome, s) := walk visit s n
    let (others, s) := walkAll visit s rest
    match outcome, others with
    | .untouched, none => (none, s)
    | .untouched, some ds => (some (n :: ds), s)
    | .deleted, ds => (some (ds.getD rest), s)
    | .changed m, ds => (some (m :: ds.getD rest), s)

end

/-- The part after a visit, whether it is still the same tree, and the visitor's last state. A deleted part
leaves an empty one. -/
def edited {σ : Type} (visit : σ → Node → Edit × σ) (s : σ) (n : Node) : Node × Bool × σ :=
  match n.walk visit s with
  | (.untouched, s) => (n, true, s)
  | (.deleted, s) => (document [], false, s)
  | (.changed m, s) => (m, false, s)

def modifyAt (f : Node → Node) : Nat → List Node → List Node
  | _, [] => []
  | 0, n :: rest => f n :: rest
  | i + 1, n :: rest => n :: modifyAt f i rest

/-- A tree with another node at the end of a path of child positions. -/
def replaceAt (new : Node) : List Nat → Node → Node
  | [], _ => new
  | i :: path, n => n.withChildren (modifyAt (replaceAt new path) i n.children)

end Node

end Spreadsheet.Markup
