import Spreadsheet.Markup.Edit

/-! # Nodes at the end of paths

A path of child positions leads from the top of a tree to one of its nodes. Another node may be put there; what is not below
the place is the same as before.

* `Node.at?`: the node at the end of a path.
* `Node.DiffersAt`: a tree that differs from another one only at some places.
* `at?_replaceAt_self`: what is found at the place; `differsAt_replaceAt`: what is found elsewhere.
* `replaceAt_self`: the node at the end of a path in its own place. -/

set_option autoImplicit false

namespace Spreadsheet.Markup.Node

def at? (n : Node) : List Nat → Option Node
  | [] => some n
  | i :: path => n.children[i]?.bind fun m => m.at? path

def bare (n : Node) : Node := n.withChildren []

theorem withChildren_self (n : Node) : n.withChildren n.children = n := by
  cases n <;> rfl

theorem bare_withChildren (n : Node) (cs : List Node) : (n.withChildren cs).bare = n.bare := by
  cases n <;> rfl

/-! ## Children at a position -/

theorem modifyAt_eq_self {f : Node → Node} {i : Nat} {ns : List Node} {n : Node} (hn : ns[i]? = some n) (hf : f n = n) :
    modifyAt f i ns = ns := by
  induction ns generalizing i with
  | nil => cases hn
  | cons m ns ih =>
    cases i with
    | zero =>
      obtain rfl : m = n := Option.some.inj hn
      rw [modifyAt, hf]
    | succ i => rw [modifyAt, ih hn]

theorem getElem?_modifyAt (f : Node → Node) (i j : Nat) (ns : List Node) :
    (modifyAt f i ns)[j]? = if i = j then ns[j]?.map f else ns[j]? := by
  induction ns generalizing i j with
  | nil => cases i <;> simp [modifyAt]
  | cons n ns ih =>
    cases i with
    | zero => cases j <;> simp [modifyAt]
    | succ i =>
      cases j with
      | zero => simp [modifyAt]
      | succ j =>
        rw [modifyAt, List.getElem?_cons_succ, List.getElem?_cons_succ, ih]
        simp only [Nat.add_right_cancel_iff]

theorem children_modifyAt (n : Node) (f : Node → Node) (i : Nat) :
    (n.withChildren (modifyAt f i n.children)).children = modifyAt f i n.children := by
  have hnil : modifyAt f i [] = [] := by cases i <;> rfl
  cases n with
  | document cs => rfl
  | element t cs => rfl
  | _ => exact hnil.symm

/-! ## Another node at a place -/

variable {new n : Node} {path q : List Nat}

theorem at?_replaceAt_cons (new n : Node) (i j : Nat) (path q : List Nat) :
    (replaceAt new (i :: path) n).at? (j :: q) =
      if i = j then n.children[j]?.bind fun m => (replaceAt new path m).at? q else n.at? (j :: q) := by
  rw [replaceAt, at?, children_modifyAt, getElem?_modifyAt]
  split
  · rw [Option.bind_map]
    rfl
  · rfl

theorem replaceAt_self {path : List Nat} {n m : Node} (h : n.at? path = some m) : replaceAt m path n = n := by
  induction path generalizing n with
  | nil => exact (Option.some.inj h).symm
  | cons i path ih =>
    obtain ⟨child, hchild, hm⟩ := Option.bind_eq_some_iff.mp h
    rw [replaceAt, modifyAt_eq_self hchild (ih hm), withChildren_self]

theorem at?_replaceAt_self (h : (n.at? path).isSome = true) : (replaceAt new path n).at? path = some new := by
  induction path generalizing n with
  | nil => rfl
  | cons i path ih =>
    obtain ⟨m, hm⟩ := Option.isSome_iff_exists.mp h
    obtain ⟨child, hchild, hm⟩ := Option.bind_eq_some_iff.mp hm
    rw [at?_replaceAt_cons, if_pos rfl, hchild]
    exact ih (Option.isSome_of_eq_some hm)

/-- A tree that differs from another one only at some places. -/
structure DiffersAt (places : List (List Nat)) (old new : Node) : Prop where
  /-- What is neither above nor below one of the places is the same. -/
  beside : ∀ {q}, (∀ p ∈ places, ¬p <+: q ∧ ¬q <+: p) → new.at? q = old.at? q
  /-- What is above one of the places is the same but for what is below it. -/
  above : ∀ {q}, (∀ p ∈ places, ¬p <+: q) → (new.at? q).map bare = (old.at? q).map bare

theorem DiffersAt.refl (n : Node) : DiffersAt [] n n := ⟨fun _ => rfl, fun _ => rfl⟩

theorem DiffersAt.trans {places places' : List (List Nat)} {a b c : Node} (h : DiffersAt places a b)
    (h' : DiffersAt places' b c) : DiffersAt (places ++ places') a c where
  beside hq := (h'.beside fun p hp => hq p (List.mem_append_right _ hp)).trans
    (h.beside fun p hp => hq p (List.mem_append_left _ hp))
  above hq := (h'.above fun p hp => hq p (List.mem_append_right _ hp)).trans
    (h.above fun p hp => hq p (List.mem_append_left _ hp))

theorem at?_replaceAt_of_beside (h : ¬path <+: q) (h' : ¬q <+: path) : (replaceAt new path n).at? q = n.at? q := by
  induction path generalizing n q with
  | nil => exact absurd List.nil_prefix h
  | cons i path ih =>
    cases q with
    | nil => exact absurd List.nil_prefix h'
    | cons j q =>
      rw [at?_replaceAt_cons]
      split
      next heq =>
        subst heq
        rw [List.cons_prefix_cons, and_iff_right rfl] at h h'
        rw [at?]
        congr 1
        funext m
        exact ih h h'
      next => rfl

theorem bare_at?_replaceAt (h : ¬path <+: q) : ((replaceAt new path n).at? q).map bare = (n.at? q).map bare := by
  induction path generalizing n q with
  | nil => exact absurd List.nil_prefix h
  | cons i path ih =>
    cases q with
    | nil => exact congrArg some (bare_withChildren n _)
    | cons j q =>
      rw [at?_replaceAt_cons]
      split
      next heq =>
        subst heq
        rw [List.cons_prefix_cons, and_iff_right rfl] at h
        rw [at?, Option.map_bind, Option.map_bind]
        congr 1
        funext m
        exact ih h
      next => rfl

theorem differsAt_replaceAt (new : Node) (path : List Nat) (n : Node) : DiffersAt [path] n (replaceAt new path n) where
  beside hq := by
    obtain ⟨h, h'⟩ := hq path (List.mem_singleton_self path)
    exact at?_replaceAt_of_beside h h'
  above hq := bare_at?_replaceAt (hq path (List.mem_singleton_self path))

end Spreadsheet.Markup.Node
