import Spreadsheet.Proofs.Markup.Calls

/-! # What an edited tree shares with the original

The answers of a visitor decide what becomes of a tree: what it is, and which of its nodes are taken over from the original.

* `Held.Keeps`: all answers in a tree are to keep. `remade_cases`: such a tree is taken over, and any other is not.
* `Held.newPath`: the path to a node in the new tree. `at?_remade`: a subtree in which all answers are to keep is found there.
* `Node.rebuilt`: a plain tree for given edits. `erase_remade`: what the new tree is.
* `edited_erase`: an edit of a plain tree is an edit of a tree in memory without the places.
* `isEdited_edited`: all of this for any visitor. -/

set_option autoImplicit false

namespace Spreadsheet.Markup

namespace Held

/-! ## What is taken over -/

section

variable {answer : List Nat → Answer} {answers : Nat → List Nat → Answer} {free free' i : Nat} {path : List Nat} {h k c : Held}
  {cs : List Held}

theorem IsBelow.place_lt (hb : h.IsBelow free) : h.place < free := hb [] h rfl

theorem IsBelow.ne_place {place : Nat} (hb : h.IsBelow free) (hle : free ≤ place) : place ≠ h.place :=
  Nat.ne_of_gt (Nat.lt_of_lt_of_le hb.place_lt hle)

theorem IsBelow.mono (hb : h.IsBelow free) (hle : free ≤ free') : h.IsBelow free' :=
  fun path k hk => Nat.lt_of_lt_of_le (hb path k hk) hle

theorem isBelow_iff : h.IsBelow free ↔ h.place < free ∧ ∀ c ∈ h.children, c.IsBelow free := by
  constructor
  · refine fun hb => ⟨hb.place_lt, fun c hc path k hk => ?_⟩
    obtain ⟨i, hi⟩ := List.mem_iff_getElem?.mp hc
    exact hb (i :: path) k (Option.bind_eq_some_iff.mpr ⟨c, hi, hk⟩)
  · rintro ⟨hplace, hchildren⟩ path k hk
    cases path with
    | nil =>
      obtain rfl := Option.some.inj hk
      exact hplace
    | cons i path =>
      obtain ⟨c, hc, hk⟩ := Option.bind_eq_some_iff.mp hk
      exact hchildren c (List.mem_of_getElem? hc) path k hk

@[simp]
theorem isBelow_parent {place : Nat} {tag : Option Tag} :
    (parent place tag cs).IsBelow free ↔ place < free ∧ ∀ c ∈ cs, c.IsBelow free := isBelow_iff

@[simp]
theorem isBelow_leaf {place : Nat} {n : Node} {hn : n.IsLeaf} : (leaf place n hn).IsBelow free ↔ place < free :=
  isBelow_iff.trans (and_iff_left fun _ hc => absurd hc List.not_mem_nil)

/-- All answers in a tree are to keep. -/
def Keeps (h : Held) (answer : List Nat → Answer) : Prop := ∀ call ∈ h.calls answer, call.answer = .keep

/-- All answers in several trees are to keep. -/
def KeepsAll (cs : List Held) (answers : Nat → List Nat → Answer) : Prop := ∀ call ∈ callsAll answers cs, call.answer = .keep

theorem keepsAll_nil : KeepsAll [] answers := fun _ hcall => nomatch hcall

theorem keepsAll_cons : KeepsAll (c :: cs) answers ↔ c.Keeps (answers 0) ∧ KeepsAll cs fun i => answers (i + 1) := by
  rw [KeepsAll, callsAll, List.forall_mem_append, List.forall_mem_map, List.forall_mem_map]
  rfl

theorem keeps_iff : h.Keeps answer ↔ answer [] = .keep ∧ KeepsAll h.children fun i path => answer (i :: path) := by
  rw [Keeps, calls_eq, List.forall_mem_cons]
  refine and_congr_right fun hkeep => ?_
  dsimp only at hkeep
  rw [hkeep]
  rfl

/-- A tree is taken over if all answers are to keep. Otherwise nothing is left of it, or a tree at a place that was free. -/
def IsTaken (h : Held) (answer : List Nat → Answer) (free : Nat) : Prop :=
  (h.Keeps answer ∧ h.remade answer free = (some h, free)) ∨
    (¬h.Keeps answer ∧ free ≤ (h.remade answer free).2 ∧ ∀ new ∈ (h.remade answer free).1, free ≤ new.place)

theorem remadeAll_cases (answers : Nat → List Nat → Answer) (ih : ∀ c ∈ cs, ∀ answer free, c.IsBelow free →
    c.IsTaken answer free) (hb : ∀ c ∈ cs, c.IsBelow free) :
    (KeepsAll cs answers ∧ remadeAll answers free cs = ((cs, false), free)) ∨
      (¬KeepsAll cs answers ∧ (remadeAll answers free cs).1.2 = true ∧ free ≤ (remadeAll answers free cs).2) := by
  induction cs generalizing answers free with
  | nil => exact .inl ⟨keepsAll_nil, rfl⟩
  | cons c cs ihcs =>
    rw [List.forall_mem_cons] at ih hb
    rw [keepsAll_cons, remadeAll]
    obtain ⟨hkeeps, hremade⟩ | ⟨hkeeps, hle, hplace⟩ := ih.1 (answers 0) free hb.1
    · rw [hremade]
      dsimp only
      obtain ⟨hall, hremadeAll⟩ | ⟨hall, hchanged, hle⟩ := ihcs (fun i => answers (i + 1)) ih.2 hb.2
      · rw [hremadeAll]
        refine .inl ⟨⟨hkeeps, hall⟩, ?_⟩
        rw [joined, bne_self_eq_false, Bool.false_or]
      · refine .inr ⟨fun hboth => hall hboth.2, ?_, hle⟩
        rw [joined, hchanged, Bool.or_true]
    · generalize c.remade (answers 0) free = made at hle hplace
      obtain ⟨new, free'⟩ := made
      dsimp only at hle hplace ⊢
      refine .inr ⟨fun hboth => hkeeps hboth.1, ?_, Nat.le_trans hle ?_⟩
      · cases new with
        | none => rfl
        | some new =>
          rw [joined, bne_iff_ne.mpr (hb.1.ne_place (hplace new rfl)), Bool.true_or]
      · obtain ⟨-, hremadeAll⟩ | ⟨-, -, hle⟩ :=
          ihcs (fun i => answers (i + 1)) ih.2 fun d hd => (hb.2 d hd).mono hle
        · exact Nat.le_of_eq (congrArg Prod.snd hremadeAll).symm
        · exact hle

theorem remade_cases (answer : List Nat → Answer) (hb : h.IsBelow free) : h.IsTaken answer free := by
  induction h using forall_of_children generalizing answer free with
  | node h ih =>
    rw [IsTaken, keeps_iff, remade_eq]
    cases answer [] with
    | delete => exact .inr ⟨fun hkeep => (nomatch hkeep.1), Nat.le_refl free, fun _ hnew => nomatch hnew⟩
    | replace k =>
      refine .inr ⟨fun hkeep => (nomatch hkeep.1), Nat.le_succ free, fun new hnew => ?_⟩
      obtain rfl := Option.some.inj hnew
      exact Nat.le_of_eq (place_moveTo k free).symm
    | keep =>
      dsimp only
      rw [and_iff_right rfl]
      obtain ⟨hall, hremadeAll⟩ | ⟨hall, hchanged, hle⟩ :=
        remadeAll_cases (fun i path => answer (i :: path)) (fun c hc answer _ => ih c hc answer) (isBelow_iff.mp hb).2
      · rw [hremadeAll]
        exact .inl ⟨hall, rfl⟩
      · generalize remadeAll (fun i path => answer (i :: path)) free h.children = made at hchanged hle
        obtain ⟨⟨rewritten, _⟩, free'⟩ := made
        obtain rfl := hchanged
        refine .inr ⟨hall, Nat.le_succ_of_le hle, fun new hnew => ?_⟩
        obtain rfl := Option.some.inj hnew
        rw [place_moveTo]
        exact hle

/-- What becomes of a node that is kept, whether or not something has changed among its children. -/
theorem remade_of_keep (hb : h.IsBelow free) (hkeep : answer [] = .keep) : ∃ place, (h.remade answer free).1 =
    some ((h.withChildren (remadeAll (fun i path => answer (i :: path)) free h.children).1.1).moveTo place) := by
  rw [remade_eq, hkeep]
  dsimp only
  obtain ⟨-, hremadeAll⟩ | ⟨-, hchanged, -⟩ :=
    remadeAll_cases (fun i path => answer (i :: path)) (fun _ _ answer _ => remade_cases answer) (isBelow_iff.mp hb).2
  · rw [hremadeAll]
    refine ⟨h.place, ?_⟩
    rw [withChildren_self, moveTo_self]
    rfl
  · generalize remadeAll (fun i path => answer (i :: path)) free h.children = made at hchanged
    obtain ⟨⟨rewritten, _⟩, free'⟩ := made
    obtain rfl := hchanged
    exact ⟨free', rfl⟩

theorem joined_fst (c : Held) (new : Option Held) (rewritten : List Held × Bool) :
    (joined c new rewritten).1 = new.toList ++ rewritten.1 := by
  cases new <;> rfl

theorem remadeAll_cons (answers : Nat → List Nat → Answer) (free : Nat) (c : Held) (cs : List Held) :
    (remadeAll answers free (c :: cs)).1.1 = (c.remade (answers 0) free).1.toList ++
      (remadeAll (fun i => answers (i + 1)) (c.remade (answers 0) free).2 cs).1.1 := by
  rw [remadeAll]
  exact joined_fst ..

theorem free_le_remade (answer : List Nat → Answer) (hb : h.IsBelow free) : free ≤ (h.remade answer free).2 := by
  obtain ⟨-, hremade⟩ | ⟨-, hle, -⟩ := remade_cases answer hb
  · exact Nat.le_of_eq (congrArg Prod.snd hremade).symm
  · exact hle

/-! ## Where a subtree is found that is kept -/

/-- Whether a node is dropped. -/
def Answer.isDelete : Answer → Bool
  | delete => true
  | _ => false

/-- The position of a child once the siblings before it are dropped that are deleted. -/
def newPosition (answers : Nat → Answer) (i : Nat) : Nat := (List.range i).countP fun j => !(answers j).isDelete

def newPath (answer : List Nat → Answer) : List Nat → List Nat
  | [] => []
  | i :: path => newPosition (fun j => answer [j]) i :: newPath (fun q => answer (i :: q)) path

theorem newPosition_succ (answers : Nat → Answer) (i : Nat) :
    newPosition answers (i + 1) = newPosition (fun j => answers (j + 1)) i + if (answers 0).isDelete then 0 else 1 := by
  rw [newPosition, List.range_succ_eq_map, List.countP_cons, List.countP_map, newPosition]
  cases (answers 0).isDelete <;> rfl

theorem length_remade (hb : h.IsBelow free) : (h.remade answer free).1.toList.length = if (answer []).isDelete then 0 else 1 := by
  cases hanswer : answer [] with
  | delete =>
    rw [remade_eq, hanswer]
    rfl
  | replace k =>
    rw [remade_eq, hanswer]
    rfl
  | keep =>
    obtain ⟨place, hremade⟩ := remade_of_keep hb hanswer
    rw [hremade]
    rfl

theorem getElem?_remadeAll (answers : Nat → List Nat → Answer) (hb : ∀ c ∈ cs, c.IsBelow free) (hc : cs[i]? = some c)
    (hkeep : answers i [] = .keep) : ∃ free', c.IsBelow free' ∧
      (remadeAll answers free cs).1.1[newPosition (fun j => answers j []) i]? = (c.remade (answers i) free').1 := by
  induction cs generalizing answers free i with
  | nil => cases hc
  | cons d cs ih =>
    rw [List.forall_mem_cons] at hb
    rw [remadeAll_cons]
    cases i with
    | zero =>
      obtain rfl := Option.some.inj hc
      obtain ⟨place, hremade⟩ := remade_of_keep hb.1 hkeep
      refine ⟨free, hb.1, ?_⟩
      rw [hremade]
      rfl
    | succ i =>
      obtain ⟨free', hfree, hfound⟩ :=
        ih (fun i => answers (i + 1)) (fun c hc => (hb.2 c hc).mono (free_le_remade (answers 0) hb.1)) hc hkeep
      refine ⟨free', hfree, ?_⟩
      rw [newPosition_succ, Nat.add_comm, ← length_remade hb.1, List.getElem?_append_right (Nat.le_add_right ..),
        Nat.add_sub_cancel_left]
      exact hfound

theorem at?_remade (hb : h.IsBelow free) (hk : h.at? path = some k) (hreached : Reached answer path)
    (hkeeps : k.Keeps fun q => answer (path ++ q)) : (h.remade answer free).1.bind (·.at? (newPath answer path)) = some k := by
  induction path generalizing h answer free with
  | nil =>
    obtain rfl := Option.some.inj hk
    obtain ⟨-, hremade⟩ | ⟨hnot, -⟩ := remade_cases answer hb
    · rw [hremade]
      rfl
    · exact absurd hkeeps hnot
  | cons i path ih =>
    obtain ⟨c, hc, hk⟩ := Option.bind_eq_some_iff.mp hk
    -- the child on the path is kept: it is above the subtree, or it is the subtree
    have hkept : answer [i] = .keep := by
      cases path with
      | nil => exact (keeps_iff.mp hkeeps).1
      | cons j path => exact hreached [i] (List.cons_prefix_cons.mpr ⟨rfl, List.nil_prefix⟩) (by simp)
    obtain ⟨hkeep, hbelow⟩ := reached_cons.mp hreached
    obtain ⟨place, hremade⟩ := remade_of_keep hb hkeep
    obtain ⟨free', hfree, hfound⟩ := getElem?_remadeAll (fun i path => answer (i :: path)) (isBelow_iff.mp hb).2 hc hkept
    have hchildren : ∀ ds, (h.withChildren ds).children = ds := by
      cases h with
      | parent => exact fun _ => rfl
      | leaf => cases hc
    rw [hremade, Option.bind_some, newPath, at?_cons, children_moveTo, hchildren, hfound]
    exact ih hfree hk hbelow hkeeps

end

end Held

/-! ## What the new tree is -/

/-- What an edit leaves of a node, given what becomes of it if it is kept. -/
def Edit.leave (kept : Node) : Edit → Option Node
  | keep => some kept
  | delete => none
  | replace n => some n

namespace Node

mutual

/-- The tree without the nodes that are dropped and with the others put in their places; the edits are given for the nodes
at the ends of the paths. -/
def rebuilt (edit : List Nat → Edit) : Node → Option Node
  | document cs => (edit []).leave (document (rebuiltAll (fun i path => edit (i :: path)) cs))
  | element t cs => (edit []).leave (element t (rebuiltAll (fun i path => edit (i :: path)) cs))
  | n => (edit []).leave n

def rebuiltAll (edit : Nat → List Nat → Edit) : List Node → List Node
  | [] => []
  | n :: rest => (n.rebuilt (edit 0)).toList ++ rebuiltAll (fun i => edit (i + 1)) rest

end

theorem rebuilt_eq (edit : List Nat → Edit) (n : Node) :
    n.rebuilt edit = (edit []).leave (n.withChildren (rebuiltAll (fun i path => edit (i :: path)) n.children)) := by
  cases n <;> rfl

theorem IsLeaf.children {n : Node} (h : n.IsLeaf) : n.children = [] := by
  cases n with
  | document cs => exact document.inj (h []).symm
  | element t cs => exact (element.inj (h []).symm).2
  | _ => rfl

theorem walk_eq {σ : Type} (visit : σ → Node → Edit × σ) (s : σ) (n : Node) :
    n.walk visit s =
      match visit s n with
      | (.delete, s) => (.deleted, s)
      | (.replace m, s) => (.changed m, s)
      | (.keep, s) =>
        match walkAll visit s n.children with
        | (some ds, s) => (.changed (n.withChildren ds), s)
        | (none, s) => (.untouched, s) := by
  cases n with
  | document => rfl
  | element => rfl
  | _ =>
    rw [walk]
    obtain ⟨_ | _ | m, s⟩ := visit s _ <;> rfl

end Node

namespace Held

section

variable {answer : List Nat → Answer} {free : Nat} {h : Held} {cs : List Held}

theorem eraseAll_eq_map (cs : List Held) : eraseAll cs = cs.map erase := by
  induction cs with
  | nil => rfl
  | cons c cs ih => rw [eraseAll, ih, List.map_cons]

theorem children_erase (h : Held) : h.erase.children = h.children.map erase := by
  cases h with
  | parent _ tag cs => cases tag <;> exact eraseAll_eq_map cs
  | leaf _ n hn => exact hn.children

theorem erase_withChildren (h : Held) (cs : List Held) : (h.withChildren cs).erase = h.erase.withChildren (cs.map erase) := by
  cases h with
  | parent _ tag _ =>
    rw [← eraseAll_eq_map]
    cases tag <;> rfl
  | leaf _ n hn => exact (hn _).symm

theorem erase_moveTo (h : Held) (place : Nat) : (h.moveTo place).erase = h.erase := by
  cases h with
  | parent _ tag _ => cases tag <;> rfl
  | leaf => rfl

theorem erase_remadeAll (answers : Nat → List Nat → Answer) (ih : ∀ c ∈ cs, ∀ answer free, c.IsBelow free →
    (c.remade answer free).1.map erase = c.erase.rebuilt fun path => (answer path).erase) (hb : ∀ c ∈ cs, c.IsBelow free) :
    (remadeAll answers free cs).1.1.map erase = Node.rebuiltAll (fun i path => (answers i path).erase) (cs.map erase) := by
  induction cs generalizing answers free with
  | nil => rfl
  | cons c cs ihcs =>
    rw [List.forall_mem_cons] at ih hb
    have hrest := ihcs (fun i => answers (i + 1)) ih.2 fun d hd => (hb.2 d hd).mono (free_le_remade (answers 0) hb.1)
    rw [remadeAll_cons, List.map_append, hrest, List.map_cons, Node.rebuiltAll, ← ih.1 (answers 0) free hb.1, Option.toList_map]

theorem erase_remade (hb : h.IsBelow free) :
    (h.remade answer free).1.map erase = h.erase.rebuilt fun path => (answer path).erase := by
  induction h using forall_of_children generalizing answer free with
  | node h ih =>
    rw [Node.rebuilt_eq]
    cases hanswer : answer [] with
    | delete =>
      rw [remade_eq, hanswer]
      rfl
    | replace k =>
      rw [remade_eq, hanswer]
      exact congrArg some (erase_moveTo k free)
    | keep =>
      obtain ⟨place, hremade⟩ := remade_of_keep hb hanswer
      have hall := erase_remadeAll (fun i path => answer (i :: path)) (fun c hc _ _ => ih c hc) (isBelow_iff.mp hb).2
      rw [hremade, Option.map_some, erase_moveTo, erase_withChildren, hall, children_erase]
      rfl

end

/-! ## Edits without places -/

/-- A visitor of trees in memory that looks at the nodes alone and does what a visitor of plain trees does. -/
def Lifts {σ : Type} (visit : Visitor σ) (plain : σ → Node → Edit × σ) : Prop :=
  ∀ s h, plain s h.erase = ((visit s h).1.erase, (visit s h).2)

/-- The outcome of a visit to a plain tree, given what becomes of the tree in memory. -/
def outcome (h : Held) : Option Held → Outcome
  | none => .deleted
  | some new => if h.place = new.place then .untouched else .changed new.erase

def outcomes : List Held × Bool → Option (List Node)
  | (cs, true) => some (cs.map erase)
  | (_, false) => none

section

variable {σ : Type} {visit : Visitor σ} {plain : σ → Node → Edit × σ} {s : σ} {free : Nat} {h : Held} {cs : List Held}

theorem walk_cases (visit : Visitor σ) (s : σ) (hb : h.IsBelow free) : (h.walk visit s free).1 = (some h, free) ∨
    (free ≤ (h.walk visit s free).1.2 ∧ ∀ new ∈ (h.walk visit s free).1.1, free ≤ new.place) := by
  obtain ⟨answer, s', -, hwalk⟩ := exists_answers visit s h
  rw [hwalk]
  exact (remade_cases answer hb).imp And.right And.right

theorem walkAll_cases (visit : Visitor σ) (s : σ) (hb : ∀ c ∈ cs, c.IsBelow free) :
    (walkAll visit s free cs).1 = ((cs, false), free) ∨
      ((walkAll visit s free cs).1.1.2 = true ∧ free ≤ (walkAll visit s free cs).1.2) := by
  obtain ⟨answers, s', -, hwalk⟩ := exists_answersAll (fun c _ s => exists_answers visit s c) s
  rw [hwalk]
  exact (remadeAll_cases answers (fun _ _ answer _ => remade_cases answer) hb).imp And.right And.right

theorem walkAll_erase (ih : ∀ c ∈ cs, ∀ s free, c.IsBelow free →
    c.erase.walk plain s = (c.outcome (c.walk visit s free).1.1, (c.walk visit s free).2)) (hb : ∀ c ∈ cs, c.IsBelow free) :
    Node.walkAll plain s (cs.map erase) = (outcomes (walkAll visit s free cs).1.1, (walkAll visit s free cs).2) := by
  induction cs generalizing s free with
  | nil => rfl
  | cons c cs ihcs =>
    rw [List.forall_mem_cons] at ih hb
    rw [List.map_cons, Node.walkAll, ih.1 s free hb.1, walkAll]
    have hfirst := walk_cases visit s hb.1
    generalize c.walk visit s free = first at hfirst ⊢
    obtain ⟨⟨new, free'⟩, s'⟩ := first
    dsimp only at hfirst ⊢
    obtain heq | ⟨hle, hplace⟩ := hfirst
    -- the first child has come back from its own place, so nothing in it has changed
    · obtain ⟨rfl, rfl⟩ := Prod.mk.inj heq
      rw [ihcs ih.2 hb.2, outcome, if_pos rfl]
      generalize walkAll visit s' free' cs = rest
      obtain ⟨⟨⟨ds, changed⟩, free''⟩, s''⟩ := rest
      dsimp only
      rw [joined, bne_self_eq_false, Bool.false_or]
      cases changed <;> rfl
    · have hfree : ∀ d ∈ cs, d.IsBelow free' := fun d hd => (hb.2 d hd).mono hle
      rw [ihcs ih.2 hfree]
      have hrest := walkAll_cases visit s' hfree
      generalize walkAll visit s' free' cs = rest at hrest ⊢
      obtain ⟨⟨⟨ds, changed⟩, free''⟩, s''⟩ := rest
      have hds : (outcomes (ds, changed)).getD (cs.map erase) = ds.map erase := by
        obtain heq | ⟨rfl, -⟩ := hrest
        · cases heq
          rfl
        · rfl
      cases new with
      | none =>
        dsimp only [outcome]
        rw [hds]
        rfl
      | some new =>
        have hne : new.place ≠ c.place := hb.1.ne_place (hplace new rfl)
        rw [outcome, if_neg hne.symm]
        dsimp only
        rw [hds, joined, bne_iff_ne.mpr hne, Bool.true_or]
        rfl

/-- A visit to a plain tree is a visit to a tree in memory without the places. -/
theorem walk_erase (hlifts : Lifts visit plain) (hb : h.IsBelow free) :
    h.erase.walk plain s = (h.outcome (h.walk visit s free).1.1, (h.walk visit s free).2) := by
  induction h using forall_of_children generalizing s free with
  | node h ih =>
    rw [Node.walk_eq, hlifts, walk_eq]
    generalize visit s h = given
    obtain ⟨_ | _ | k, s'⟩ := given
    · dsimp only [Answer.erase]
      rw [children_erase, walkAll_erase ih (isBelow_iff.mp hb).2]
      have hall := walkAll_cases visit s' (isBelow_iff.mp hb).2
      generalize walkAll visit s' free h.children = below at hall ⊢
      obtain ⟨⟨⟨ds, changed⟩, free'⟩, s''⟩ := below
      dsimp only at hall ⊢
      obtain heq | ⟨rfl, hle⟩ := hall
      · cases heq
        rw [finish, outcome, if_pos rfl]
        rfl
      · rw [finish, outcome, place_moveTo, if_neg (hb.ne_place hle).symm, erase_moveTo, erase_withChildren]
        rfl
    · rfl
    · dsimp only [Answer.erase]
      rw [outcome, place_moveTo, if_neg (hb.ne_place (Nat.le_refl free)).symm, erase_moveTo]

theorem edited_erase (hlifts : Lifts visit plain) (hb : h.IsBelow free) :
    h.erase.edited plain s =
      ((h.edited visit s free).1.erase, (h.edited visit s free).1.isSame h, (h.edited visit s free).2) := by
  rw [Node.edited, walk_erase hlifts hb, edited]
  have hwalk := walk_cases visit s hb
  generalize h.walk visit s free = walked at hwalk ⊢
  obtain ⟨⟨new, free'⟩, s'⟩ := walked
  dsimp only at hwalk ⊢
  obtain heq | ⟨hle, hplace⟩ := hwalk
  · obtain ⟨rfl, rfl⟩ := Prod.mk.inj heq
    rw [outcome, if_pos rfl, Option.getD_some, isSame, beq_self_eq_true]
  · cases new with
    | none =>
      have hne : (parent free' none []).place ≠ h.place := hb.ne_place hle
      rw [outcome, Option.getD_none, isSame, beq_eq_false_iff_ne.mpr hne]
      rfl
    | some new =>
      have hne : new.place ≠ h.place := hb.ne_place (hplace new rfl)
      rw [outcome, if_neg hne.symm, Option.getD_some, isSame, beq_eq_false_iff_ne.mpr hne]

end

/-! ## What an edit does -/

/-- What becomes of a tree when the nodes at the ends of the paths are answered in certain calls. -/
structure IsEdited (h : Held) (answer : List Nat → Answer) (calls : List Call) (new : Held) : Prop where
  /-- The nodes are shown in document order, so each of them once. -/
  ordered : calls.Pairwise Call.Before
  /-- All nodes are shown but those below a node that is deleted or replaced, and no others. -/
  mem : ∀ call, call ∈ calls ↔ h.IsCall answer call
  /-- The deleted nodes are dropped, the replaced ones have others in their places, and the rest is as before. -/
  rebuilt : new.erase = (h.erase.rebuilt fun path => (answer path).erase).getD (.document [])
  /-- It is the same tree exactly when all answers are to keep. -/
  same : new.isSame h = true ↔ ∀ call ∈ calls, call.answer = .keep
  /-- A subtree in which all answers are to keep is in the new tree what it is in the old one, at the same places. -/
  shared : ∀ call ∈ calls, (∀ c ∈ calls, call.path <+: c.path → c.answer = .keep) →
    new.at? (newPath answer call.path) = some call.node

section

variable {answer : List Nat → Answer} {free : Nat} {path : List Nat} {h k : Held}

theorem IsCall.append {q : List Nat} {node : Held} {given : Answer} (hk : h.at? path = some k) (hreached : Reached answer path)
    (hcall : k.IsCall (fun q => answer (path ++ q)) ⟨q, node, given⟩) : h.IsCall answer ⟨path ++ q, node, given⟩ := by
  induction path generalizing h answer with
  | nil =>
    obtain rfl := Option.some.inj hk
    exact hcall
  | cons i path ih =>
    obtain ⟨c, hc, hk⟩ := Option.bind_eq_some_iff.mp hk
    obtain ⟨hkeep, hbelow⟩ := reached_cons.mp hreached
    exact isCall_cons.mpr ⟨hkeep, c, hc, ih hk hbelow hcall⟩

theorem isEdited_remade (hb : h.IsBelow free) : h.IsEdited answer (h.calls answer)
    ((h.remade answer free).1.getD (parent (h.remade answer free).2 none [])) where
  ordered := pairwise_calls
  mem _ := mem_calls
  rebuilt := by
    rw [← erase_remade hb]
    exact (Option.getD_map ..).symm
  same := by
    rw [isSame, beq_iff_eq]
    obtain ⟨hkeeps, hremade⟩ | ⟨hnot, hle, hplace⟩ := remade_cases answer hb
    · rw [hremade]
      exact iff_of_true rfl hkeeps
    · refine iff_of_false (hb.ne_place ?_) hnot
      cases hnew : (h.remade answer free).1 with
      | none => exact hle
      | some new => exact hplace new hnew
  shared call hcall hkeep := by
    obtain ⟨hshows, hreached, -⟩ := mem_calls.mp hcall
    have hkeeps : call.node.Keeps fun q => answer (call.path ++ q) := by
      intro c hc
      have hin := mem_calls.mpr ((mem_calls.mp hc).append hshows hreached)
      exact hkeep ⟨call.path ++ c.path, c.node, c.answer⟩ hin (List.prefix_append ..)
    obtain ⟨new, hnew, hfound⟩ := Option.bind_eq_some_iff.mp (at?_remade hb hshows hreached hkeeps)
    rw [hnew]
    exact hfound

/-- A visit to a tree that is held below the free places does what its visitor asks for. There are answers for the nodes
of the tree; the visitor gives them in the calls of the visit, one after the other, and its last state comes from these
calls. The new tree is made by the answers, and shares with the old one what they do not touch. A visit to a plain tree
does the same without the places. -/
theorem isEdited_edited {σ : Type} (visit : Visitor σ) (s : σ) (hb : h.IsBelow free) :
    ∃ answer calls, Answers visit s calls (h.edited visit s free).2 ∧ h.IsEdited answer calls (h.edited visit s free).1 ∧
      ∀ plain, Lifts visit plain → h.erase.edited plain s =
        ((h.edited visit s free).1.erase, (h.edited visit s free).1.isSame h, (h.edited visit s free).2) := by
  obtain ⟨answer, s', hanswers, hwalk⟩ := exists_answers visit s h
  have hedited : h.edited visit s free = ((h.remade answer free).1.getD (parent (h.remade answer free).2 none []), s') := by
    rw [edited, hwalk]
  refine ⟨answer, h.calls answer, ?_, ?_, fun plain hlifts => edited_erase hlifts hb⟩
  · rw [hedited]
    exact hanswers
  · rw [hedited]
    exact isEdited_remade hb

end

def row : Held :=
  parent 0 (some ⟨"row", [("r", "1")]⟩)
    [parent 1 (some ⟨"c", [("r", "A1")]⟩) [leaf 2 (.text "1") (Node.isLeaf_text _)],
      parent 3 (some ⟨"c", [("r", "B1")]⟩) [leaf 4 (.text "2") (Node.isLeaf_text _)]]

/-- A visitor that deletes the cell with a certain reference, and lists the names that it has seen. -/
def deleting (cell : String) : Visitor (List (Option String)) := fun seen h =>
  (if h.erase.attribute? "r" = some cell then .delete else .keep, seen ++ [h.erase.name?])

def deletingPlain (cell : String) (seen : List (Option String)) (n : Node) : Edit × List (Option String) :=
  (if n.attribute? "r" = some cell then .delete else .keep, seen ++ [n.name?])

/-- The row without its first cell is a new node with the second cell of the old one. -/
def rowWithoutFirst : Held :=
  parent 5 (some ⟨"row", [("r", "1")]⟩) [parent 3 (some ⟨"c", [("r", "B1")]⟩) [leaf 4 (.text "2") (Node.isLeaf_text _)]]

theorem isEdited_edited_row : row.IsBelow 5 ∧ Lifts (deleting "A1") (deletingPlain "A1") ∧
    (∃ answer calls, Answers (deleting "A1") [] calls [some "row", some "c", some "c", none] ∧
      row.IsEdited answer calls rowWithoutFirst) ∧
    row.erase.edited (deletingPlain "A1") [] = (rowWithoutFirst.erase, false, [some "row", some "c", some "c", none]) := by
  have hb : row.IsBelow 5 := by simp [row]
  have hlifts : Lifts (deleting "A1") (deletingPlain "A1") := by
    intro seen h
    rw [deleting, deletingPlain]
    split <;> rfl
  obtain ⟨answer, calls, hanswers, hedited, hplain⟩ := isEdited_edited (deleting "A1") [] hb
  exact ⟨hb, hlifts, ⟨answer, calls, hanswers, hedited⟩, hplain _ hlifts⟩

end Held

end Spreadsheet.Markup
