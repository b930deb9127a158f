import Spreadsheet.Markup.Held

/-! # The calls of a visit

A visitor is shown the nodes of a tree one after the other. Its answers decide which nodes it is shown, so the calls of a visit are
those for some answers to the nodes at the ends of the paths.

* `Held.Call`: one question to a visitor, with the path of the node, and `Held.calls`: the calls for given answers.
* `mem_calls`: which nodes are shown. `pairwise_calls`: they are shown in document order.
* `Held.Answers`: the answers that a visitor gives in certain calls.
* `Held.remade`: the tree for given answers. `exists_answers`: a visit gives some answers, and the tree for them. -/

set_option autoImplicit false

namespace Spreadsheet.Markup.Held

/-! ## Induction over a tree -/

mutual

theorem forall_of_children {motive : Held → Prop} (node : ∀ h : Held, (∀ c ∈ h.children, motive c) → motive h) :
    (h : Held) → motive h
  | parent _ _ cs => node _ (forall_mem_of_children node cs)
  | leaf _ _ _ => node _ fun _ hc => nomatch hc

theorem forall_mem_of_children {motive : Held → Prop} (node : ∀ h : Held, (∀ c ∈ h.children, motive c) → motive h) :
    (cs : List Held) → ∀ c ∈ cs, motive c
  | [] => fun _ hc => nomatch hc
  | c :: cs => List.forall_mem_cons.mpr ⟨forall_of_children node c, forall_mem_of_children node cs⟩

end

/-! ## The calls of a visit -/

/-- One question to a visitor: the node that is shown, the path to it, and the answer. -/
structure Call where
  path : List Nat
  node : Held
  answer : Answer

namespace Call

def inFirst (c : Call) : Call := { c with path := 0 :: c.path }

/-- The path to a child, where another child has been put before all others. -/
def shift : List Nat → List Nat
  | [] => []
  | i :: path => (i + 1) :: path

/-- A call in a child, where another child has been put before all others. -/
def shifted (c : Call) : Call := { c with path := shift c.path }

end Call

mutual

/-- The calls of a visit that gives the node at the end of each path a certain answer. -/
def calls (answer : List Nat → Answer) : Held → List Call
  | parent place tag cs =>
    ⟨[], parent place tag cs, answer []⟩ ::
      match answer [] with
      | .keep => callsAll (fun i path => answer (i :: path)) cs
      | _ => []
  | leaf place n h => [⟨[], leaf place n h, answer []⟩]

/-- The calls in several trees; a path begins with the number of the tree. -/
def callsAll (answer : Nat → List Nat → Answer) : List Held → List Call
  | [] => []
  | c :: cs => (c.calls (answer 0)).map Call.inFirst ++ (callsAll (fun i => answer (i + 1)) cs).map Call.shifted

end

theorem calls_eq (answer : List Nat → Answer) (h : Held) :
    h.calls answer =
      ⟨[], h, answer []⟩ ::
        match answer [] with
        | .keep => callsAll (fun i path => answer (i :: path)) h.children
        | _ => [] := by
  cases h with
  | parent => rfl
  | leaf =>
    rw [calls]
    split <;> rfl

/-- A node is reached when all nodes above it are kept. -/
def Reached (answer : List Nat → Answer) (path : List Nat) : Prop := ∀ q, q <+: path → q ≠ path → answer q = .keep

section

variable {answer : List Nat → Answer} {i : Nat} {path : List Nat} {h c : Held} {cs : List Held} {call : Call}

theorem reached_nil : Reached answer [] := fun _ hq hne => absurd (List.prefix_nil.mp hq) hne

theorem reached_cons : Reached answer (i :: path) ↔ answer [] = .keep ∧ Reached (fun q => answer (i :: q)) path := by
  constructor
  · intro hr
    refine ⟨hr [] List.nil_prefix (List.cons_ne_nil i path).symm, fun q hq hne => hr (i :: q) ?_ fun heq => hne ?_⟩
    · exact List.cons_prefix_cons.mpr ⟨rfl, hq⟩
    · exact (List.cons.inj heq).2
  · rintro ⟨hkeep, hr⟩ q hq hne
    cases q with
    | nil => exact hkeep
    | cons j q =>
      obtain ⟨rfl, hpath⟩ := List.cons_prefix_cons.mp hq
      exact hr q hpath fun heq => hne (congrArg _ heq)

/-- A call of a visit shows the node at the end of a path that is reached. -/
structure IsCall (h : Held) (answer : List Nat → Answer) (call : Call) : Prop where
  shows : h.at? call.path = some call.node
  reached : Reached answer call.path
  answered : call.answer = answer call.path

theorem at?_cons (h : Held) (i : Nat) (path : List Nat) : h.at? (i :: path) = h.children[i]?.bind fun c => c.at? path := rfl

theorem isCall_cons {node : Held} {given : Answer} : h.IsCall answer ⟨i :: path, node, given⟩ ↔
    answer [] = .keep ∧ ∃ c, h.children[i]? = some c ∧ c.IsCall (fun q => answer (i :: q)) ⟨path, node, given⟩ := by
  constructor
  · rintro ⟨hnode, hreached, hanswer⟩
    obtain ⟨c, hc, hnode⟩ := Option.bind_eq_some_iff.mp hnode
    obtain ⟨hkeep, hreached⟩ := reached_cons.mp hreached
    exact ⟨hkeep, c, hc, hnode, hreached, hanswer⟩
  · rintro ⟨hkeep, c, hc, hnode, hreached, hanswer⟩
    exact ⟨Option.bind_eq_some_iff.mpr ⟨c, hc, hnode⟩, reached_cons.mpr ⟨hkeep, hreached⟩, hanswer⟩

theorem mem_callsAll {answers : Nat → List Nat → Answer}
    (ih : ∀ c ∈ cs, ∀ (answer : List Nat → Answer) (call : Call), call ∈ c.calls answer ↔ c.IsCall answer call) :
    call ∈ callsAll answers cs ↔
      ∃ i path c, call.path = i :: path ∧ cs[i]? = some c ∧ c.IsCall (answers i) ⟨path, call.node, call.answer⟩ := by
  induction cs generalizing answers call with
  | nil => simp [callsAll]
  | cons d cs ihcs =>
    rw [List.forall_mem_cons] at ih
    rw [callsAll, List.mem_append, List.mem_map, List.mem_map]
    constructor
    · rintro (⟨call, hcall, rfl⟩ | ⟨call, hcall, rfl⟩)
      · exact ⟨0, call.path, d, rfl, rfl, (ih.1 _ _).mp hcall⟩
      · obtain ⟨i, path, c, hpath, hc, hiscall⟩ := (ihcs ih.2).mp hcall
        exact ⟨i + 1, path, c, congrArg Call.shift hpath, hc, hiscall⟩
    · rintro ⟨i, path, c, hpath, hc, hiscall⟩
      obtain ⟨_, node, answer⟩ := call
      obtain rfl := hpath
      cases i with
      | zero =>
        obtain rfl := Option.some.inj hc
        exact .inl ⟨⟨path, node, answer⟩, (ih.1 _ _).mpr hiscall, rfl⟩
      | succ i => exact .inr ⟨⟨i :: path, node, answer⟩, (ihcs ih.2).mpr ⟨i, path, c, rfl, hc, hiscall⟩, rfl⟩

theorem mem_calls : call ∈ h.calls answer ↔ h.IsCall answer call := by
  induction h using forall_of_children generalizing answer call with
  | node h ih =>
    obtain ⟨path, node, given⟩ := call
    rw [calls_eq, List.mem_cons]
    constructor
    · rintro (heq | hmem)
      · obtain ⟨rfl, rfl, rfl⟩ := Call.mk.inj heq
        exact ⟨rfl, reached_nil, rfl⟩
      · split at hmem
        next hkeep =>
          obtain ⟨i, path, c, hpath, hc, hiscall⟩ := (mem_callsAll fun c hc _ _ => ih c hc).mp hmem
          obtain rfl := hpath
          exact isCall_cons.mpr ⟨hkeep, c, hc, hiscall⟩
        next => cases hmem
    · intro hiscall
      cases path with
      | nil =>
        obtain ⟨hshows, -, hanswered⟩ := hiscall
        dsimp only at hshows hanswered
        obtain rfl := Option.some.inj hshows
        obtain rfl := hanswered
        exact .inl rfl
      | cons i path =>
        obtain ⟨hkeep, c, hc, hiscall⟩ := isCall_cons.mp hiscall
        rw [hkeep]
        exact .inr ((mem_callsAll fun c hc _ _ => ih c hc).mpr ⟨i, path, c, rfl, hc, hiscall⟩)

/-! ## The order of the calls -/

/-- A node comes before the nodes below it and before the siblings that follow it. -/
def Call.Before (c d : Call) : Prop := c.path < d.path

theorem Call.before_inFirst {c d : Call} (h : c.Before d) : c.inFirst.Before d.inFirst :=
  List.cons_lt_cons_iff.mpr (.inr ⟨rfl, h⟩)

theorem Call.before_shifted {c d : Call} (h : c.Before d) : c.shifted.Before d.shifted := by
  obtain ⟨p, _, _⟩ := c
  obtain ⟨q, _, _⟩ := d
  cases q with
  | nil => cases h
  | cons j q =>
    cases p with
    | nil => exact List.nil_lt_cons ..
    | cons i p =>
      obtain hlt | ⟨rfl, hlt⟩ := List.cons_lt_cons_iff.mp h
      · exact List.cons_lt_cons_iff.mpr (.inl (Nat.succ_lt_succ hlt))
      · exact List.cons_lt_cons_iff.mpr (.inr ⟨rfl, hlt⟩)

theorem pairwise_callsAll {answers : Nat → List Nat → Answer}
    (ih : ∀ c ∈ cs, ∀ answer : List Nat → Answer, (c.calls answer).Pairwise Call.Before) :
    (callsAll answers cs).Pairwise Call.Before := by
  induction cs generalizing answers with
  | nil => exact .nil
  | cons c cs ihcs =>
    rw [List.forall_mem_cons] at ih
    rw [callsAll, List.pairwise_append]
    refine ⟨(ih.1 _).map _ fun _ _ => Call.before_inFirst, (ihcs ih.2).map _ fun _ _ => Call.before_shifted, ?_⟩
    -- paths in the first tree begin with 0, those in the others do not
    intro a ha b hb
    obtain ⟨a, -, rfl⟩ := List.mem_map.mp ha
    obtain ⟨b, hmem, rfl⟩ := List.mem_map.mp hb
    obtain ⟨i, path, d, hpath, -⟩ := (mem_callsAll fun _ _ _ _ => mem_calls).mp hmem
    rw [Call.Before, Call.inFirst, Call.shifted, hpath]
    exact List.cons_lt_cons_iff.mpr (.inl (Nat.succ_pos i))

theorem pairwise_calls : (h.calls answer).Pairwise Call.Before := by
  induction h using forall_of_children generalizing answer with
  | node h ih =>
    rw [calls_eq]
    split
    next =>
      refine List.pairwise_cons.mpr ⟨fun call hcall => ?_, pairwise_callsAll fun c hc _ => ih c hc⟩
      obtain ⟨i, path, d, hpath, -⟩ := (mem_callsAll fun _ _ _ _ => mem_calls).mp hcall
      rw [Call.Before, hpath]
      exact List.nil_lt_cons ..
    next => exact List.pairwise_singleton ..

end

/-! ## The answers of a visitor -/

/-- A visitor gives certain answers in certain calls, one after the other: the state at the end is the one that they have led to. -/
inductive Answers {σ : Type} (visit : Visitor σ) : σ → List Call → σ → Prop
  | nil {s : σ} : Answers visit s [] s
  | cons {s s' s'' : σ} {call : Call} {calls : List Call} (h : visit s call.node = (call.answer, s'))
      (hrest : Answers visit s' calls s'') : Answers visit s (call :: calls) s''

section

variable {σ : Type} {visit : Visitor σ} {s s' s'' : σ} {xs ys : List Call}

theorem Answers.append (h : Answers visit s xs s') (h' : Answers visit s' ys s'') : Answers visit s (xs ++ ys) s'' := by
  induction h with
  | nil => exact h'
  | cons h _ ih => exact .cons h (ih h')

theorem Answers.map (f : Call → Call) (hf : ∀ c, (f c).node = c.node ∧ (f c).answer = c.answer)
    (h : Answers visit s xs s') : Answers visit s (xs.map f) s' := by
  induction h with
  | nil => exact .nil
  | @cons _ _ _ call _ h _ ih =>
    refine .cons ?_ ih
    rw [(hf call).1, (hf call).2]
    exact h

end

/-! ## The tree for given answers -/

mutual

/-- What becomes of a tree with the answers to the nodes at the ends of the paths. -/
def remade (answer : List Nat → Answer) (free : Nat) : Held → Option Held × Nat
  | parent place tag cs =>
    match answer [] with
    | .delete => (none, free)
    | .replace k => (some (k.moveTo free), free + 1)
    | .keep =>
      match remadeAll (fun i path => answer (i :: path)) free cs with
      | (rewritten, free) => finish (parent place tag cs) free rewritten
  | leaf place n h =>
    match answer [] with
    | .delete => (none, free)
    | .replace k => (some (k.moveTo free), free + 1)
    | .keep => (some (leaf place n h), free)

def remadeAll (answer : Nat → List Nat → Answer) (free : Nat) : List Held → (List Held × Bool) × Nat
  | [] => (([], false), free)
  | c :: cs =>
    match c.remade (answer 0) free with
    | (new, free) =>
      match remadeAll (fun i => answer (i + 1)) free cs with
      | (rewritten, free) => (joined c new rewritten, free)

end

theorem remade_eq (answer : List Nat → Answer) (free : Nat) (h : Held) :
    h.remade answer free =
      match answer [] with
      | .delete => (none, free)
      | .replace k => (some (k.moveTo free), free + 1)
      | .keep =>
        match remadeAll (fun i path => answer (i :: path)) free h.children with
        | (rewritten, free) => finish h free rewritten := by
  cases h <;> rfl

theorem exists_answersAll {σ : Type} {visit : Visitor σ} {cs : List Held}
    (ih : ∀ c ∈ cs, ∀ s, ∃ answer s', Answers visit s (c.calls answer) s' ∧
      ∀ free, c.walk visit s free = (c.remade answer free, s')) (s : σ) :
    ∃ answer s', Answers visit s (callsAll answer cs) s' ∧ ∀ free, walkAll visit s free cs = (remadeAll answer free cs, s') := by
  induction cs generalizing s with
  | nil => exact ⟨fun _ _ => .keep, s, .nil, fun _ => rfl⟩
  | cons c cs ihcs =>
    rw [List.forall_mem_cons] at ih
    obtain ⟨first, s', hfirst, hwalk⟩ := ih.1 s
    obtain ⟨others, s'', hothers, hwalkAll⟩ := ihcs ih.2 s'
    refine ⟨fun i => Nat.casesOn i first others, s'', ?_, fun free => ?_⟩
    · exact (hfirst.map Call.inFirst fun _ => ⟨rfl, rfl⟩).append (hothers.map Call.shifted fun _ => ⟨rfl, rfl⟩)
    · rw [walkAll, hwalk, remadeAll]
      dsimp only
      rw [hwalkAll]
      rfl

theorem exists_answers {σ : Type} (visit : Visitor σ) (s : σ) (h : Held) :
    ∃ answer s', Answers visit s (h.calls answer) s' ∧ ∀ free, h.walk visit s free = (h.remade answer free, s') := by
  -- below a node that is not kept nothing is asked, so any answers will do there
  induction h using forall_of_children generalizing s with
  | node h ih =>
    cases hvisit : visit s h with
    | mk a s' =>
      cases a with
      | delete =>
        refine ⟨fun _ => .delete, s', ?_, fun free => ?_⟩
        · rw [calls_eq]
          exact .cons hvisit .nil
        · rw [walk_eq, hvisit, remade_eq]
      | replace k =>
        refine ⟨fun _ => .replace k, s', ?_, fun free => ?_⟩
        · rw [calls_eq]
          exact .cons hvisit .nil
        · rw [walk_eq, hvisit, remade_eq]
      | keep =>
        obtain ⟨below, s'', hbelow, hwalk⟩ := exists_answersAll (fun c hc s => ih c hc s) s'
        refine ⟨fun | [] => .keep | i :: path => below i path, s'', ?_, fun free => ?_⟩
        · rw [calls_eq]
          exact .cons hvisit hbelow
        · rw [walk_eq, hvisit, remade_eq]
          dsimp only
          rw [hwalk]

end Spreadsheet.Markup.Held
