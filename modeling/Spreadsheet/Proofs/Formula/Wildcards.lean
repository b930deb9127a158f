import Spreadsheet.Formula.Criterion
import Mathlib.Data.List.Forall2
import Mathlib.Data.List.Infix

/-! # What a pattern matches

A pattern should match the texts that can be cut into runs, one for each of its characters: any run for a `*`, one character
for a `?`, the character itself for every other one. Where a `*` of the pattern stands in front of a `*` of the text, the
search takes it for that character alone, and no other run is tried for it.

* `Matches`: the texts that a pattern stands for.
* `Takes`: the texts that the search accepts, as a grammar.
* `Scan`: the search as a loop with one place to go back to; `answers_wildcardMatch`: it ends, with the answer of
  `wildcardMatch`.
* `matchAfterStar_eq_true_iff`: to go back to the last `*` only is enough.
* `accepts_text_iff`: what a criterion with a `*` or a `?` accepts. -/

set_option autoImplicit false

namespace Spreadsheet.Formula

/-! ## Patterns and texts -/

/-- A run of characters that a character of a pattern stands for. -/
def StandsFor (c : Char) (run : List Char) : Prop :=
  if c = '*' then True else if c = '?' then run.length = 1 else run = [c]

instance (c : Char) (run : List Char) : Decidable (StandsFor c run) :=
  inferInstanceAs (Decidable (if c = '*' then True else if c = '?' then run.length = 1 else run = [c]))

/-- A text that can be cut into runs, one for each character of a pattern. -/
def Matches (pattern text : List Char) : Prop := ∃ runs, List.Forall₂ StandsFor pattern runs ∧ runs.flatten = text

/-- The texts that the search accepts. A `*` in front of a `*` of the text stands for that character and nothing else. -/
inductive Takes : List Char → List Char → Prop where
  | nil : Takes [] []
  | one {p t : List Char} (d : Char) (h : Takes p t) : Takes ('?' :: p) (d :: t)
  | char {p t : List Char} {c : Char} (hc : c ≠ '?') (h : Takes p t) : Takes (c :: p) (c :: t)
  | run {p t rest : List Char} (ht : t.head? ≠ some '*') (hrest : rest <:+ t) (h : Takes p rest) : Takes ('*' :: p) t

theorem matches_nil : Matches [] [] := ⟨[], .nil, rfl⟩

theorem Matches.cons {c : Char} {run p t : List Char} (hrun : StandsFor c run) (h : Matches p t) :
    Matches (c :: p) (run ++ t) := by
  obtain ⟨runs, hruns, rfl⟩ := h
  exact ⟨run :: runs, .cons hrun hruns, rfl⟩

theorem matches_cons_iff {c : Char} {p t : List Char} :
    Matches (c :: p) t ↔ ∃ run rest, StandsFor c run ∧ Matches p rest ∧ run ++ rest = t := by
  constructor
  · rintro ⟨runs, hruns, rfl⟩
    obtain ⟨run, rest, hrun, hrest, rfl⟩ := List.forall₂_cons_left_iff.mp hruns
    exact ⟨run, rest.flatten, hrun, ⟨rest, hrest, rfl⟩, rfl⟩
  · rintro ⟨run, rest, hrun, hrest, rfl⟩
    exact hrest.cons hrun

theorem Takes.matches {p t : List Char} (h : Takes p t) : Matches p t := by
  induction h with
  | nil => exact matches_nil
  | one d _ ih =>
    have hone : StandsFor '?' [d] := rfl
    exact ih.cons hone
  | @char p t c hc _ ih =>
    have hself : StandsFor c [c] := by
      rw [StandsFor, if_neg hc]
      split <;> trivial
    exact ih.cons hself
  | run _ hrest _ ih =>
    obtain ⟨skipped, rfl⟩ := hrest
    have hany : StandsFor '*' skipped := trivial
    exact ih.cons hany

theorem Matches.takes {p t : List Char} (h : Matches p t) (ht : '*' ∉ t) : Takes p t := by
  induction p generalizing t with
  | nil =>
    obtain ⟨runs, hruns, rfl⟩ := h
    cases hruns
    exact .nil
  | cons c p ih =>
    obtain ⟨run, rest, hrun, hrest, rfl⟩ := matches_cons_iff.mp h
    have hlater : Takes p rest := ih hrest fun hmem => ht (List.mem_append_right run hmem)
    rw [StandsFor] at hrun
    split at hrun
    next hstar =>
      subst hstar
      refine .run (fun hhead => ht ?_) (List.suffix_append run rest) hlater
      exact List.mem_of_head? hhead
    split at hrun
    next hmark =>
      obtain ⟨d, rfl⟩ := List.length_eq_one_iff.mp hrun
      subst hmark
      exact .one d hlater
    next hmark =>
      subst hrun
      exact .char hmark hlater

theorem takes_nil_iff {p : List Char} : Takes p [] ↔ p.all (· == '*') = true := by
  induction p with
  | nil => exact ⟨fun _ => rfl, fun _ => .nil⟩
  | cons c p ih =>
    rw [List.all_cons, Bool.and_eq_true, beq_iff_eq, ← ih]
    constructor
    · intro h
      cases h with
      | run _ hrest h => exact ⟨rfl, List.suffix_nil.mp hrest ▸ h⟩
    · rintro ⟨rfl, h⟩
      exact .run (by simp) (List.suffix_refl []) h

/-- Where a character of the pattern goes with one of the text, both are left behind. -/
theorem takes_cons_cons_iff {c d : Char} {p t : List Char} (h : c = '?' ∨ c = d) : Takes (c :: p) (d :: t) ↔ Takes p t := by
  constructor
  · intro htakes
    cases htakes with
    | one _ htakes => exact htakes
    | char _ htakes => exact htakes
    | run ht _ _ =>
      -- The `*` stands in front of a `*`.
      obtain h | rfl := h
      · cases h
      · exact absurd rfl ht
  · intro htakes
    by_cases hc : c = '?'
    · subst hc
      exact .one d htakes
    · obtain rfl := h.resolve_left hc
      exact .char hc htakes

/-! ## Going along the text -/

theorem walk_ended {p t : List Char} {b : Bool} (h : walk p t = .ended b) : Takes p t ↔ b = true := by
  induction t generalizing p with
  | nil =>
    rw [walk, Walk.ended.injEq] at h
    rw [takes_nil_iff, h]
  | cons d t ih =>
    cases p with
    | nil => cases h
    | cons c p =>
      rw [walk] at h
      split at h
      next hgo => rw [takes_cons_cons_iff hgo, ih h]
      next => split at h <;> cases h

theorem walk_stuck {p t : List Char} (h : walk p t = .stuck) : ¬Takes p t := by
  induction t generalizing p with
  | nil => cases p <;> cases h
  | cons d t ih =>
    cases p with
    | nil => exact fun htakes => by cases htakes
    | cons c p =>
      rw [walk] at h
      split at h
      next hgo =>
        rw [takes_cons_cons_iff hgo]
        exact ih h
      next hno =>
        split at h
        · cases h
        next hstar =>
          intro htakes
          cases htakes with
          | one => exact hno (.inl rfl)
          | char => exact hno (.inr rfl)
          | run => exact hstar rfl

theorem walk_star {p t p' t' : List Char} (h : walk p t = .star p' t') :
    t'.head? ≠ some '*' ∧ (Takes p t ↔ Takes ('*' :: p') t') := by
  induction t generalizing p with
  | nil => cases p <;> cases h
  | cons d t ih =>
    cases p with
    | nil => cases h
    | cons c p =>
      rw [walk] at h
      split at h
      next hgo =>
        obtain ⟨hhead, htakes⟩ := ih h
        exact ⟨hhead, (takes_cons_cons_iff hgo).trans htakes⟩
      next hno =>
        split at h
        next hstar =>
          subst hstar
          obtain ⟨rfl, rfl⟩ := Walk.star.inj h
          refine ⟨fun hhead => hno (.inr ?_), Iff.rfl⟩
          exact (Option.some.inj hhead).symm
        next => cases h

theorem takes_star_iff {p t : List Char} (ht : t.head? ≠ some '*') :
    Takes ('*' :: p) t ↔ ∃ rest, rest <:+ t ∧ Takes p rest := by
  constructor
  · intro h
    cases h with
    | char _ _ => exact absurd rfl ht
    | run _ hrest h => exact ⟨_, hrest, h⟩
  · rintro ⟨rest, hrest, h⟩
    exact .run ht hrest h

/-! ## Going back to the last `*` -/

theorem Takes.tail {c : Char} {p t : List Char} (h : Takes (c :: p) t) : ∃ rest, rest <:+ t ∧ Takes p rest := by
  cases h with
  | one d h => exact ⟨_, List.suffix_cons d _, h⟩
  | char _ h => exact ⟨_, List.suffix_cons c _, h⟩
  | run _ hrest h => exact ⟨_, hrest, h⟩

/-- Where a character of the pattern goes with one of the text, what follows it is found behind that character, wherever the
pattern begins. -/
theorem Takes.tail_of_suffix {c d : Char} {p t u : List Char} (hgo : c = '?' ∨ c = d) (hu : u <:+ d :: t)
    (h : Takes (c :: p) u) : ∃ rest, rest <:+ t ∧ Takes p rest := by
  obtain rfl | hu := List.suffix_cons_iff.mp hu
  · exact ⟨t, List.suffix_refl t, (takes_cons_cons_iff hgo).mp h⟩
  · obtain ⟨rest, hrest, htakes⟩ := h.tail
    exact ⟨rest, hrest.trans hu, htakes⟩

theorem walk_ended_of_suffix {p t u : List Char} {b : Bool} (h : walk p t = .ended b) (hu : u <:+ t) (htakes : Takes p u) :
    b = true := by
  induction t generalizing p u with
  | nil =>
    rw [List.suffix_nil.mp hu] at htakes
    exact (walk_ended h).mp htakes
  | cons d t ih =>
    cases p with
    | nil => cases h
    | cons c p =>
      rw [walk] at h
      split at h
      next hgo =>
        obtain ⟨rest, hrest, htakes⟩ := htakes.tail_of_suffix hgo hu
        exact ih h hrest htakes
      next => split at h <;> cases h

theorem walk_star_of_suffix {p t p' t' u : List Char} (h : walk p t = .star p' t') (hu : u <:+ t) (htakes : Takes p u) :
    ∃ rest, rest <:+ t' ∧ Takes p' rest := by
  induction t generalizing p u with
  | nil => cases p <;> cases h
  | cons d t ih =>
    cases p with
    | nil => cases h
    | cons c p =>
      rw [walk] at h
      split at h
      next hgo =>
        obtain ⟨rest, hrest, htakes⟩ := htakes.tail_of_suffix hgo hu
        exact ih h hrest htakes
      next =>
        split at h
        next =>
          obtain ⟨rfl, rfl⟩ := Walk.star.inj h
          obtain ⟨rest, hrest, htakes⟩ := htakes.tail
          exact ⟨rest, hrest.trans hu, htakes⟩
        next => cases h

theorem matchAfterStar_eq (p t : List Char) : matchAfterStar p t = match walk p t with
    | .ended matched => matched
    | .star p' t' => matchAfterStar p' t'
    | .stuck => match t with
      | [] => false
      | _ :: rest => matchAfterStar p rest := by
  rw [matchAfterStar]
  split
  next h => rw [h]
  next h => rw [h]
  next h => cases t <;> simp only [h]

theorem matchAfterStar_eq_true_iff (p t : List Char) :
    matchAfterStar p t = true ↔ ∃ rest, rest <:+ t ∧ Takes p rest := by
  induction p, t using matchAfterStar.induct with
  | case1 p t matched h =>
    rw [matchAfterStar_eq, h]
    exact ⟨fun hb => ⟨t, List.suffix_refl t, (walk_ended h).mpr hb⟩,
      fun ⟨rest, hrest, htakes⟩ => walk_ended_of_suffix h hrest htakes⟩
  | case2 p t p' t' h ih =>
    obtain ⟨hhead, htakes⟩ := walk_star h
    rw [matchAfterStar_eq, h]
    dsimp only
    rw [ih]
    constructor
    · intro hfound
      exact ⟨t, List.suffix_refl t, htakes.mpr ((takes_star_iff hhead).mpr hfound)⟩
    · rintro ⟨rest, hrest, hfound⟩
      exact walk_star_of_suffix h hrest hfound
  | case3 p h => cases p <;> cases h
  | case4 p d t h ih =>
    rw [matchAfterStar_eq, h]
    dsimp only
    rw [ih]
    constructor
    · rintro ⟨rest, hrest, htakes⟩
      exact ⟨rest, hrest.trans (List.suffix_cons d t), htakes⟩
    · rintro ⟨rest, hrest, htakes⟩
      obtain rfl | hrest := List.suffix_cons_iff.mp hrest
      · exact absurd htakes (walk_stuck h)
      · exact ⟨rest, hrest, htakes⟩

theorem wildcardMatch_eq_true_iff (p t : List Char) : wildcardMatch p t = true ↔ Takes p t := by
  unfold wildcardMatch
  cases h : walk p t with
  | ended matched => exact (walk_ended h).symm
  | stuck => exact ⟨fun hb => (nomatch hb), fun htakes => absurd htakes (walk_stuck h)⟩
  | star p' t' =>
    obtain ⟨hhead, htakes⟩ := walk_star h
    rw [htakes, takes_star_iff hhead]
    exact matchAfterStar_eq_true_iff p' t'

/-! ## The search as a loop -/

/-- The search between two steps: what is left of the pattern and of the text, and the place to go back to: the pattern
after the last `*`, and the text from which on it has been tried last. -/
structure Scan where
  pattern : List Char
  text : List Char
  resume : Option (List Char × List Char)

/-- What one step of the search leads to. -/
inductive Scan.Outcome where
  | next (s : Scan)
  | answered (b : Bool)

namespace Scan

def start (pattern text : List Char) : Scan := ⟨pattern, text, none⟩

/-- What follows the last `*` is tried from the next place of the text on. -/
def back : Option (List Char × List Char) → Outcome
  | some (p, _ :: t) => .next ⟨p, t, some (p, t)⟩
  | _ => .answered false

/-- One step: the first characters go together, or the pattern begins with a `*`, or the search goes back. -/
def step : Scan → Outcome
  | ⟨p, [], _⟩ => .answered (p.all (· == '*'))
  | ⟨[], _ :: _, r⟩ => back r
  | ⟨c :: p, d :: t, r⟩ =>
    if c = '?' ∨ c = d then .next ⟨p, t, r⟩
    else if c = '*' then .next ⟨p, d :: t, some (p, d :: t)⟩
    else back r

/-- The search ends, after some number of steps, with an answer. -/
inductive Answers : Scan → Bool → Prop where
  | halt {s : Scan} {b : Bool} (h : s.step = .answered b) : Answers s b
  | step {s s' : Scan} {b : Bool} (h : s.step = .next s') (h' : Answers s' b) : Answers s b

theorem Answers.unique {s : Scan} {b b' : Bool} (h : s.Answers b) (h' : s.Answers b') : b = b' := by
  induction h with
  | halt h =>
    cases h' with
    | halt h' => exact Outcome.answered.inj (h.symm.trans h')
    | step h' _ => cases h.symm.trans h'
  | step h _ ih =>
    cases h' with
    | halt h' => cases h.symm.trans h'
    | step h' hrest =>
      obtain rfl := Outcome.next.inj (h.symm.trans h')
      exact ih hrest

/-- The loop goes along the text as `walk` does, whatever place there is to go back to. -/
theorem answers_of_walk {p t : List Char} {r : Option (List Char × List Char)} {b : Bool}
    (h : match walk p t with
      | .ended matched => matched = b
      | .star p' t' => Answers ⟨p', t', some (p', t')⟩ b
      | .stuck => back r = .answered b ∨ ∃ s, back r = .next s ∧ s.Answers b) : Answers ⟨p, t, r⟩ b := by
  induction t generalizing p with
  | nil =>
    cases p with
    | nil => exact .halt (congrArg Outcome.answered h)
    | cons c p => exact .halt (congrArg Outcome.answered h)
  | cons d t ih =>
    cases p with
    | nil =>
      obtain h | ⟨s, hnext, h⟩ := h
      · exact .halt h
      · exact .step hnext h
    | cons c p =>
      rw [walk] at h
      by_cases hgo : c = '?' ∨ c = d
      · rw [if_pos hgo] at h
        exact .step (if_pos hgo) (ih h)
      rw [if_neg hgo] at h
      by_cases hstar : c = '*'
      · rw [if_pos hstar] at h
        exact .step ((if_neg hgo).trans (if_pos hstar)) h
      rw [if_neg hstar] at h
      have hback : Scan.step ⟨c :: p, d :: t, r⟩ = back r := (if_neg hgo).trans (if_neg hstar)
      obtain h | ⟨s, hnext, h⟩ := h
      · exact .halt (hback.trans h)
      · exact .step (hback.trans hnext) h

theorem answers_matchAfterStar (p t : List Char) : Answers ⟨p, t, some (p, t)⟩ (matchAfterStar p t) := by
  induction p, t using matchAfterStar.induct with
  | case1 p t matched h =>
    refine answers_of_walk ?_
    rw [matchAfterStar_eq, h]
  | case2 p t p' t' h ih =>
    refine answers_of_walk ?_
    rw [matchAfterStar_eq, h]
    exact ih
  | case3 p h => cases p <;> cases h
  | case4 p d t h ih =>
    refine answers_of_walk ?_
    rw [matchAfterStar_eq, h]
    exact .inr ⟨_, rfl, ih⟩

theorem answers_wildcardMatch (p t : List Char) : (start p t).Answers (wildcardMatch p t) := by
  refine answers_of_walk ?_
  unfold wildcardMatch
  cases walk p t with
  | ended matched => rfl
  | star p' t' => exact answers_matchAfterStar p' t'
  | stuck => exact .inl rfl

end Scan

/-! ## Criteria -/

/-- A criterion with a `*` or a `?` accepts the texts that the search accepts, and the search ends on all of them. It accepts
nothing that the pattern does not stand for, and all that it stands for if the text has no `*`. -/
theorem accepts_text_iff {p s : String} (hp : '*' ∈ p.toList ∨ '?' ∈ p.toList) :
    ((Criterion.ofValue (.text p)).accepts (.text s) = true ↔ Takes p.toList s.toList) ∧
      ((Criterion.ofValue (.text p)).accepts (.text s) = true → Matches p.toList s.toList) ∧
      ('*' ∉ s.toList → Matches p.toList s.toList → (Criterion.ofValue (.text p)).accepts (.text s) = true) ∧
      (Scan.start p.toList s.toList).Answers ((Criterion.ofValue (.text p)).accepts (.text s)) := by
  have hany : (p.toList.any fun c => c == '*' || c == '?') = true := by
    rw [List.any_eq_true]
    obtain hmem | hmem := hp
    · exact ⟨_, hmem, rfl⟩
    · exact ⟨_, hmem, rfl⟩
  have haccepts : (Criterion.ofValue (.text p)).accepts (.text s) = wildcardMatch p.toList s.toList := by
    rw [Criterion.ofValue, if_pos hany, Criterion.accepts]
  rw [haccepts, wildcardMatch_eq_true_iff]
  exact ⟨Iff.rfl, Takes.matches, fun hs hmatches => hmatches.takes hs, Scan.answers_wildcardMatch _ _⟩

/-- The second `*` of the pattern is reached only when the first is no longer needed. -/
theorem accepts_text_iff_twoRuns :
    ('*' ∈ "*a*b".toList ∨ '?' ∈ "*a*b".toList) ∧ (Criterion.ofValue (.text "*a*b")).accepts (.text "xxaxxb") = true :=
  have hp : '*' ∈ "*a*b".toList ∨ '?' ∈ "*a*b".toList := by decide
  have hruns : List.Forall₂ StandsFor "*a*b".toList [['x', 'x'], ['a'], ['x', 'x'], ['b']] := by decide
  ⟨hp, (accepts_text_iff hp).2.2.1 (by decide) ⟨_, hruns, by decide⟩⟩

/-- The text ends with the `a` of the pattern, but it begins with a `*`: the `*` of the pattern is taken for that one, and
nothing is tried for it when the `b` does not go with the `a`. -/
theorem not_accepts_of_matches :
    Matches "*a".toList "*ba".toList ∧ (Criterion.ofValue (.text "*a")).accepts (.text "*ba") = false := by
  have hruns : List.Forall₂ StandsFor "*a".toList [['*', 'b'], ['a']] := by decide
  exact ⟨⟨_, hruns, by decide⟩, by decide⟩

end Spreadsheet.Formula
