import Spreadsheet.Proofs.Book.Loading

/-! # Evaluation without a cache

`derive` evaluates a cell anew each time that it is asked for, and keeps nothing. It has no stack either: a depth bounds
the recursion, and a value has a derivation when some depth is enough.

* `derive_mono`: more depth changes no value.
* `Derives.unique`: a cell has at most one value.
* `Session.run_evalWithin`: what the evaluator with a cache does, one branch for each way that it can end. -/

set_option autoImplicit false

namespace Spreadsheet

open Grid

namespace Formula.Query

variable {α : Type}

theorem run_ask_id (answer : Option String → Address → Except Error Value) (sheet : Option String) (a : Address)
    (next : Value → Query α) :
    Query.run (m := Id) answer (.ask sheet a next) = match answer sheet a with
      | .ok v => Query.run (m := Id) answer (next v)
      | .error e => .error e := by
  rw [Query.run]
  rfl

theorem run_ask_state {σ : Type} (answer : Option String → Address → StateM σ (Except Error Value))
    (sheet : Option String) (a : Address) (next : Value → Query α) (s : σ) :
    Query.run (m := StateM σ) answer (.ask sheet a next) s = match answer sheet a s with
      | (.ok v, t) => Query.run (m := StateM σ) answer (next v) t
      | (.error e, t) => (.error e, t) := by
  rw [Query.run]
  change (match answer sheet a s with
    | (x, t) => (match x with
      | .ok v => Query.run (m := StateM σ) answer (next v)
      | .error e => pure (.error e)) t) = _
  cases h : answer sheet a s with
  | mk x t => cases x <;> rfl

theorem run_mono {f g : Option String → Address → Except Error Value}
    (h : ∀ sheet a v, f sheet a = .ok v → g sheet a = .ok v) {q : Query α} {x : α}
    (hx : Query.run (m := Id) f q = .ok x) : Query.run (m := Id) g q = .ok x := by
  induction q with
  | done y => exact hx
  | fail e => cases hx
  | ask sheet a next ih =>
    rw [run_ask_id] at hx ⊢
    cases hf : f sheet a with
    | error e =>
      rw [hf] at hx
      cases hx
    | ok v =>
      rw [hf] at hx
      rw [h sheet a v hf]
      exact ih v hx

end Formula.Query

namespace Book

/-! ## Derivations -/

/-- The value of a cell, with every cell that it asks for evaluated anew, at most `depth` inside one another. -/
def derive (b : Book) : Nat → String → Address → Bool → Except Error Value
  | 0, name, a, _ => .error (Session.cycle ⟨name, a.unanchored⟩)
  | depth + 1, name, a, force => do
    let s ← b.found name
    match ← (Session.plan s b.strings a.unanchored force).mapError .formula with
    | .known v => return v
    | .compute e =>
      let answer (sheet : Option String) (a : Address) : Id (Except Formula.Error Value) :=
        (b.derive depth (sheet.getD name) a true).mapError Session.asFormulaError
      (e.evaluate a.unanchored answer).mapError .formula

/-- A cell has a value without a cache. -/
def Derives (b : Book) (name : String) (a : Address) (force : Bool) (v : Value) : Prop :=
  ∃ depth, b.derive depth name a force = .ok v

def derivedAnswer (b : Book) (depth : Nat) (name : String) (sheet : Option String) (a : Address) :
    Except Formula.Error Value :=
  (b.derive depth (sheet.getD name) a true).mapError Session.asFormulaError

theorem derivedAnswer_eq_ok {b : Book} {depth : Nat} {name : String} {sheet : Option String} {a : Address} {v : Value} :
    b.derivedAnswer depth name sheet a = .ok v ↔ b.derive depth (sheet.getD name) a true = .ok v := mapError_eq_ok

/-- A derivation uses the sheet that is found, and then a known value or the cells that the formula asks for. -/
theorem derive_succ_eq_ok {b : Book} {depth : Nat} {name : String} {a : Address} {force : Bool} {v : Value} :
    b.derive (depth + 1) name a force = .ok v ↔ ∃ s, b.found name = .ok s ∧
      (Session.plan s b.strings a.unanchored force = .ok (.known v) ∨
        ∃ e, Session.plan s b.strings a.unanchored force = .ok (.compute e) ∧
          Formula.Query.run (m := Id) (b.derivedAnswer depth name) (e.query a.unanchored) = .ok v) := by
  rw [derive, bind_eq_ok]
  refine exists_congr fun s => and_congr_right fun _ => ?_
  rw [bind_eq_ok]
  constructor
  · rintro ⟨p, hp, hv⟩
    have hp := mapError_eq_ok.mp hp
    cases p with
    | known w =>
      left
      rw [hp, pure_eq_ok.mp hv]
    | compute e => exact .inr ⟨e, hp, mapError_eq_ok.mp hv⟩
  · rintro (hp | ⟨e, hp, hv⟩)
    · exact ⟨.known v, mapError_eq_ok.mpr hp, rfl⟩
    · exact ⟨.compute e, mapError_eq_ok.mpr hp, mapError_eq_ok.mpr hv⟩

theorem derive_mono {b : Book} {depth more : Nat} {name : String} {a : Address} {force : Bool} {v : Value}
    (h : b.derive depth name a force = .ok v) (hle : depth ≤ more) : b.derive more name a force = .ok v := by
  induction depth generalizing more name a force v with
  | zero => cases h
  | succ depth ih =>
    obtain ⟨more, rfl⟩ : ∃ k, more = k + 1 := ⟨more - 1, by omega⟩
    obtain ⟨s, hs, hcases⟩ := derive_succ_eq_ok.mp h
    refine derive_succ_eq_ok.mpr ⟨s, hs, hcases.imp id ?_⟩
    rintro ⟨e, he, hv⟩
    refine ⟨e, he, Formula.Query.run_mono (fun sheet a w hw => ?_) hv⟩
    exact derivedAnswer_eq_ok.mpr (ih (derivedAnswer_eq_ok.mp hw) (by omega))

theorem derive_unanchored (b : Book) (depth : Nat) (name : String) (a : Address) (force : Bool) :
    b.derive depth name a.unanchored force = b.derive depth name a force := by
  cases depth with
  | zero => rfl
  | succ depth => rfl

theorem derives_unanchored {b : Book} {name : String} {a : Address} {force : Bool} {v : Value} :
    b.Derives name a.unanchored force v ↔ b.Derives name a force v :=
  exists_congr fun depth => by rw [derive_unanchored]

theorem Derives.unique {b : Book} {name : String} {a : Address} {force : Bool} {v w : Value}
    (hv : b.Derives name a force v) (hw : b.Derives name a force w) : v = w := by
  obtain ⟨n, hn⟩ := hv
  obtain ⟨k, hk⟩ := hw
  have hn' := derive_mono hn (Nat.le_max_left n k)
  have hk' := derive_mono hk (Nat.le_max_right n k)
  rw [hn'] at hk'
  exact Except.ok.inj hk'

/-! ## The evaluator with a cache -/

namespace Session

/-- What a formula gets for a cell that it asks for, and the book afterwards. -/
def cachedAnswer (limit : Nat) (name : String) (sheet : Option String) (a : Address) (b : Book) :
    Except Formula.Error Value × Book :=
  (((evalWithin limit (sheet.getD name) a true).run b).1.mapError asFormulaError,
    ((evalWithin limit (sheet.getD name) a true).run b).2)

def pushed (b : Book) (f : Frame) : Book := { b with evaluating := f :: b.evaluating }

def popped (b : Book) : Book := { b with evaluating := b.evaluating.tail }

/-- A formula evaluated while its cell waits: its result, and the book in which the cell waits no longer. -/
def computed (limit : Nat) (name : String) (a : Address) (e : Formula.Expr) (b : Book) :
    Except Formula.Error Value × Book :=
  let result := Formula.Query.run (m := StateM Book) (cachedAnswer limit name) (e.query a) (pushed b ⟨name, a⟩)
  (result.1, popped result.2)

def kept (name : String) (a : Address) : Except Formula.Error Value × Book → Except Error Value × Book
  | (.ok v, b) => match (keep name a v).run b with
    | (.ok _, c) => (.ok v, c)
    | (.error e, c) => (.error e, c)
  | (.error e, b) => (.error (.formula e), b)

theorem run_evalWithin (limit : Nat) (name : String) (a : Address) (force : Bool) (b : Book) :
    (evalWithin (limit + 1) name a force).run b = match b.found name with
      | .error e => (.error e, b.loaded name)
      | .ok s => match plan s (b.loaded name).strings a.unanchored force with
        | .error e => (.error (.formula e), b.loaded name)
        | .ok (.known v) => (.ok v, b.loaded name)
        | .ok (.compute e) =>
          if (b.loaded name).evaluating.contains ⟨name, a.unanchored⟩ then
            (.error (cycle ⟨name, a.unanchored⟩), b.loaded name)
          else kept name a.unanchored (computed limit name a.unanchored e (b.loaded name)) := by
  rw [evalWithin, run_bind, run_load]
  cases b.found name with
  | error e => rfl
  | ok s =>
    dsimp only
    rw [run_bind, run_get]
    dsimp only
    rw [run_bind, run_ofExcept]
    cases plan s (b.loaded name).strings a.unanchored force with
    | error e => rfl
    | ok p =>
      cases p with
      | known v => rfl
      | compute e =>
        have hanswer : (fun sheet a => (fun r => Except.mapError asFormulaError r) <$>
            (evalWithin limit (sheet.getD name) a true).run) = cachedAnswer limit name := rfl
        have hok : Except.mapError Error.formula (.ok (Plan.compute e)) = .ok (.compute e) := rfl
        rw [hok, hanswer]
        dsimp only
        by_cases hwaits : (b.loaded name).evaluating.contains ⟨name, a.unanchored⟩ = true
        · rw [if_pos hwaits, if_pos hwaits]
          rfl
        · have hrun : (ExceptT.mk ((fun r => Except.mapError Error.formula r) <$>
              within ⟨name, a.unanchored⟩ (e.evaluate a.unanchored (cachedAnswer limit name))) : Session Value).run
                (b.loaded name) =
              ((computed limit name a.unanchored e (b.loaded name)).1.mapError .formula,
                (computed limit name a.unanchored e (b.loaded name)).2) := rfl
          rw [if_neg hwaits, if_neg hwaits, run_bind, hrun]
          cases computed limit name a.unanchored e (b.loaded name) with
          | mk r c =>
            cases r with
            | error e => rfl
            | ok v =>
              have hok : Except.mapError Error.formula (.ok v) = .ok v := rfl
              rw [hok]
              dsimp only
              rw [run_bind, kept]
              cases (keep name a.unanchored v).run c with
              | mk r d => cases r <;> rfl

end Session

end Book

end Spreadsheet
