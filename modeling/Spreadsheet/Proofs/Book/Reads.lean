import Spreadsheet.Proofs.Book.Requests
import Spreadsheet.Proofs.Formula.Raising
import Mathlib.Logic.Relation

/-! # Cells that formulas read

Which cells a formula reads depends on the values of those that it has read before.

* `GetsTo`: how far the formula of a cell gets when it is told the values that cells have.
* `Reads`: a cell that the formula of a cell asks for.
* `NeedsCycle`: a cell that leads to one whose formula needs its own value. It has no value.
* `evalWithin_cycle`: the evaluator says so. -/

set_option autoImplicit false

namespace Spreadsheet

open Grid Relation

namespace Formula.Query

variable {α : Type} {known : Option String → Address → Value → Prop}

/-- A dialogue goes on after an answer that is known. -/
inductive Next (known : Option String → Address → Value → Prop) : Query α → Query α → Prop where
  | told {sheet : Option String} {a : Address} {v : Value} (next : Value → Query α) (hv : known sheet a v) :
      Next known (.ask sheet a next) (next v)

theorem Raises.of_next {P : Error → Prop} {q q' : Query α} (hq : q.Raises P)
    (h : ReflTransGen (Next known) q q') : q'.Raises P := by
  induction h with
  | refl => exact hq
  | tail _ hnext ih =>
    cases hnext with
    | told next _ => exact ih _

/-- A dialogue that ends with a result goes through every point that known answers lead to. -/
theorem run_of_next {answer : Option String → Address → Except Error Value}
    (hanswer : ∀ {sheet a v w}, known sheet a v → answer sheet a = .ok w → w = v) {q q' : Query α} {x : α}
    (h : ReflTransGen (Next known) q q') (hx : run (m := Id) answer q = .ok x) : run (m := Id) answer q' = .ok x := by
  induction h with
  | refl => exact hx
  | tail _ hnext ih =>
    cases hnext with
    | @told sheet a v next hv =>
      rw [run_ask_id] at ih
      cases hw : answer sheet a with
      | error e =>
        rw [hw] at ih
        cases ih
      | ok w =>
        rw [hw] at ih
        rw [← hanswer hv hw]
        exact ih

end Formula.Query

namespace Book

variable {b : Book}

/-! ## Formulas and the cells that they read -/

/-- The value of a cell is computed by its formula. -/
def Computes (b : Book) (force : Bool) (f : Frame) : Prop :=
  ∃ s e, b.found f.sheet = .ok s ∧ Session.plan s b.strings f.address.unanchored force = .ok (.compute e)

/-- The formula of a cell gets to a point of its dialogue, if it is told the values that cells have. -/
def GetsTo (b : Book) (f : Frame) (q : Formula.Query Value) : Prop :=
  ∃ s e, b.found f.sheet = .ok s ∧ Session.plan s b.strings f.address.unanchored true = .ok (.compute e) ∧
    ReflTransGen (Formula.Query.Next fun sheet a v => b.Derives (sheet.getD f.sheet) a true v)
      (e.query f.address.unanchored) q

/-- The formula of a cell asks for another one, or for the cell itself. -/
def Reads (b : Book) (f g : Frame) : Prop :=
  ∃ sheet a next, b.GetsTo f (.ask sheet a next) ∧ g = ⟨sheet.getD f.sheet, a.unanchored⟩

theorem GetsTo.raises {f : Frame} {q : Formula.Query Value} (h : b.GetsTo f q) : q.Raises Formula.IsEvaluationError := by
  obtain ⟨s, e, -, -, hnext⟩ := h
  exact (e.raises_query _).of_next hnext

theorem GetsTo.told {f : Frame} {sheet : Option String} {a : Address} {next : Value → Formula.Query Value} {v : Value}
    (h : b.GetsTo f (.ask sheet a next)) (hv : b.Derives (sheet.getD f.sheet) a true v) : b.GetsTo f (next v) := by
  obtain ⟨s, e, hs, hplan, hnext⟩ := h
  exact ⟨s, e, hs, hplan, hnext.tail (.told next hv)⟩

/-- A cell that is read is asked for in the dialogue of the formula that is evaluated. -/
theorem Reads.exists_ask {f g : Frame} (h : b.Reads f g) {s : Sheet} (hs : b.found f.sheet = .ok s) {force : Bool}
    {e : Formula.Expr} (hplan : Session.plan s b.strings f.address.unanchored force = .ok (.compute e)) :
    ∃ sheet a next, g = ⟨sheet.getD f.sheet, a.unanchored⟩ ∧
      ReflTransGen (Formula.Query.Next fun sheet a v => b.Derives (sheet.getD f.sheet) a true v)
        (e.query f.address.unanchored) (.ask sheet a next) := by
  obtain ⟨sheet, a, next, ⟨s', e', hs', hplan', hnext⟩, hg⟩ := h
  rw [hs] at hs'
  obtain rfl := Except.ok.inj hs'
  rw [Session.plan_force hplan] at hplan'
  obtain rfl := Session.Plan.compute.inj (Except.ok.inj hplan')
  exact ⟨sheet, a, next, hg, hnext⟩

theorem exists_run_of_next {name : String} {q q' : Formula.Query Value} {v : Value} (h : ReflTransGen
      (Formula.Query.Next fun sheet a v => b.Derives (sheet.getD name) a true v) q q') {depth : Nat}
    (hv : Formula.Query.run (m := Id) (b.derivedAnswer depth name) q' = .ok v) :
    ∃ depth, Formula.Query.run (m := Id) (b.derivedAnswer depth name) q = .ok v := by
  induction h using ReflTransGen.head_induction_on with
  | refl => exact ⟨depth, hv⟩
  | head hnext _ ih =>
    obtain ⟨depth, hdepth⟩ := ih
    cases hnext with
    | @told sheet a w next hw =>
      obtain ⟨depth', hw⟩ := hw
      have hanswer : b.derivedAnswer (max depth depth') name sheet a = .ok w :=
        derivedAnswer_eq_ok.mpr (derive_mono hw (Nat.le_max_right _ _))
      refine ⟨max depth depth', ?_⟩
      rw [Formula.Query.run_ask_id, hanswer]
      refine Formula.Query.run_mono (fun sheet a u hu => ?_) hdepth
      exact derivedAnswer_eq_ok.mpr (derive_mono (derivedAnswer_eq_ok.mp hu) (Nat.le_max_left _ _))

theorem GetsTo.derives {f : Frame} {v : Value} (h : b.GetsTo f (.done v)) : b.Derives f.sheet f.address true v := by
  obtain ⟨s, e, hs, hplan, hnext⟩ := h
  have hend : Formula.Query.run (m := Id) (b.derivedAnswer 0 f.sheet) (.done v) = .ok v := rfl
  obtain ⟨depth, hdepth⟩ := exists_run_of_next hnext hend
  exact derives_iff.mpr ⟨s, hs, .inr ⟨e, hplan, depth, hdepth⟩⟩

/-! ## Cells without a value -/

/-- A cell that leads to one whose formula needs its own value. -/
def NeedsCycle (b : Book) (f : Frame) : Prop := ∃ g, ReflTransGen b.Reads f g ∧ TransGen b.Reads g g

theorem NeedsCycle.exists_reads {f : Frame} (h : b.NeedsCycle f) : ∃ g, b.Reads f g ∧ b.NeedsCycle g := by
  obtain ⟨k, hk, hcycle⟩ := h
  have hpath : TransGen b.Reads f k := TransGen.trans_right hk hcycle
  obtain ⟨g, hg, hrest⟩ := TransGen.head'_iff.mp hpath
  exact ⟨g, hg, k, hrest, hcycle⟩

theorem NeedsCycle.computes {f : Frame} (h : b.NeedsCycle f) : b.Computes true f := by
  obtain ⟨g, ⟨sheet, a, next, ⟨s, e, hs, hplan, -⟩, -⟩, -⟩ := h.exists_reads
  exact ⟨s, e, hs, hplan⟩

theorem NeedsCycle.not_derives {f : Frame} (h : b.NeedsCycle f) (v : Value) : ¬ b.Derives f.sheet f.address true v := by
  rintro ⟨depth, hdepth⟩
  induction depth generalizing f v with
  | zero => cases hdepth
  | succ depth ih =>
    obtain ⟨g, hreads, hg⟩ := h.exists_reads
    obtain ⟨s, hs, hcases⟩ := derive_succ_eq_ok.mp hdepth
    obtain hknown | ⟨e, hplan, hrun⟩ := hcases
    · obtain ⟨t, e, ht, hcompute⟩ := h.computes
      rw [hs] at ht
      obtain rfl := Except.ok.inj ht
      rw [hknown] at hcompute
      cases hcompute
    obtain ⟨sheet, a, next, rfl, hnext⟩ := hreads.exists_ask hs hplan
    -- The dialogue goes through the question for the next cell, which has no value of a smaller depth.
    have hask := Formula.Query.run_of_next
      (fun hv hw => Derives.unique ⟨depth, derivedAnswer_eq_ok.mp hw⟩ hv) hnext hrun
    rw [Formula.Query.run_ask_id] at hask
    cases hanswer : b.derivedAnswer depth f.sheet sheet a with
    | error e =>
      rw [hanswer] at hask
      cases hask
    | ok w => exact ih hg w ((derive_unanchored ..).trans (derivedAnswer_eq_ok.mp hanswer))

/-! ## The evaluator finds the cycle -/

namespace Session

/-- An error that says that a cell needs its own value. -/
def IsCycle (r : Except Error Value) : Prop := ∃ s, r = .error (.formula (.cycleDetected s))

theorem query_cycle {limit : Nat} {name : String} {sheet : Option String} {a : Address}
    {next : Value → Formula.Query Value} (hb : b.IsConsistent)
    (hcall : ∀ {c}, (∀ depth, Ready b depth limit c) → IsCycle ((evalWithin limit (sheet.getD name) a true).run c).1)
    {q : Formula.Query Value} (hq : ReflTransGen
      (Formula.Query.Next fun sheet a v => b.Derives (sheet.getD name) a true v) q (.ask sheet a next))
    {c : Book} (hc : ∀ depth, Ready b depth limit c) :
    ∃ s, (Formula.Query.run (m := StateM Book) (cachedAnswer limit name) q c).1 = .error (.cycleDetected s) := by
  induction hq using ReflTransGen.head_induction_on generalizing c with
  | refl =>
    obtain ⟨s, hs⟩ := hcall hc
    rw [Formula.Query.run_ask_state, cachedAnswer, hs]
    exact ⟨s, rfl⟩
  | head hnext _ ih =>
    cases hnext with
    | @told sheet' a' v next' hv =>
      obtain ⟨depth, hv⟩ := hv
      have hvalue : (cachedAnswer limit name sheet' a' c).1 = .ok v :=
        mapError_eq_ok.mpr (evalWithin_complete hb (hc depth) hv)
      have hadvances : Advances b c (cachedAnswer limit name sheet' a' c).2 :=
        (evalWithin_sound limit (sheet'.getD name) a' true (hc depth).extension).1
      rw [Formula.Query.run_ask_state]
      cases hanswer : cachedAnswer limit name sheet' a' c with
      | mk r d =>
        rw [hanswer] at hvalue hadvances
        dsimp only at hvalue
        rw [hvalue]
        exact ih fun depth => (hc depth).advances hadvances

theorem evalWithin_cycle (hb : b.IsConsistent) (limit : Nat) {name : String} {a : Address} {force : Bool} {c : Book}
    (hc : ∀ depth, Ready b depth limit c) (hcompute : b.Computes force ⟨name, a⟩)
    (hcycle : b.NeedsCycle ⟨name, a.unanchored⟩) : IsCycle ((evalWithin limit name a force).run c).1 := by
  induction limit generalizing name a force c with
  | zero => exact absurd (hc 0).room.pos (Nat.lt_irrefl 0)
  | succ limit ih =>
    obtain ⟨s, e, hs, hplan⟩ := hcompute
    have hextension := (hc 0).extension
    obtain ⟨t, ht, -⟩ := hextension.sheet hs
    have hload : Advances b c (c.loaded name) := hextension.advances_loaded name
    have htl : (c.loaded name).found name = .ok t := by rw [found_loaded, ht]
    rw [run_evalWithin, ht]
    dsimp only
    obtain ⟨v, -, hv⟩ | hsame := plan_cases hload.extension hs htl a force
    · exact absurd (derives_unanchored.mpr hv) (hcycle.not_derives v)
    rw [hsame, hplan]
    dsimp only
    split
    · exact ⟨_, rfl⟩
    next hwaits =>
      have hnew : (⟨name, a.unanchored⟩ : Frame) ∉ (c.loaded name).evaluating := by simpa using hwaits
      have hready : ∀ depth, Ready b depth limit (pushed (c.loaded name) ⟨name, a.unanchored⟩) := fun depth =>
        ((hc (depth + 1)).advances hload).push (isFrame_of_plan hb hs hplan) hnew fun v hv =>
          hcycle.not_derives v ⟨depth, (derive_unanchored ..).trans hv⟩
      obtain ⟨g, hreads, hg⟩ := hcycle.exists_reads
      obtain ⟨sheet, a', next, rfl, hnext⟩ := hreads.exists_ask hs hplan
      have hend : ∃ r, (computed limit name a.unanchored e (c.loaded name)).1 = .error (.cycleDetected r) :=
        query_cycle hb (fun hd => ih (a := a') hd hg.computes hg) hnext hready
      obtain ⟨r, hr⟩ := hend
      refine ⟨r, ?_⟩
      cases hresult : computed limit name a.unanchored e (c.loaded name) with
      | mk r' d =>
        rw [hresult] at hr
        dsimp only at hr
        rw [hr]
        rfl

end Session

end Book

end Spreadsheet
