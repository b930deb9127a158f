import Spreadsheet.Proofs.Book.Machine
import Spreadsheet.Proofs.Book.Reads
import Mathlib.Data.List.Dedup

/-! # Every evaluation ends

A cell of the stack never gets there twice, so an evaluation goes no deeper than there are formulas, and the machine that
has no bound on its depth comes to an end.

* `Stack`, `Awaits`: the cells on the stack, and what each of them waits for.
* `Sound`: what is known of an evaluation between two steps.
* `Sound.step`: a step keeps it.
* `eval_ends`: the run of an evaluation, its stack, and the cells that it says need their own values. -/

set_option autoImplicit false

namespace Spreadsheet.Book

open Grid Relation

variable {b : Book}

/-! ## Errors that are no cycles -/

/-- An error that has nothing to do with a formula. -/
def IsForeign (e : Error) : Prop := ∀ e', e ≠ .formula e'

theorem raises_optionalPart (a : Archive) (path : Option String) : Raises IsForeign (optionalPart a path) := by
  unfold optionalPart
  split
  · exact (raises_mapError (fun _ _ h => nomatch h) _).map some
  · exact .ok none

theorem raises_readSheet (a : Archive) (c : Catalog) (name : String) : Raises IsForeign (readSheet a c name) := by
  have hpath : Raises IsForeign (c.pathOf name) := by
    unfold Catalog.pathOf
    split
    · exact .ok _
    · exact .error fun _ h => nomatch h
  have hnotes : ∀ path, Raises IsForeign (notesPart a path) := by
    intro path
    unfold notesPart
    refine (raises_optionalPart a _).bind fun bytes => ?_
    split
    · exact .ok none
    · exact (raises_mapError (fun _ _ h => nomatch h) _).bind fun rs => raises_optionalPart a _
  unfold readSheet
  refine hpath.bind fun path => ?_
  split
  · refine (raises_mapError (fun _ _ h => nomatch h) _).bind fun bytes => ?_
    exact (hnotes path).bind fun notes => raises_mapError (fun _ _ h => nomatch h) _
  · exact .error fun _ h => nomatch h

theorem raises_found (b : Book) (name : String) : Raises IsForeign (b.found name) := by
  unfold found
  split
  · exact .ok _
  · exact raises_readSheet _ _ _

/-- What is to be done for a cell fails only for the text of its formula. -/
theorem raises_plan (s : Sheet) (strings : StringTable) (a : Address) (force : Bool) :
    Raises (fun e => Formula.IsSyntaxError e ∨ Formula.IsMoveError e) (Session.plan s strings a force) := by
  have hparse : ∀ text, Raises (fun e => Formula.IsSyntaxError e ∨ Formula.IsMoveError e) (Formula.parse text) :=
    fun text => (Formula.raises_parse text).mono fun _ => .inl
  have hformula : Raises (fun e => Formula.IsSyntaxError e ∨ Formula.IsMoveError e) (s.formula a) := by
    unfold Sheet.formula
    split
    · exact .ok none
    split
    · exact .ok none
    unfold Sheet.formulaOf
    split
    · exact (hparse _).map some
    split
    · refine (hparse _).bind fun e => ?_
      exact ((Formula.raises_relocate e _).mono fun _ => .inr).bind fun e => .ok _
    split
    · exact (hparse _).map some
    · exact .ok none
  unfold Session.plan
  split
  · exact .ok _
  split
  · exact .ok _
  dsimp only
  split
  · exact .ok _
  · exact hformula.map _

theorem plan_ne_cycle {s : Sheet} {strings : StringTable} {a : Address} {force : Bool} (r : String) :
    Session.plan s strings a force ≠ .error (.cycleDetected r) := by
  intro h
  obtain hsyntax | hmove := raises_plan s strings a force _ h
  · simp [Formula.IsSyntaxError, Formula.Error.kind] at hsyntax
  · simp [Formula.IsMoveError, Formula.Error.kind] at hmove

theorem asFormulaError_eq_cycle {e : Error} {r : String} (h : Session.asFormulaError e = .cycleDetected r) :
    e = .formula (.cycleDetected r) := by
  cases e with
  | formula e => exact congrArg Error.formula h
  | _ => cases h

/-! ## The cells of the stack -/

/-- A cell with a formula, of a sheet that has been read. -/
def HasFormula (b : Book) (f : Frame) : Prop := ∃ s, b.sheet? f.sheet = some s ∧ f.address ∈ s.formulaCells

/-- The cells with a formula of all sheets that can be read. A sheet that is listed twice counts once. -/
def formulaCells (b : Book) : List Frame :=
  b.catalog.names.dedup.flatMap fun name =>
    match b.found name with
    | .ok s => s.formulaCells.map (Frame.mk name)
    | .error _ => []

theorem mem_formulaCells_of_plan {s : Sheet} {strings : StringTable} {a : Address} {force : Bool} {e : Formula.Expr}
    (h : Session.plan s strings a.unanchored force = .ok (.compute e)) : a.unanchored ∈ s.formulaCells := by
  obtain ⟨-, c, hcell, hformula, -⟩ := plan_eq_compute.mp h
  have hmem := List.mem_filter.mpr ⟨List.mem_of_find?_eq_some hcell, hformula⟩
  exact List.mem_map.mpr ⟨c, hmem, Sheet.address_of_cell? hcell⟩

theorem HasFormula.loaded {c : Book} {f : Frame} (h : c.HasFormula f) (name : String) : (c.loaded name).HasFormula f := by
  obtain ⟨s, hs, hf⟩ := h
  refine ⟨s, ?_, hf⟩
  rw [sheet?_loaded]
  split
  next hname =>
    rw [← hname, found_of_sheet? hs]
    rfl
  next => exact hs

theorem HasFormula.keep {c : Book} {f : Frame} (h : c.HasFormula f) {name : String} {t : Sheet}
    (ht : c.sheet? name = some t) (a : Address) (v : Value) : (c.withSheet (t.withCached a v)).HasFormula f := by
  have hname : (t.withCached a v).name = name := (name_of_sheet? ht : t.name = name)
  obtain ⟨s, hs, hf⟩ := h
  by_cases hsheet : f.sheet = name
  · rw [hsheet, ht] at hs
    obtain rfl := Option.some.inj hs
    refine ⟨t.withCached a v, ?_, hf⟩
    rw [sheet?_withSheet (t := t) (by rw [hname]; exact ht), hname, if_pos hsheet]
  · refine ⟨s, ?_, hf⟩
    rw [sheet?_withSheet (t := t) (by rw [hname]; exact ht), hname, if_neg hsheet]
    exact hs

/-- A cell of the stack is one of the cells with a formula that the book has at the beginning. -/
theorem HasFormula.mem_formulaCells (hb : b.IsConsistent) {c : Book} (hc : Extends b c) {f : Frame}
    (h : c.HasFormula f) : f ∈ b.formulaCells := by
  obtain ⟨t, ht, hf⟩ := h
  obtain ⟨s, hs, heq⟩ := hc.exists_found (found_of_sheet? ht)
  refine List.mem_flatMap.mpr ⟨f.sheet, List.mem_dedup.mpr (hb.listed hs), ?_⟩
  rw [hs]
  have hcells : f.address ∈ s.formulaCells := by
    rw [heq] at hf
    exact hf
  exact List.mem_map.mpr ⟨f.address, hcells, rfl⟩

/-- The stack of an evaluation that has begun with a cell. -/
structure Stack (b : Book) (first : Frame) (force : Bool) (c : Book) (frames : List Frame) : Prop where
  extension : Extends b c
  evaluating : c.evaluating = frames
  nodup : frames.Nodup
  cells : ∀ f ∈ frames, c.HasFormula f
  computes : frames ≠ [] → b.Computes force first

section Stack

variable {first : Frame} {force : Bool} {c : Book} {frames : List Frame}

theorem Stack.loaded (h : Stack b first force c frames) (name : String) : Stack b first force (c.loaded name) frames where
  extension := h.extension.loaded name
  evaluating := (loaded_eq c name).2.2.trans h.evaluating
  nodup := h.nodup
  cells f hf := (h.cells f hf).loaded name
  computes := h.computes

theorem Stack.pushed (h : Stack b first force c frames) {f : Frame} (hnew : f ∉ frames) (hf : c.HasFormula f)
    (hcomputes : b.Computes force first) : Stack b first force (Session.pushed c f) (f :: frames) where
  extension := h.extension.pushed f
  evaluating := congrArg (f :: ·) h.evaluating
  nodup := List.nodup_cons.mpr ⟨hnew, h.nodup⟩
  cells g hg := by
    obtain rfl | hg := List.mem_cons.mp hg
    · exact hf
    · exact h.cells g hg
  computes _ := hcomputes

theorem Stack.popped {f : Frame} (h : Stack b first force c (f :: frames)) :
    Stack b first force (Session.popped c) frames where
  extension := h.extension.congr rfl rfl fun _ => rfl
  evaluating := congrArg List.tail h.evaluating
  nodup := (List.nodup_cons.mp h.nodup).2
  cells g hg := h.cells g (List.mem_cons_of_mem f hg)
  computes _ := h.computes (List.cons_ne_nil f frames)

theorem Stack.keep (h : Stack b first force c frames) {name : String} {t : Sheet} (ht : c.sheet? name = some t)
    {a : Address} {v : Value} (hv : b.Derives name a true v) :
    Stack b first force (c.withSheet (t.withCached a v)) frames where
  extension := h.extension.keep ht hv
  evaluating := h.evaluating
  nodup := h.nodup
  cells f hf := (h.cells f hf).keep ht a v
  computes := h.computes

end Stack

/-! ## What the cells of the stack wait for -/

/-- A cell is asked for, and the formulas that wait have asked for one another: the first one of the list for the cell,
each one for the one before, and the last one is where the evaluation began. -/
inductive Awaits (b : Book) (R : Frame → Frame → Prop) (first : Frame) : Frame → List Waiting → Prop where
  | first : Awaits b R first first []
  | asked {f : Frame} {sheet : Option String} {a : Address} {next : Value → Formula.Query Value} {waiting : List Waiting}
      (hgets : b.GetsTo f (.ask sheet a next)) (hreads : R f ⟨sheet.getD f.sheet, a.unanchored⟩)
      (hrest : Awaits b R first f waiting) : Awaits b R first ⟨sheet.getD f.sheet, a.unanchored⟩ (⟨f, next⟩ :: waiting)

section Awaits

variable {R : Frame → Frame → Prop} {first f : Frame} {waiting : List Waiting}

theorem Awaits.eq_first (h : Awaits b R first f []) : f = first := by
  cases h with
  | first => rfl

theorem Awaits.reaches (h : Awaits b R first f waiting) : ReflTransGen R first f := by
  induction h with
  | first => exact .refl
  | asked _ hreads _ ih => exact ih.tail hreads

theorem Awaits.reaches_of_mem (h : Awaits b R first f waiting) {g : Frame} (hg : g ∈ waiting.map (·.frame)) :
    TransGen R g f := by
  induction h with
  | first => cases hg
  | asked _ hreads _ ih =>
    obtain rfl | hg := List.mem_cons.mp hg
    · exact .single hreads
    · exact (ih hg).tail hreads

end Awaits

/-! ## One step -/

/-- An error names a cell that the evaluation has come back to. -/
def Closes (b : Book) (R : Frame → Frame → Prop) (first : Frame) (force : Bool) (e : Error) : Prop :=
  b.Computes force first ∧ ∃ f, e = Session.cycle f ∧ ReflTransGen R first f ∧ TransGen R f f

/-- What is known of an evaluation between two steps. -/
inductive Sound (b : Book) (R : Frame → Frame → Prop) (first : Frame) (force : Bool) : Machine → Prop where
  | call {name : String} {a : Address} {forced : Bool} {waiting : List Waiting} {c : Book}
      (hstack : Stack b first force c (waiting.map (·.frame))) (hawaits : Awaits b R first ⟨name, a.unanchored⟩ waiting)
      (hforced : forced = (force || !waiting.isEmpty)) : Sound b R first force ⟨.call name a forced, waiting, c⟩
  | hold {f : Frame} {q : Formula.Query Value} {waiting : List Waiting} {c : Book}
      (hstack : Stack b first force c (f :: waiting.map (·.frame))) (hawaits : Awaits b R first f waiting)
      (hgets : b.GetsTo f q) : Sound b R first force ⟨.hold f q, waiting, c⟩
  | answer {f : Frame} {r : Except Error Value} {waiting : List Waiting} {c : Book}
      (hstack : Stack b first force c (waiting.map (·.frame))) (hawaits : Awaits b R first f waiting)
      (hvalue : ∀ v, r = .ok v → waiting ≠ [] → b.Derives f.sheet f.address true v)
      (hcycle : ∀ s, r = .error (.formula (.cycleDetected s)) →
        Closes b R first force (.formula (.cycleDetected s))) : Sound b R first force ⟨.answer r, waiting, c⟩

section Steps

variable {R : Frame → Frame → Prop} {first : Frame} {force : Bool} {waiting : List Waiting} {c : Book}

theorem Sound.failed {f : Frame} {e : Error} (hstack : Stack b first force c (waiting.map (·.frame)))
    (hawaits : Awaits b R first f waiting) (he : ∀ s, e ≠ .formula (.cycleDetected s)) :
    Sound b R first force ⟨.answer (.error e), waiting, c⟩ :=
  .answer hstack hawaits (fun _ h => nomatch h) fun s h => absurd (Except.error.inj h) (he s)

/-- The formula where the evaluation began is evaluated, since one of the cells that it has led to is. -/
theorem computes_first {name : String} {a : Address} {forced : Bool}
    (hstack : Stack b first force c (waiting.map (·.frame))) (hawaits : Awaits b R first ⟨name, a.unanchored⟩ waiting)
    (hforced : forced = (force || !waiting.isEmpty)) (hcomputes : b.Computes forced ⟨name, a.unanchored⟩) :
    b.Computes force first := by
  cases waiting with
  -- With no formula waiting, the cell is the one where the evaluation began.
  | nil =>
    have hsame : forced = force := by simpa using hforced
    rw [← hawaits.eq_first, ← hsame]
    exact hcomputes
  | cons w waiting => exact hstack.computes (List.cons_ne_nil _ _)

/-- A cell that is looked up has a value, or its formula is evaluated from now on, or it is on the stack. -/
theorem Sound.called {name : String} {a : Address} {forced : Bool}
    (hstack : Stack b first force c (waiting.map (·.frame))) (hawaits : Awaits b R first ⟨name, a.unanchored⟩ waiting)
    (hforced : forced = (force || !waiting.isEmpty)) :
    Sound b R first force ⟨(Machine.called name a forced c).1, waiting, (Machine.called name a forced c).2⟩ := by
  have hloaded := hstack.loaded name
  unfold Machine.called
  dsimp only
  cases hfound : c.found name with
  | error e => exact .failed hloaded hawaits fun s h => raises_found c name e hfound _ h
  | ok t =>
    have htl : (c.loaded name).found name = .ok t := (found_loaded c name name).trans hfound
    dsimp only
    cases hplan : Session.plan t (c.loaded name).strings a.unanchored forced with
    | error e =>
      exact .failed hloaded hawaits fun s h => plan_ne_cycle s (hplan.trans (congrArg _ (Error.formula.inj h)))
    | ok p =>
      cases p with
      | known v =>
        refine .answer hloaded hawaits (fun w hw hwaiting => ?_) fun s h => nomatch h
        cases hw
        have htrue : forced = true := by simp [hforced, hwaiting]
        exact derives_unanchored.mpr (Session.derives_of_known hloaded.extension htl (htrue ▸ hplan))
      | compute e =>
        obtain ⟨s', hs', hcompute⟩ := Session.exists_compute hloaded.extension htl hplan
        have hcomputes := computes_first hstack hawaits hforced ⟨s', e, hs', hcompute⟩
        dsimp only
        split
        next hwaits =>
          -- The cell is on the stack, and the cells above it have asked for one another and then for the cell.
          have hmem : (⟨name, a.unanchored⟩ : Frame) ∈ waiting.map (·.frame) := by
            rw [← hloaded.evaluating]
            simpa using hwaits
          refine .answer hloaded hawaits (fun _ h => nomatch h) fun s h => ?_
          rw [← Except.error.inj h]
          exact ⟨hcomputes, _, rfl, hawaits.reaches, hawaits.reaches_of_mem hmem⟩
        next hwaits =>
          have hnew : (⟨name, a.unanchored⟩ : Frame) ∉ waiting.map (·.frame) := by
            rw [← hloaded.evaluating]
            simpa using hwaits
          have hformula : (c.loaded name).HasFormula ⟨name, a.unanchored⟩ :=
            ⟨t, Session.loaded_sheet? hfound, mem_formulaCells_of_plan hplan⟩
          exact .hold (hloaded.pushed hnew hformula hcomputes) hawaits
            ⟨s', e, hs', Session.plan_force hcompute, .refl⟩

/-- A formula that has ended gives its cell a value, or an error that is no cycle if none has been passed on. -/
theorem Sound.ended {f : Frame} {r : Except Formula.Error Value}
    (hstack : Stack b first force c (f :: waiting.map (·.frame))) (hawaits : Awaits b R first f waiting)
    (hvalue : ∀ v, r = .ok v → b.Derives f.sheet f.address true v)
    (hcycle : ∀ s, r = .error (.cycleDetected s) → Closes b R first force (.formula (.cycleDetected s))) :
    Sound b R first force ⟨(Machine.ended f r c).1, waiting, (Machine.ended f r c).2⟩ := by
  have hpopped := hstack.popped
  cases r with
  | error e =>
    refine .answer hpopped hawaits (fun _ h => nomatch h) fun s h => hcycle s ?_
    exact congrArg _ (Error.formula.inj (Except.error.inj h))
  | ok v =>
    obtain ⟨t, ht, -⟩ := hstack.cells f (List.mem_cons_self ..)
    have hsheet : (Session.popped c).sheet? f.sheet = some t := ht
    have hderives := hvalue v rfl
    have hended : Machine.ended f (.ok v) c =
        (.answer (.ok v), (Session.popped c).withSheet (t.withCached f.address v)) := by
      unfold Machine.ended Session.kept
      dsimp only
      rw [Session.run_keep, hsheet]
    rw [hended]
    refine .answer (hpopped.keep hsheet hderives) hawaits (fun w hw _ => ?_) fun s h => nomatch h
    cases hw
    exact hderives

theorem Sound.step {m : Machine} (hm : Sound b R first force m)
    (hR : ∀ f g, b.Reads f g → m.Asks f g → R f g) : Sound b R first force m.step := by
  cases hm with
  | call hstack hawaits hforced => exact .called hstack hawaits hforced
  | @hold f q waiting c hstack hawaits hgets =>
    cases q with
    | done v =>
      refine Sound.ended (r := .ok v) hstack hawaits (fun w hw => ?_) fun s h => nomatch h
      cases hw
      exact hgets.derives
    | fail e =>
      refine Sound.ended (r := .error e) hstack hawaits (fun _ h => nomatch h) fun s h => ?_
      -- No formula raises a cycle of its own accord: only look-ups do.
      have hkind : Formula.IsEvaluationError e := hgets.raises
      rw [Except.error.inj h] at hkind
      simp [Formula.IsEvaluationError, Formula.Error.kind] at hkind
    | ask sheet a next =>
      have hreads := hR f _ ⟨sheet, a, next, hgets, rfl⟩ ⟨sheet, a, next, rfl, rfl⟩
      exact .call hstack (.asked hgets hreads hawaits) (by simp)
  | @answer f r waiting c hstack hawaits hvalue hcycle =>
    cases hawaits with
    | first =>
      cases r with
      | ok v => exact .answer hstack .first hvalue hcycle
      | error e => exact .answer hstack .first hvalue hcycle
    | @asked g sheet a next waiting hgets hreads hrest =>
      cases r with
      | ok v =>
        have hderives := derives_unanchored.mp (hvalue v rfl (List.cons_ne_nil _ _))
        exact .hold hstack hrest (hgets.told hderives)
      | error e =>
        refine Sound.ended (r := .error (Session.asFormulaError e)) hstack hrest (fun _ h => nomatch h) fun s h => hcycle s ?_
        exact congrArg _ (asFormulaError_eq_cycle (Except.error.inj h))

theorem Sound.exists_stack {m : Machine} (hm : Sound b R first force m) :
    ∃ frames, Stack b first force m.book frames ∧ m.waiting.length ≤ frames.length := by
  cases hm with
  | call hstack => exact ⟨_, hstack, by simp⟩
  | hold hstack => exact ⟨_, hstack, by simp⟩
  | answer hstack => exact ⟨_, hstack, by simp⟩

end Steps

/-! ## A whole run -/

/-- In the evaluation of a cell, the formula of a cell reads another one. -/
def ReadsIn (b : Book) (name : String) (a : Address) (force : Bool) (f g : Frame) : Prop :=
  b.Reads f g ∧ ∃ n, (Machine.step^[n] (Machine.start name a force b)).Asks f g

theorem sound_run (hidle : b.evaluating = []) (name : String) (a : Address) (force : Bool) (n : Nat) :
    Sound b (b.ReadsIn name a force) ⟨name, a.unanchored⟩ force (Machine.step^[n] (Machine.start name a force b)) := by
  induction n with
  | zero =>
    have hstack : Stack b ⟨name, a.unanchored⟩ force b [] :=
      ⟨.refl b, hidle, List.nodup_nil, fun f hf => (nomatch hf), fun h => absurd rfl h⟩
    exact .call hstack .first (by simp)
  | succ n ih =>
    rw [Function.iterate_succ_apply']
    exact ih.step fun f g hreads hasks => ⟨hreads, n, hasks⟩

theorem Stack.length_le (hb : b.IsConsistent) {first : Frame} {force : Bool} {c : Book} {frames : List Frame}
    (h : Stack b first force c frames) : frames.length ≤ b.formulaCells.length :=
  h.nodup.length_le_of_subset fun f hf => (h.cells f hf).mem_formulaCells hb h.extension

theorem reaches_eval (hb : b.IsValid) (name : String) (a : Address) (force : Bool) :
    Machine.Reaches (Machine.start name a force b)
      ⟨.answer ((Session.eval name a force).run b).1, [], ((Session.eval name a force).run b).2⟩ := by
  have hready := hb.ready (Advances.refl (Extends.refl b)) 0
  rw [Session.run_eval]
  exact Machine.reaches_evalWithin hb.toIsConsistent _ hready.extension hready.room

/-- A cell that leads to one whose formula needs its own value is said to do so. -/
theorem eval_cycle (hb : b.IsValid) {name : String} {a : Address} {force : Bool} (hcomputes : b.Computes force ⟨name, a⟩)
    (hneeds : b.NeedsCycle ⟨name, a.unanchored⟩) : Session.IsCycle ((Session.eval name a force).run b).1 := by
  have hready := hb.ready (Advances.refl (Extends.refl b))
  rw [Session.run_eval]
  exact Session.evalWithin_cycle hb.toIsConsistent _ hready hcomputes hneeds

/-- Every evaluation comes to an end. Until then the cells on the stack are different cells with formulas, so it goes no
deeper than there are such cells, and at the end the stack is empty. A cell is said to need its own value exactly if the
cell that was asked for leads to one that does, and the one that is named has been reached again by cells that were read
one from another. -/
theorem eval_ends (hb : Reachable b) (name : String) (a : Address) (force : Bool) :
    ∃ r c, (Session.eval name a force).run b = (r, c) ∧
      Machine.Reaches (Machine.start name a force b) ⟨.answer r, [], c⟩ ∧
      (∀ m, Machine.Reaches (Machine.start name a force b) m → m.book.evaluating.Nodup ∧
        (∀ f ∈ m.book.evaluating, m.book.HasFormula f) ∧ m.waiting.length ≤ m.book.evaluating.length ∧
        m.book.evaluating.length ≤ b.formulaCells.length) ∧
      c.evaluating = [] ∧
      (∀ s, r = .error (.formula (.cycleDetected s)) → ∃ f, Session.cycle f = .formula (.cycleDetected s) ∧
        ReflTransGen (b.ReadsIn name a force) ⟨name, a.unanchored⟩ f ∧ TransGen (b.ReadsIn name a force) f f) ∧
      (Session.IsCycle r ↔ b.Computes force ⟨name, a.unanchored⟩ ∧ b.NeedsCycle ⟨name, a.unanchored⟩) := by
  have hvalid := hb.isValid
  have hsound := sound_run hvalid.idle name a force
  have hlast := reaches_eval hvalid name a force
  have hidle := (hvalid.evaluated name a force).idle
  have hcomplete : b.Computes force ⟨name, a⟩ → b.NeedsCycle ⟨name, a.unanchored⟩ →
      Session.IsCycle ((Session.eval name a force).run b).1 := eval_cycle hvalid
  cases hresult : (Session.eval name a force).run b with
  | mk r c =>
    rw [hresult] at hlast hidle hcomplete
    have hcycle : ∀ s, r = .error (.formula (.cycleDetected s)) →
        Closes b (b.ReadsIn name a force) ⟨name, a.unanchored⟩ force (.formula (.cycleDetected s)) := by
      intro s hs
      obtain ⟨n, hn⟩ := hlast
      have hend := hsound n
      rw [hn] at hend
      cases hend with
      | answer _ _ _ hcycle => exact hcycle s hs
    refine ⟨r, c, rfl, hlast, ?_, hidle, fun s hs => ?_, ?_, fun h => hcomplete h.1 h.2⟩
    · rintro m ⟨n, rfl⟩
      obtain ⟨frames, hstack, hwaiting⟩ := (hsound n).exists_stack
      rw [hstack.evaluating]
      exact ⟨hstack.nodup, hstack.cells, hwaiting, hstack.length_le hvalid.toIsConsistent⟩
    · obtain ⟨-, f, hf, hreaches, hback⟩ := hcycle s hs
      exact ⟨f, hf.symm, hreaches, hback⟩
    · rintro ⟨s, hs⟩
      obtain ⟨hcomputes, f, -, hreaches, hback⟩ := hcycle s hs
      have hreads : ∀ g g', b.ReadsIn name a force g g' → b.Reads g g' := fun _ _ h => h.1
      exact ⟨hcomputes, f, ReflTransGen.mono hreads _ _ hreaches, TransGen.mono hreads _ _ hback⟩

def referent? (b : Book) (f : Frame) : Option Frame :=
  match b.found f.sheet with
  | .error _ => none
  | .ok s =>
    match Session.plan s b.strings f.address.unanchored true with
    | .ok (.compute (.cell sheet a)) => some ⟨sheet.getD f.sheet, a.unanchored⟩
    | _ => none

theorem reads_of_referent? {f g : Frame} (h : b.referent? f = some g) : b.Reads f g := by
  unfold referent? at h
  split at h
  next => cases h
  next s hs =>
    split at h
    next sheet a hplan =>
      cases h
      exact ⟨sheet, a, .done, ⟨s, _, hs, hplan, .refl⟩, rfl⟩
    next => cases h

/-- A package with one sheet `S`, in which `A1` and `B1` refer to one another. -/
def cyclicPackage : Bytes :=
  Archive.build
    [("xl/workbook.xml", Text.Utf8.encode "<workbook><sheets><sheet name=\"S\" r:id=\"a\"/></sheets></workbook>"),
      ("xl/_rels/workbook.xml.rels", Text.Utf8.encode
        "<Relationships><Relationship Id=\"a\" Type=\"/worksheet\" Target=\"s.xml\"/></Relationships>"),
      ("xl/s.xml", Text.Utf8.encode <| "<worksheet><sheetData><row r=\"1\"><c><f>B1</f></c>" ++
        "<c><f>A1</f></c></row></sheetData></worksheet>")]

set_option maxRecDepth 20000 in
theorem referent?_cyclicPackage :
    ∃ b, ofBytes cyclicPackage ⟨false, none, false⟩ = .ok b ∧
      b.referent? ⟨"S", .plain 1 0⟩ = some ⟨"S", .plain 1 1⟩ ∧ b.referent? ⟨"S", .plain 1 1⟩ = some ⟨"S", .plain 1 0⟩ := by
  have hread : (ofBytes cyclicPackage ⟨false, none, false⟩).toOption.map
      (fun b => (b.referent? ⟨"S", .plain 1 0⟩, b.referent? ⟨"S", .plain 1 1⟩)) =
        some (some ⟨"S", .plain 1 1⟩, some ⟨"S", .plain 1 0⟩) := by decide +kernel
  obtain ⟨b, hopened, hreferents⟩ := Option.map_eq_some_iff.mp hread
  obtain ⟨hfirst, hsecond⟩ := Prod.mk.inj hreferents
  exact ⟨b, eq_ok_of_toOption hopened, hfirst, hsecond⟩

/-- Two cells that refer to one another have no value, and nothing waits afterwards. -/
theorem eval_ends_cyclicPackage :
    ∃ b r c, ofBytes cyclicPackage ⟨false, none, false⟩ = .ok b ∧ (Session.eval "S" (.plain 1 0) true).run b = (r, c) ∧
      Machine.Reaches (Machine.start "S" (.plain 1 0) true b) ⟨.answer r, [], c⟩ ∧ c.evaluating = [] ∧
      ∃ f, r = .error (Session.cycle f) ∧ TransGen (b.ReadsIn "S" (.plain 1 0) true) f f := by
  obtain ⟨b, hopened, hfirst, hsecond⟩ := referent?_cyclicPackage
  have hreads := reads_of_referent? hfirst
  have hneeds : b.NeedsCycle ⟨"S", .plain 1 0⟩ := ⟨_, .refl, .tail (.single hreads) (reads_of_referent? hsecond)⟩
  obtain ⟨r, c, hrun, hlast, -, hidle, hnamed, hcycle⟩ := eval_ends (.opened hopened) "S" (.plain 1 0) true
  obtain ⟨s, hs⟩ := hcycle.mpr ⟨hneeds.computes, hneeds⟩
  obtain ⟨f, hf, -, hback⟩ := hnamed s hs
  exact ⟨b, r, c, hopened, hrun, hlast, hidle, f, hs.trans (congrArg _ hf.symm), hback⟩

end Spreadsheet.Book
