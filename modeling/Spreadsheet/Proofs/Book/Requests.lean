import Spreadsheet.Archive.Build
import Spreadsheet.Book.Release
import Spreadsheet.Book.Save
import Spreadsheet.Proofs.Book.Memoization

/-! # Runs of requests

* `Request`: everything that can be asked of an open book.
* `Reachable`: the books that opening a package and any requests lead to.
* `Reachable.isValid`: in all of them no cell waits, and every sheet that is found is one of the catalog.
* `value_eq_ok_iff_after_reading`: values do not depend on what has been evaluated before. -/

set_option autoImplicit false

namespace Spreadsheet.Book

open Grid

/-- What can be asked of an open book. -/
inductive Request where
  | value (name : String) (a : Address)
  | eval (name : String) (a : Address) (force : Bool)
  | annotated (name : String) (a : Address)
  | flag (name : String) (a : Address)
  | formula (name : String) (a : Address)
  | note (name : String) (a : Address)
  | numberFormat (name : String) (a : Address)
  | bottomRight (name : String)
  | version
  | recalculate (name : String) (drop : Bool)
  | reset (name : String)
  | write (name : String) (a : Address) (v : Value)
  | writeFlag (name : String) (a : Address) (answer : Option Bool) (format : FlagFormat)
  | save

def Session.ignored {α : Type} (r : Session α) : Session Unit := do
  let _ ← r
  return ()

def Request.session : Request → Session Unit
  | .value name a => (Session.value name a).ignored
  | .eval name a force => (Session.eval name a force).ignored
  | .annotated name a => (Session.annotated name a).ignored
  | .flag name a => (Session.flag name a).ignored
  | .formula name a => (Session.formula name a).ignored
  | .note name a => (Session.note name a).ignored
  | .numberFormat name a => (Session.numberFormat name a).ignored
  | .bottomRight name => (Session.bottomRight name).ignored
  | .version => Session.version.ignored
  | .recalculate name drop => Session.recalculate name drop
  | .reset name => Session.reset name
  | .write name a v => Session.write name a v
  | .writeFlag name a answer format => Session.writeFlag name a answer format
  | .save => Session.save.ignored

def Request.perform (b : Book) (r : Request) : Book := (r.session.run b).2

/-- Whether a request only reads: it writes no value, drops none and saves nothing. -/
def Request.isReading : Request → Bool
  | .recalculate _ drop => !drop
  | .reset _ | .write _ _ _ | .writeFlag _ _ _ _ | .save => false
  | _ => true

/-- The books that opening a package and any requests lead to. -/
inductive Reachable : Book → Prop where
  | opened {bytes : Bytes} {options : Options} {b : Book} (h : ofBytes bytes options = .ok b) : Reachable b
  | after {b : Book} (h : Reachable b) (r : Request) : Reachable (r.perform b)

theorem Reachable.foldl {b : Book} (h : Reachable b) (requests : List Request) :
    Reachable (requests.foldl Request.perform b) := by
  induction requests generalizing b with
  | nil => exact h
  | cons r requests ih => exact ih (h.after r)

/-! ## Requests that read -/

namespace Session

variable {α β : Type}

/-- A request that is made of loading sheets and evaluating cells. -/
inductive Reading : {α : Type} → Session α → Prop where
  | pure {α : Type} (x : α) : Reading (pure x : Session α)
  | get : Reading (get : Session Book)
  | throw {α : Type} (e : Error) : Reading (throw e : Session α)
  | ofExcept {α : Type} (x : Except Error α) : Reading (ofExcept x)
  | load (name : String) : Reading (load name)
  | eval (name : String) (a : Address) (force : Bool) : Reading (eval name a force)
  | bind {α β : Type} {r : Session α} {f : α → Session β} (hr : Reading r) (hf : ∀ x, Reading (f x)) : Reading (r >>= f)

theorem Reading.ignored {r : Session α} (hr : Reading r) : Reading r.ignored := hr.bind fun _ => .pure ()

theorem reading_value (name : String) (a : Address) : Reading (value name a) := by
  rw [value]
  exact .eval name a true

theorem reading_evalAll (name : String) (cells : List Address) : Reading (evalAll name cells) := by
  induction cells with
  | nil => exact .pure ()
  | cons a rest ih => exact .bind (.eval name a true) fun _ => ih

theorem reading_recalculate (name : String) : Reading (recalculate name false) :=
  .bind (.load name) fun s => reading_evalAll name s.formulaCells

theorem reading_formula (name : String) (a : Address) : Reading (formula name a) :=
  .bind (.load name) fun _ => .ofExcept _

theorem reading_note (name : String) (a : Address) : Reading (note name a) := .bind (.load name) fun _ => .pure _

theorem reading_annotated (name : String) (a : Address) : Reading (annotated name a) :=
  .bind (reading_value name a) fun _ => .bind (reading_note name a) fun _ =>
    .bind (reading_formula name a) fun _ => .pure _

theorem reading_flag (name : String) (a : Address) : Reading (flag name a) :=
  .bind (reading_value name a) fun _ => .pure _

theorem reading_numberFormat (name : String) (a : Address) : Reading (numberFormat name a) :=
  .bind (.load name) fun _ => .bind .get fun _ => .pure _

theorem reading_bottomRight (name : String) : Reading (bottomRight name) :=
  .bind (.load name) fun _ => .bind .get fun _ => .pure _

theorem reading_version : Reading version := by
  refine .bind .get fun b => ?_
  dsimp only
  split
  · exact .pure none
  · exact .bind (.load versionSheet) fun _ => .bind .get fun _ => .pure _

theorem reading_checkVersion (expected : String) : Reading (checkVersion expected) := by
  rw [checkVersion]
  refine .bind reading_version fun found => ?_
  dsimp only
  have hcompare : Reading (if found.getD "" ≠ expected then
      throw (Error.unsupportedVersion expected (found.getD "")) else pure ()) := by
    split
    · exact .throw _
    · exact .pure ()
  split
  · exact .bind .get fun b => .bind (.ofExcept _) fun _ => hcompare
  · exact hcompare

end Session

theorem Request.reading {r : Request} (hr : r.isReading = true) : Session.Reading r.session := by
  cases r with
  | value name a => exact (Session.reading_value name a).ignored
  | eval name a force => exact (Session.Reading.eval name a force).ignored
  | annotated name a => exact (Session.reading_annotated name a).ignored
  | flag name a => exact (Session.reading_flag name a).ignored
  | formula name a => exact (Session.reading_formula name a).ignored
  | note name a => exact (Session.reading_note name a).ignored
  | numberFormat name a => exact (Session.reading_numberFormat name a).ignored
  | bottomRight name => exact (Session.reading_bottomRight name).ignored
  | version => exact Session.reading_version.ignored
  | recalculate name drop =>
    cases drop with
    | false => exact Session.reading_recalculate name
    | true => cases hr
  | reset name => cases hr
  | write name a v => cases hr
  | writeFlag name a answer format => cases hr
  | save => cases hr

/-! ## What requests keep -/

theorem Session.run_eval (name : String) (a : Address) (force : Bool) (b : Book) :
    (eval name a force).run b = (evalWithin (depthLimit b) name a force).run b := by
  rw [eval, run_bind, run_get]

theorem Session.run_save (b : Book) : save.run b = match saved b with
    | .ok (bytes, c) => (.ok bytes, c)
    | .error e => (.error e, b) := by
  rw [save, run_bind, run_get]
  dsimp only
  rw [run_bind, run_ofExcept]
  cases saved b with
  | error e => rfl
  | ok result => rfl

theorem run_save_eq_ok {b c : Book} {out : Bytes} : Session.save.run b = (.ok out, c) ↔ saved b = .ok (out, c) := by
  rw [Session.run_save]
  cases saved b with
  | error e => exact ⟨fun h => (nomatch h), fun h => (nomatch h)⟩
  | ok result =>
    constructor
    · intro h
      cases h
      rfl
    · intro h
      cases h
      rfl

namespace Session

variable {α β : Type} {P : Book → Prop}

/-- A property of books that is kept when a sheet is read, a cell is evaluated, a value is kept for a cell of a sheet and
the kept values of a sheet are dropped. -/
structure Invariant (P : Book → Prop) : Prop where
  load : ∀ {c}, P c → ∀ name, P (c.loaded name)
  eval : ∀ {c}, P c → ∀ name a force, P ((eval name a force).run c).2
  keep : ∀ {c}, P c → ∀ {name s a}, c.sheet? name = some s → (s.cell? a).isSome → ∀ v, P (c.withSheet (s.withCached a v))
  reset : ∀ {c}, P c → ∀ {name s}, c.sheet? name = some s → P (c.withSheet s.reset)

/-- A request that keeps a property of books. -/
def Keeps (P : Book → Prop) (r : Session α) : Prop := ∀ c, P c → P (r.run c).2

theorem Keeps.bind {r : Session α} {f : α → Session β} (hr : Keeps P r) (hf : ∀ x, Keeps P (f x)) : Keeps P (r >>= f) := by
  intro c hc
  have hfirst := hr c hc
  rw [run_bind]
  cases hresult : r.run c with
  | mk x d =>
    rw [hresult] at hfirst
    cases x with
    | ok x => exact hf x d hfirst
    | error e => exact hfirst

theorem Reading.keeps (hload : ∀ {c}, P c → ∀ name, P (c.loaded name))
    (heval : ∀ {c}, P c → ∀ name a force, P ((Session.eval name a force).run c).2) {r : Session α} (hr : Reading r) :
    Keeps P r := by
  induction hr with
  | pure x => exact fun c hc => hc
  | get => exact fun c hc => hc
  | throw e => exact fun c hc => hc
  | ofExcept x => exact fun c hc => hc
  | load name =>
    intro c hc
    rw [run_load]
    exact hload hc name
  | eval name a force => exact fun c hc => heval hc name a force
  | bind _ _ ihr ihf => exact ihr.bind ihf

theorem loaded_sheet? {c : Book} {name : String} {s : Sheet} (hs : c.found name = .ok s) :
    (c.loaded name).sheet? name = some s := by
  rw [sheet?_loaded, if_pos rfl, hs]
  rfl

/-- A value that is written is kept for a cell of the sheet, or the sheet is only read. -/
theorem keeps_write (hload : ∀ {c}, P c → ∀ name, P (c.loaded name)) {name : String} {a : Address} {v : Value}
    (hkeep : ∀ {c s}, P c → c.sheet? name = some s → (s.cell? a).isSome → P (c.withSheet (s.withCached a v))) :
    Keeps P (write name a v) := by
  intro c hc
  rw [Session.write, run_bind, run_load]
  cases hs : c.found name with
  | error e => exact hload hc name
  | ok s =>
    dsimp only
    split
    next hcell =>
      rw [run_keep, loaded_sheet? hs]
      exact hkeep (hload hc name) (loaded_sheet? hs) hcell
    next => exact hload hc name

theorem keeps_reset (hload : ∀ {c}, P c → ∀ name, P (c.loaded name)) {name : String}
    (hreset : ∀ {c s}, P c → c.sheet? name = some s → P (c.withSheet s.reset)) : Keeps P (reset name) := by
  intro c hc
  rw [Session.reset, run_bind, run_load]
  cases hs : c.found name with
  | error e => exact hload hc name
  | ok s => exact hreset (hload hc name) (loaded_sheet? hs)

/-- A save that succeeds changes the parts of sheets that have been read, the archive and the table of shared texts; one
that fails changes nothing. -/
theorem keeps_save (hcommit : ∀ {c}, P c → ∀ entry, P (c.commitSheet entry))
    (hrest : ∀ {c}, P c → ∀ archive strings, P { c with archive, strings }) : Keeps P save := by
  intro b hb
  rw [run_save]
  cases hsaved : saved b with
  | error e => exact hb
  | ok result =>
    obtain ⟨bytes, c⟩ := result
    simp only [saved, bind_eq_ok, pure_eq_ok] at hsaved
    obtain ⟨draft, -, archive, -, out, -, heq⟩ := hsaved
    obtain ⟨-, rfl⟩ := Prod.mk.inj heq
    have hfold : ∀ (parts : List (String × Markup.Node)) (d : Book), P d → P (parts.foldl commitSheet d) := by
      intro parts
      induction parts with
      | nil => exact fun d hd => hd
      | cons entry parts ih => exact fun d hd => ih _ (hcommit hd entry)
    exact hrest (hfold draft.parts b hb) _ _

theorem Invariant.write (hP : Invariant P) (name : String) (a : Address) (v : Value) : Keeps P (write name a v) :=
  keeps_write hP.load fun hc hs hcell => hP.keep hc hs hcell v

theorem Invariant.resets (hP : Invariant P) (name : String) : Keeps P (Session.reset name) :=
  keeps_reset hP.load fun hc hs => hP.reset hc hs

theorem Invariant.recalculate (hP : Invariant P) (name : String) (drop : Bool) : Keeps P (recalculate name drop) := by
  have hrest : Keeps P (Session.recalculate name false) := (reading_recalculate name).keeps hP.load hP.eval
  cases drop with
  | false => exact hrest
  | true => exact (hP.resets name).bind fun _ => hrest

end Session

theorem Request.keeps {P : Book → Prop} (hP : Session.Invariant P) (r : Request)
    (hsave : r = .save → Session.Keeps P Session.save) : Session.Keeps P r.session := by
  cases hr : r.isReading with
  | true => exact (Request.reading hr).keeps hP.load hP.eval
  | false =>
    cases r with
    | recalculate name drop => exact hP.recalculate name drop
    | reset name => exact hP.resets name
    | write name a v => exact hP.write name a v
    | writeFlag name a answer format => exact hP.write name a (format.encode answer)
    | save => exact (hsave rfl).bind fun _ c hc => hc
    | _ => cases hr

/-- Requests that only read lead on from a book: more is read, and more values that can be derived are kept. -/
theorem advances_foldl {b c : Book} (hc : Extends b c) {requests : List Request}
    (hreading : ∀ r ∈ requests, r.isReading = true) : Advances b c (requests.foldl Request.perform c) := by
  have hstep : ∀ r ∈ requests, Session.Keeps (Advances b c) r.session := fun r hr =>
    (Request.reading (hreading r hr)).keeps (fun hd name => hd.trans (hd.extension.advances_loaded name))
      (fun {d} hd name a force => by
        rw [Session.run_eval]
        exact hd.trans (Session.evalWithin_sound (Session.depthLimit d) name a force hd.extension).1)
  have hfold : ∀ (l : List Request) (d : Book), (∀ r ∈ l, Session.Keeps (Advances b c) r.session) → Advances b c d →
      Advances b c (l.foldl Request.perform d) := by
    intro l
    induction l with
    | nil => exact fun d _ hd => hd
    | cons r l ih =>
      intro d hl hd
      exact ih _ (fun q hq => hl q (List.mem_cons_of_mem _ hq)) (hl r (List.mem_cons_self ..) d hd)
  exact hfold requests c hstep (Advances.refl hc)

/-! ## Books that can be reached -/

/-- A book in which no cell waits. -/
structure IsValid (b : Book) : Prop extends b.IsConsistent where
  idle : b.evaluating = []

/-- A sheet that is still to be read is one of the catalog, so only the sheets that have been read matter. -/
theorem isConsistent_of_read {b : Book}
    (h : ∀ {name s}, b.sheet? name = some s → name ∈ b.catalog.names ∧ ∀ c ∈ s.cells, Sheet.IsPlace c.address) :
    b.IsConsistent := by
  have hall : ∀ {name s}, b.found name = .ok s → name ∈ b.catalog.names ∧ ∀ c ∈ s.cells, Sheet.IsPlace c.address := by
    intro name s hs
    unfold found at hs
    split at hs
    next t ht =>
      cases hs
      exact h ht
    next =>
      obtain ⟨-, ⟨path, hpath⟩, hplaces⟩ := name_of_readSheet hs
      exact ⟨Catalog.mem_names_of_pathOf hpath, hplaces⟩
  exact ⟨fun hs => (hall hs).1, fun hs => (hall hs).2⟩

theorem IsConsistent.withSheet {b : Book} (hb : b.IsConsistent) {s t : Sheet} (hs : b.sheet? s.name = some t)
    (hplaces : ∀ c ∈ s.cells, Sheet.IsPlace c.address) : (b.withSheet s).IsConsistent := by
  refine isConsistent_of_read fun {name u} hu => ?_
  rw [sheet?_withSheet hs] at hu
  split at hu
  next hname =>
    cases hu
    rw [hname]
    exact ⟨hb.listed (found_of_sheet? hs), hplaces⟩
  next => exact ⟨hb.listed (found_of_sheet? hu), hb.places (found_of_sheet? hu)⟩

theorem IsValid.advances {b c : Book} (hb : b.IsValid) (h : Advances b b c) : c.IsValid := by
  refine ⟨⟨fun ht => ?_, fun ht => ?_⟩, h.evaluating.trans hb.idle⟩
  · obtain ⟨s, hs, -⟩ := h.extension.exists_found ht
    rw [h.extension.catalog]
    exact hb.listed hs
  · obtain ⟨s, hs, heq⟩ := h.extension.exists_found ht
    intro c hc
    rw [heq] at hc
    exact hb.places hs c hc

theorem IsValid.loaded {b : Book} (hb : b.IsValid) (name : String) : (b.loaded name).IsValid :=
  hb.advances ((Extends.refl b).advances_loaded name)

theorem IsValid.evaluated {b : Book} (hb : b.IsValid) (name : String) (a : Address) (force : Bool) :
    ((Session.eval name a force).run b).2.IsValid := by
  rw [Session.run_eval]
  exact hb.advances (Session.evalWithin_sound (Session.depthLimit b) name a force (Extends.refl b)).1

theorem IsValid.withSheet {b : Book} (hb : b.IsValid) {name : String} {s t : Sheet} (hs : b.sheet? name = some s)
    (ht : t = { s with cache := t.cache }) : (b.withSheet t).IsValid := by
  have hsheet : s.name = name := name_of_sheet? hs
  have hname : t.name = name := by rw [ht, ← hsheet]
  have hcells : t.cells = s.cells := by rw [ht]
  refine ⟨hb.toIsConsistent.withSheet (t := s) (by rw [hname]; exact hs) ?_, hb.idle⟩
  rw [hcells]
  exact hb.places (found_of_sheet? hs)

theorem invariant_isValid : Session.Invariant IsValid where
  load hb name := hb.loaded name
  eval hb name a force := hb.evaluated name a force
  keep hb _ _ _ hs _ _ := hb.withSheet hs rfl
  reset hb _ _ hs := hb.withSheet hs rfl

theorem IsValid.commitSheet {b : Book} (hb : b.IsValid) (entry : String × Markup.Node) : (b.commitSheet entry).IsValid := by
  unfold Book.commitSheet
  cases hs : b.sheet? entry.1 with
  | none => exact hb
  | some s =>
    have hname : (s.commit entry.2).name = entry.1 := (name_of_sheet? hs : s.name = entry.1)
    exact ⟨hb.toIsConsistent.withSheet (by rw [hname]; exact hs) fun c hc => Sheet.isPlace_of_mem_index hc, hb.idle⟩

/-- A save replaces the parts of sheets that have been read, and nothing else that is asked for here. -/
theorem keeps_isValid_save : Session.Keeps IsValid Session.save :=
  Session.keeps_save (fun hb entry => hb.commitSheet entry) fun hb _ _ =>
    ⟨isConsistent_of_read fun hs => ⟨hb.listed (found_of_sheet? hs), hb.places (found_of_sheet? hs)⟩, hb.idle⟩

/-- A book that is opened is the one that its package is read as, with a cell of it looked up if a release is asked for. -/
theorem exists_fresh {bytes : Bytes} {options : Options} {b : Book} (h : ofBytes bytes options = .ok b) :
    ∃ raw fresh, Archive.index bytes = .ok raw ∧
      ofArchive (raw.verifying options.verifiesChecksums) options = .ok fresh ∧
        ∀ {P : Book → Prop}, (∀ {c}, P c → ∀ name, P (c.loaded name)) →
          (∀ {c}, P c → ∀ name a force, P ((Session.eval name a force).run c).2) → P fresh → P b := by
  simp only [ofBytes, bind_eq_ok] at h
  obtain ⟨raw, hraw, fresh, hfresh, h⟩ := h
  refine ⟨raw, fresh, mapError_eq_ok.mp hraw, hfresh, fun {P} hload heval hP => ?_⟩
  split at h
  · cases pure_eq_ok.mp h
    exact hP
  next expected _ =>
    have hchecked := (Session.reading_checkVersion expected).keeps hload heval fresh hP
    split at h
    next checked hrun =>
      cases pure_eq_ok.mp h
      have hrun : (Session.checkVersion expected).run fresh = (.ok _, _) := hrun
      rw [hrun] at hchecked
      exact hchecked
    next => cases h

theorem spec_of_ofArchive {a : Archive} {options : Options} {b : Book} (h : ofArchive a options = .ok b) :
    b.archive = a ∧ b.sheets = [] ∧ b.evaluating = [] ∧ readStrings a b.catalog = .ok b.strings := by
  simp only [ofArchive, bind_eq_ok, pure_eq_ok] at h
  obtain ⟨workbook, -, relationships, -, catalog, -, strings, hstrings, formats, -, rfl⟩ := h
  exact ⟨rfl, rfl, rfl, hstrings⟩

theorem sheet?_of_sheets_eq_nil {b : Book} (h : b.sheets = []) (name : String) : b.sheet? name = none := by
  rw [sheet?, h]
  rfl

theorem isValid_of_ofBytes {bytes : Bytes} {options : Options} {b : Book} (h : ofBytes bytes options = .ok b) :
    b.IsValid := by
  obtain ⟨raw, fresh, -, hfresh, hkeeps⟩ := exists_fresh h
  obtain ⟨-, hsheets, hidle, -⟩ := spec_of_ofArchive hfresh
  refine hkeeps IsValid.loaded IsValid.evaluated ⟨isConsistent_of_read fun {name s} hs => ?_, hidle⟩
  rw [sheet?_of_sheets_eq_nil hsheets] at hs
  cases hs

theorem Reachable.isValid {b : Book} (h : Reachable b) : b.IsValid := by
  induction h with
  | opened hopened => exact isValid_of_ofBytes hopened
  | after _ r ih => exact Request.keeps invariant_isValid r (fun _ => keeps_isValid_save) _ ih

/-! ## Values do not depend on what has been evaluated before -/

theorem derives_iff {b : Book} {name : String} {a : Address} {force : Bool} {v : Value} :
    b.Derives name a force v ↔ ∃ s, b.found name = .ok s ∧
      (Session.plan s b.strings a.unanchored force = .ok (.known v) ∨
        ∃ e, Session.plan s b.strings a.unanchored force = .ok (.compute e) ∧
          ∃ depth, Formula.Query.run (m := Id) (b.derivedAnswer depth name) (e.query a.unanchored) = .ok v) := by
  constructor
  · rintro ⟨depth, hdepth⟩
    cases depth with
    | zero => cases hdepth
    | succ depth =>
      obtain ⟨s, hs, hcases⟩ := derive_succ_eq_ok.mp hdepth
      exact ⟨s, hs, hcases.imp id fun ⟨e, he, hv⟩ => ⟨e, he, depth, hv⟩⟩
  · rintro ⟨s, hs, hknown | ⟨e, he, depth, hv⟩⟩
    · exact ⟨1, derive_succ_eq_ok.mpr ⟨s, hs, .inl hknown⟩⟩
    · exact ⟨depth + 1, derive_succ_eq_ok.mpr ⟨s, hs, .inr ⟨e, he, hv⟩⟩⟩

theorem IsValid.ready {b c : Book} (hb : b.IsValid) (hc : Advances b b c) (depth : Nat) :
    Session.Ready b depth (Session.depthLimit c) c := by
  have hidle : c.evaluating = [] := (hb.advances hc).idle
  refine ⟨hc.extension, fun f hf => ?_, ⟨?_, fun f hf => ?_, ?_⟩⟩
  · rw [hidle] at hf
    cases hf
  · rw [hidle]
    exact List.nodup_nil
  · rw [hidle] at hf
    cases hf
  · rw [Session.depthLimit, Session.depthLimit, hc.extension.catalog]
    exact Nat.le_add_right _ _

/-- Whatever has been read and kept by then, a cell has the value that can be derived at the beginning. -/
theorem value_eq_ok_iff_derives {b c : Book} (hb : b.IsValid) (hc : Advances b b c) (name : String) (a : Address)
    (v : Value) : ((Session.value name a).run c).1 = .ok v ↔ b.Derives name a true v := by
  rw [Session.value, Session.run_eval]
  constructor
  · exact fun hv => (Session.evalWithin_sound (Session.depthLimit c) name a true hc.extension).2 v hv rfl
  · rintro ⟨depth, hdepth⟩
    exact Session.evalWithin_complete hb.toIsConsistent (hb.ready hc depth) hdepth

theorem eval_eq_ok_iff_derives {b : Book} (hb : b.IsValid) (name : String) (a : Address) (force : Bool) (v : Value) :
    ((Session.eval name a force).run b).1 = .ok v ↔ b.Derives name a force v := by
  cases force with
  | true => exact value_eq_ok_iff_derives hb (Advances.refl (Extends.refl b)) name a v
  | false =>
    have hpos : 0 < Session.depthLimit b := (hb.ready (Advances.refl (Extends.refl b)) 0).room.pos
    obtain ⟨limit, hlimit⟩ : ∃ k, Session.depthLimit b = k + 1 := ⟨_, (Nat.sub_add_cancel hpos).symm⟩
    have hrun : ∀ force, (Session.eval name a force).run b = (Session.evalWithin (limit + 1) name a force).run b := by
      intro force
      rw [Session.run_eval, hlimit]
    have hstrings : (b.loaded name).strings = b.strings := (loaded_eq b name).1
    cases hs : b.found name with
    | error e =>
      have hnone : ¬ b.Derives name a false v := by
        rw [derives_iff]
        rintro ⟨s, hs', -⟩
        rw [hs] at hs'
        cases hs'
      rw [hrun, Session.run_evalWithin, hs]
      exact ⟨fun hv => (nomatch hv), fun hv => absurd hv hnone⟩
    | ok s =>
      have hderives : ∀ force, b.Derives name a force v ↔
          (Session.plan s b.strings a.unanchored force = .ok (.known v) ∨
            ∃ e, Session.plan s b.strings a.unanchored force = .ok (.compute e) ∧
              ∃ depth, Formula.Query.run (m := Id) (b.derivedAnswer depth name) (e.query a.unanchored) = .ok v) := by
        intro force
        rw [derives_iff, hs]
        simp only [Except.ok.injEq, exists_eq_left']
      cases hplan : Session.plan s b.strings a.unanchored false with
      | error e =>
        rw [hrun, Session.run_evalWithin, hderives, hs, hstrings]
        simp only [hplan, reduceCtorEq, false_and, exists_false, or_false]
      | ok p =>
        cases p with
        | known w =>
          rw [hrun, Session.run_evalWithin, hderives, hs, hstrings]
          simp only [hplan, Except.ok.injEq, Session.Plan.known.injEq, reduceCtorEq, false_and, exists_false, or_false]
        | compute e =>
          -- The formula is evaluated whether that is asked for or not.
          have hforced := Session.plan_force hplan
          have hsame : (Session.eval name a false).run b = (Session.eval name a true).run b := by
            rw [hrun, hrun, Session.run_evalWithin, Session.run_evalWithin, hs, hstrings]
            dsimp only
            rw [hplan, hforced]
          rw [hsame, hderives, hplan, ← hforced, ← hderives]
          exact value_eq_ok_iff_derives hb (Advances.refl (Extends.refl b)) name a v

/-- In a book that requests have led to, requests that only read change no value, whether they succeed or fail, and what
the evaluator gives is what can be derived without a cache. -/
theorem value_eq_ok_iff_after_reading {b : Book} (hb : Reachable b) {requests : List Request}
    (hreading : ∀ r ∈ requests, r.isReading = true) (name : String) (a : Address) :
    (∀ v, ((Session.value name a).run b).1 = .ok v ↔
      ((Session.value name a).run (requests.foldl Request.perform b)).1 = .ok v) ∧
    ∀ force v, ((Session.eval name a force).run b).1 = .ok v ↔ b.Derives name a force v := by
  have hvalid := hb.isValid
  have hrefl : Advances b b b := Advances.refl (Extends.refl b)
  have hafter : Advances b b (requests.foldl Request.perform b) := advances_foldl (Extends.refl b) hreading
  refine ⟨fun v => ?_, fun force v => eval_eq_ok_iff_derives hvalid name a force v⟩
  rw [value_eq_ok_iff_derives hvalid hrefl, value_eq_ok_iff_derives hvalid hafter]

/-- A package with one sheet `S`, in which `B1` repeats the text of `A1`. -/
def samplePackage : Bytes :=
  Archive.build
    [("xl/workbook.xml", Text.Utf8.encode "<workbook><sheets><sheet name=\"S\" r:id=\"a\"/></sheets></workbook>"),
      ("xl/_rels/workbook.xml.rels", Text.Utf8.encode
        "<Relationships><Relationship Id=\"a\" Type=\"/worksheet\" Target=\"s.xml\"/></Relationships>"),
      ("xl/s.xml", Text.Utf8.encode <| "<worksheet><sheetData><row r=\"1\"><c t=\"str\"><v>a</v></c>" ++
        "<c><f>A1&amp;A1</f></c></row></sheetData></worksheet>")]

def emptyBook : Book := ⟨⟨[], [], [], 0, true⟩, .standard, ⟨[], none, none⟩, .empty, .builtin, [], []⟩

set_option maxRecDepth 20000 in
theorem derives_samplePackage :
    ∃ b, ofBytes samplePackage ⟨false, none, false⟩ = .ok b ∧ b.Derives "S" (.plain 1 1) true (.text "aa") := by
  let b := (ofBytes samplePackage ⟨false, none, false⟩).toOption.getD emptyBook
  have hopened : ofBytes samplePackage ⟨false, none, false⟩ = .ok b := eq_ok_getD emptyBook (by decide +kernel)
  have htext : ((b.derive 2 "S" (.plain 1 1) true).toOption.bind Value.toText?) = some "aa" := by decide +kernel
  refine ⟨b, hopened, 2, ?_⟩
  obtain ⟨v, hv, hs⟩ := Option.bind_eq_some_iff.mp htext
  cases v with
  | text s =>
    cases hs
    exact eq_ok_of_toOption hv
  | _ => cases hs

/-- The value of a cell of a package, before and after its sheet has been evaluated. -/
theorem value_eq_ok_iff_after_reading_sample :
    ∃ b, ofBytes samplePackage ⟨false, none, false⟩ = .ok b ∧
      ((Session.value "S" (.plain 1 1)).run b).1 = .ok (.text "aa") ∧
      ((Session.value "S" (.plain 1 1)).run
        ([Request.recalculate "S" false, .eval "S" (.plain 1 0) true].foldl Request.perform b)).1 =
          .ok (.text "aa") := by
  obtain ⟨b, hopened, hderives⟩ := derives_samplePackage
  have hreading : ∀ r ∈ [Request.recalculate "S" false, .eval "S" (.plain 1 0) true], r.isReading = true := by decide
  obtain ⟨hvalue, heval⟩ := value_eq_ok_iff_after_reading (.opened hopened) hreading "S" (.plain 1 1)
  have hbefore : ((Session.value "S" (.plain 1 1)).run b).1 = .ok (.text "aa") := (heval true _).mpr hderives
  exact ⟨b, hopened, hbefore, (hvalue _).mp hbefore⟩

end Spreadsheet.Book
