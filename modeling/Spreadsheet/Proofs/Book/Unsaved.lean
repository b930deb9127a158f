import Spreadsheet.Proofs.Book.Requests

/-! # Books that have not been saved since they were opened

Whatever has been asked of such a book, its sheets are those of the package that it was opened from. Requests that fail
half-way keep values too, and an evaluation keeps them in the middle of others.

* `Stems`: a book whose sheets are those of another one, with values kept for some of their cells.
* `Stems.evaluated`: evaluation leads from one such book to the next.
* `stems_foldl`: so do all requests that do not save. -/

set_option autoImplicit false

namespace Spreadsheet.Book

open Grid

/-- Whether a request saves the book. -/
def Request.isSaving : Request → Bool
  | .save => true
  | _ => false

/-- A sheet as it is read, with values kept for some of its cells. -/
structure Sheet.Stems (s t : Sheet) : Prop where
  same : t = { s with cache := t.cache }
  kept : ∀ {a v}, t.cached? a = some v → (s.cell? a).isSome

theorem Sheet.Stems.cell? {s t : Sheet} (h : s.Stems t) (a : Address) : t.cell? a = s.cell? a := by
  rw [h.same]
  rfl

theorem Sheet.Stems.name {s t : Sheet} (h : s.Stems t) : t.name = s.name := by rw [h.same]

theorem Sheet.Stems.of_cache {s : Sheet} (hs : s.cache = []) : s.Stems s where
  same := rfl
  kept {a v} h := by
    rw [Sheet.cached?, hs] at h
    cases h

theorem Sheet.Stems.withCached {s t : Sheet} (h : s.Stems t) {a : Address} (ha : (t.cell? a).isSome) (v : Value) :
    s.Stems (t.withCached a v) where
  same := by rw [Sheet.withCached, h.same]
  kept {a' w} hw := by
    rw [cached?_withCached] at hw
    split at hw
    next heq =>
      rw [h.cell?] at ha
      rw [Sheet.cell?, heq]
      exact ha
    next => exact h.kept hw

theorem Sheet.Stems.reset {s t : Sheet} (h : s.Stems t) : s.Stems t.reset where
  same := by rw [Sheet.reset, h.same]
  kept hw := nomatch hw

/-- A book whose sheets are those of another one, of which none has been read yet. -/
structure Stems (b c : Book) : Prop where
  archive : c.archive = b.archive
  options : c.options = b.options
  catalog : c.catalog = b.catalog
  strings : c.strings = b.strings
  sheet : ∀ {name t}, c.sheet? name = some t → ∃ s, readSheet b.archive b.catalog name = .ok s ∧ s.Stems t

theorem Stems.of_sheets {b : Book} (hb : b.sheets = []) : Stems b b where
  archive := rfl
  options := rfl
  catalog := rfl
  strings := rfl
  sheet {name t} h := by
    rw [sheet?, hb] at h
    cases h

theorem cache_of_readSheet {a : Archive} {c : Catalog} {name : String} {s : Sheet} (h : readSheet a c name = .ok s) :
    s.cache = [] := by
  obtain ⟨path, bytes, noted, part, notes, -, -, -, -, -, -, rfl⟩ := readSheet_eq_ok.mp h
  rfl

theorem Stems.found {b c : Book} (h : Stems b c) {name : String} {t : Sheet} (ht : c.found name = .ok t) :
    ∃ s, readSheet b.archive b.catalog name = .ok s ∧ s.Stems t := by
  unfold Book.found at ht
  split at ht
  next u hu =>
    cases ht
    exact h.sheet hu
  next =>
    rw [h.archive, h.catalog] at ht
    exact ⟨t, ht, .of_cache (cache_of_readSheet ht)⟩

theorem Stems.exists_found {b c : Book} (h : Stems b c) {name : String} {s : Sheet}
    (hs : readSheet b.archive b.catalog name = .ok s) : ∃ t, c.found name = .ok t ∧ s.Stems t := by
  unfold Book.found
  cases ht : c.sheet? name with
  | some t =>
    obtain ⟨u, hu, hut⟩ := h.sheet ht
    rw [hs] at hu
    obtain rfl := Except.ok.inj hu
    exact ⟨t, rfl, hut⟩
  | none =>
    rw [h.archive, h.catalog]
    exact ⟨s, hs, .of_cache (cache_of_readSheet hs)⟩

/-! ## What requests do -/

theorem Stems.loaded {b c : Book} (h : Stems b c) (name : String) : Stems b (c.loaded name) := by
  have hsame : (c.loaded name).archive = c.archive ∧ (c.loaded name).options = c.options ∧
      (c.loaded name).catalog = c.catalog ∧ (c.loaded name).strings = c.strings := by
    unfold Book.loaded
    split <;> exact ⟨rfl, rfl, rfl, rfl⟩
  obtain ⟨harchive, hoptions, hcatalog, hstrings⟩ := hsame
  refine ⟨harchive.trans h.archive, hoptions.trans h.options, hcatalog.trans h.catalog, hstrings.trans h.strings,
    fun {other t} ht => ?_⟩
  rw [sheet?_loaded] at ht
  split at ht
  next heq =>
    subst heq
    exact h.found (eq_ok_of_toOption ht)
  next => exact h.sheet ht

theorem Stems.withSheet {b c : Book} (h : Stems b c) {name : String} {t u : Sheet} (ht : c.sheet? name = some t)
    (hu : ∀ {s : Sheet}, s.Stems t → s.Stems u) : Stems b (c.withSheet u) := by
  obtain ⟨s, hs, hst⟩ := h.sheet ht
  have hsu : s.Stems u := hu hst
  have hname : u.name = name := hsu.name.trans (name_of_readSheet hs).1
  refine ⟨h.archive, h.options, h.catalog, h.strings, fun {other w} hw => ?_⟩
  rw [sheet?_withSheet (t := t) (by rw [hname]; exact ht), hname] at hw
  split at hw
  next heq =>
    subst heq
    cases hw
    exact ⟨s, hs, hsu⟩
  next => exact h.sheet hw

theorem Stems.keep {b c : Book} (h : Stems b c) {name : String} {t : Sheet} (ht : c.sheet? name = some t) {a : Address}
    (ha : (t.cell? a).isSome) (v : Value) : Stems b (c.withSheet (t.withCached a v)) :=
  h.withSheet ht fun hst => hst.withCached ha v

theorem Stems.reset {b c : Book} (h : Stems b c) {name : String} {t : Sheet} (ht : c.sheet? name = some t) :
    Stems b (c.withSheet t.reset) :=
  h.withSheet ht fun hst => hst.reset

theorem Stems.congr {b c d : Book} (h : Stems b c) (hd : d = { c with evaluating := d.evaluating }) : Stems b d := by
  rw [hd]
  exact ⟨h.archive, h.options, h.catalog, h.strings, h.sheet⟩

theorem Session.run_write_eq_ok {b c : Book} {name : String} {a : Address} {v : Value} :
    (Session.write name a v).run b = (.ok (), c) ↔ ∃ s, b.found name = .ok s ∧ (s.cell? a).isSome ∧
      c = (b.loaded name).withSheet (s.withCached a v) := by
  rw [Session.write, run_bind, run_load]
  cases hs : b.found name with
  | error e =>
    constructor
    · intro h
      cases h
    · rintro ⟨s, h, -⟩
      cases h
  | ok s =>
    dsimp only
    split
    next hcell =>
      rw [run_keep, loaded_sheet? hs]
      constructor
      · intro h
        cases h
        exact ⟨s, rfl, hcell, rfl⟩
      · rintro ⟨t, ht, -, rfl⟩
        cases ht
        rfl
    next hcell =>
      constructor
      · intro h
        cases h
      · rintro ⟨t, ht, hsome, -⟩
        cases ht
        exact absurd hsome hcell

theorem found_of_run_write {b c : Book} {name : String} {a : Address} {v : Value}
    (h : (Session.write name a v).run b = (.ok (), c)) : ∃ s, b.found name = .ok s ∧ (s.cell? a).isSome ∧
      ∀ other, c.found other = if other = name then .ok (s.withCached a v) else b.found other := by
  obtain ⟨s, hs, hcell, rfl⟩ := Session.run_write_eq_ok.mp h
  have hname : (s.withCached a v).name = name := (name_of_found hs : s.name = name)
  refine ⟨s, hs, hcell, fun other => ?_⟩
  rw [found_withSheet (t := s) (by rw [hname]; exact Session.loaded_sheet? hs), hname, found_loaded]

theorem exists_run_write {b : Book} {name : String} {a : Address} {s : Sheet} (v : Value) (hs : b.found name = .ok s)
    (hcell : (s.cell? a).isSome) : ∃ c, (Session.write name a v).run b = (.ok (), c) ∧ c.strings = b.strings ∧
      c.found name = .ok (s.withCached a v) := by
  have hwrite : (Session.write name a v).run b = (.ok (), (b.loaded name).withSheet (s.withCached a v)) :=
    Session.run_write_eq_ok.mpr ⟨s, hs, hcell, rfl⟩
  refine ⟨_, hwrite, (loaded_eq b name).1, ?_⟩
  obtain ⟨t, ht, -, hfound⟩ := found_of_run_write hwrite
  obtain rfl := Except.ok.inj (ht.symm.trans hs)
  exact (hfound name).trans (if_pos rfl)

/-! ## Evaluation -/

namespace Session

theorem isSome_of_plan {s : Sheet} {strings : StringTable} {a : Address} {force : Bool} {e : Formula.Expr}
    (h : plan s strings a force = .ok (.compute e)) : (s.cell? a).isSome := by
  obtain ⟨-, c, hcell, -⟩ := plan_eq_compute.mp h
  rw [hcell]
  rfl

theorem query_keeps {P : Book → Prop} (answer : Option String → Address → StateM Book (Except Formula.Error Value))
    (hanswer : ∀ sheet a c, P c → P (answer sheet a c).2) {α : Type} (q : Formula.Query α) {c : Book} (hc : P c) :
    P (Formula.Query.run (m := StateM Book) answer q c).2 := by
  induction q generalizing c with
  | done y => exact hc
  | fail e => exact hc
  | ask sheet a next ih =>
    have hd := hanswer sheet a c hc
    rw [Formula.Query.run_ask_state]
    cases hresult : answer sheet a c with
    | mk r d =>
      rw [hresult] at hd
      cases r with
      | error e => exact hd
      | ok v => exact ih v hd

/-- Evaluation keeps what loading and keeping values keep. A value is kept only for a cell that the sheet had when it was
found; more may have been read and kept since. -/
theorem keeps_evalWithin {P : Book → Prop} (hload : ∀ {c}, P c → ∀ name, P (c.loaded name))
    (hevaluating : ∀ {c}, P c → ∀ frames, P { c with evaluating := frames })
    (hkeep : ∀ {c d name s t a}, P c → c.found name = .ok s → (s.cell? a).isSome → P d → d.sheet? name = some t →
      ∀ v, P (d.withSheet (t.withCached a v)))
    (limit : Nat) (name : String) (a : Address) (force : Bool) : Keeps P (evalWithin limit name a force) := by
  induction limit generalizing name a force with
  | zero => exact fun c hc => hc
  | succ limit ih =>
    intro c hc
    have hloaded := hload hc name
    rw [run_evalWithin]
    cases hs : c.found name with
    | error e => exact hloaded
    | ok s =>
      dsimp only
      cases hplan : plan s (c.loaded name).strings a.unanchored force with
      | error e => exact hloaded
      | ok p =>
        cases p with
        | known v => exact hloaded
        | compute e =>
          dsimp only
          split
          · exact hloaded
          have hcomputed : P (computed limit name a.unanchored e (c.loaded name)).2 := by
            have hquery := query_keeps (cachedAnswer limit name) (fun sheet a' d hd => ih (sheet.getD name) a' true d hd)
              (e.query a.unanchored) (hevaluating hloaded (⟨name, a.unanchored⟩ :: (c.loaded name).evaluating))
            exact hevaluating hquery _
          cases hend : computed limit name a.unanchored e (c.loaded name) with
          | mk r d =>
            rw [hend] at hcomputed
            cases r with
            | error e => exact hcomputed
            | ok v =>
              rw [kept, run_keep]
              cases ht : d.sheet? name with
              | none => exact hcomputed
              | some t => exact hkeep hc hs (isSome_of_plan hplan) hcomputed ht v

end Session

theorem Stems.evaluated {b c : Book} (h : Stems b c) (name : String) (a : Address) (force : Bool) :
    Stems b ((Session.eval name a force).run c).2 := by
  rw [Session.run_eval]
  refine Session.keeps_evalWithin (fun hc name => hc.loaded name) (fun hc _ => hc.congr rfl) ?_ _ name a force c h
  intro c d name s t a hc hs hcell hd ht v
  -- The sheet may have been read by then, or more may be kept, but its cells are those that were read.
  obtain ⟨u, hu, hus⟩ := hc.found hs
  obtain ⟨u', hu', hut⟩ := hd.sheet ht
  obtain rfl := Except.ok.inj (hu.symm.trans hu')
  refine hd.keep ht ?_ v
  rw [hut.cell?, ← hus.cell?]
  exact hcell

theorem invariant_stems (b : Book) : Session.Invariant (Stems b) where
  load hc name := hc.loaded name
  eval hc name a force := hc.evaluated name a force
  keep hc _ _ _ ht ha v := hc.keep ht ha v
  reset hc _ _ ht := hc.reset ht

/-- A book that has been opened stems from its package, whether its release was looked up or not. -/
theorem stems_of_ofBytes {bytes : Bytes} {options : Options} {b : Book} (h : ofBytes bytes options = .ok b) :
    ∃ archive fresh, Archive.index bytes = .ok archive ∧
      ofArchive (archive.verifying options.verifiesChecksums) options = .ok fresh ∧ Stems fresh b := by
  obtain ⟨raw, fresh, hraw, hfresh, hkeeps⟩ := exists_fresh h
  obtain ⟨-, hsheets, -, -⟩ := spec_of_ofArchive hfresh
  exact ⟨raw, fresh, hraw, hfresh, hkeeps (fun hc name => hc.loaded name) (fun hc name a force => hc.evaluated name a force)
    (.of_sheets hsheets)⟩

theorem stems_foldl {b c : Book} (hc : Stems b c) {requests : List Request}
    (hunsaved : ∀ r ∈ requests, r.isSaving = false) : Stems b (requests.foldl Request.perform c) := by
  induction requests generalizing c with
  | nil => exact hc
  | cons r requests ih =>
    refine ih ?_ fun q hq => hunsaved q (List.mem_cons_of_mem _ hq)
    have hr := hunsaved r (List.mem_cons_self ..)
    exact Request.keeps (invariant_stems b) r (fun h => by rw [h] at hr; cases hr) c hc

end Spreadsheet.Book
