import Spreadsheet.Proofs.Book.Drafts
import Spreadsheet.Proofs.Book.Unsaved

/-! # Values that last

A value that is kept for a cell stays until a request asks for it to go: another value is written to the cell, or the kept
values of its sheet are dropped. Evaluations keep values in the middle of others, but only for cells that have none, and a
save changes the parts of sheets, but not the values that are kept for them.

* `Request.discards`: the requests that may take the value of a cell away.
* `Retains`: a value is kept for a cell.
* `Request.keeps_retains`: what one request keeps; `Retains.foldl`: what a run of requests keeps.
* `eval_of_write`: a written value is the value of its cell until a request discards it. -/

set_option autoImplicit false

namespace Spreadsheet.Book

open Grid

/-- Whether a request may take away the value that is kept for a cell. -/
def Request.discards (name : String) (a : Address) : Request → Bool
  | .write other a' _ | .writeFlag other a' _ _ => other == name && a'.unanchored == a.unanchored
  | .reset other => other == name
  | .recalculate other drop => drop && other == name
  | _ => false

/-- A value is kept for a cell of a sheet that has been read. -/
def Retains (name : String) (a : Address) (v : Value) (b : Book) : Prop :=
  ∃ s, b.sheet? name = some s ∧ s.cached? a = some v

variable {name other : String} {a a' : Address} {v : Value} {b c : Book}

/-! ## Reading and evaluating -/

theorem Retains.loaded (h : Retains name a v b) (other : String) : Retains name a v (b.loaded other) := by
  obtain ⟨s, hs, hv⟩ := h
  refine ⟨s, ?_, hv⟩
  rw [sheet?_loaded]
  split
  next heq =>
    subst heq
    rw [found_of_sheet? hs]
    rfl
  next => exact hs

/-- A value is computed and kept only for cells that have none, whatever else is evaluated in between. -/
theorem Retains.evaluated (h : Retains name a v b) (other : String) (a' : Address) (force : Bool) :
    Retains name a v ((Session.eval other a' force).run b).2 := by
  obtain ⟨s, hs, hv⟩ := h
  rw [Session.run_eval]
  have hadvances := (Session.evalWithin_sound (Session.depthLimit b) other a' force (Extends.refl b)).1
  obtain ⟨t, ht, -, hkept, -⟩ := hadvances.extension.sheet (found_of_sheet? hs)
  have hread := hadvances.read name (Option.isSome_of_eq_some hs)
  obtain ⟨u, hu⟩ := Option.isSome_iff_exists.mp hread
  obtain rfl := Except.ok.inj ((found_of_sheet? hu).symm.trans ht)
  exact ⟨u, hu, hkept a v hv⟩

theorem Session.Reading.keeps_retains {α : Type} {r : Session α} (hr : Session.Reading r) :
    Session.Keeps (Retains name a v) r :=
  hr.keeps (fun h other => h.loaded other) fun h other a' force => h.evaluated other a' force

/-! ## Writing, resetting and saving -/

/-- Another sheet may be changed in any way, the sheet itself if it keeps the value. -/
theorem Retains.withSheet (h : Retains name a v b) {s t : Sheet} (hs : b.sheet? other = some s) (hname : t.name = s.name)
    (hkept : other = name → s.cached? a = some v → t.cached? a = some v) : Retains name a v (b.withSheet t) := by
  obtain ⟨u, hu, hv⟩ := h
  have hat : t.name = other := hname.trans (name_of_sheet? hs)
  have hsheet := sheet?_withSheet (s := t) (by rw [hat]; exact hs) name
  rw [hat] at hsheet
  by_cases heq : name = other
  · subst heq
    obtain rfl := Option.some.inj (hs.symm.trans hu)
    exact ⟨t, hsheet.trans (if_pos rfl), hkept rfl hv⟩
  · exact ⟨u, (hsheet.trans (if_neg heq)).trans hu, hv⟩

theorem keeps_retains_write (hno : other = name → a'.unanchored ≠ a.unanchored) (w : Value) :
    Session.Keeps (Retains name a v) (Session.write other a' w) := by
  refine Session.keeps_write (fun h other => h.loaded other) fun {c s} h hs _ => h.withSheet hs rfl fun heq hv => ?_
  rw [cached?_withCached, if_neg fun hsame => hno heq hsame.symm]
  exact hv

theorem keeps_retains_reset (hno : other ≠ name) : Session.Keeps (Retains name a v) (Session.reset other) :=
  Session.keeps_reset (fun h other => h.loaded other) fun h hs => h.withSheet hs rfl fun heq _ => absurd heq hno

theorem Retains.commitSheet (h : Retains name a v b) (entry : String × Markup.Node) : Retains name a v (b.commitSheet entry) := by
  obtain ⟨s, hs, hv⟩ := h
  refine ⟨if name = entry.1 then s.commit entry.2 else s, ?_, ?_⟩
  · rw [sheet?_commitSheet, hs]
    rfl
  · split
    · exact hv
    · exact hv

theorem keeps_retains_save : Session.Keeps (Retains name a v) Session.save :=
  Session.keeps_save (fun h entry => h.commitSheet entry) fun h _ _ => h

/-! ## Requests -/

theorem Request.keeps_retains {r : Request} (hr : r.discards name a = false) :
    Session.Keeps (Retains name a v) r.session := by
  cases hreading : r.isReading with
  | true => exact (Request.reading hreading).keeps_retains
  | false =>
    have hwritten : ∀ {other : String} {a' : Address}, (other == name && a'.unanchored == a.unanchored) = false → other = name →
        a'.unanchored ≠ a.unanchored := by
      rintro other a' hno rfl heq
      rw [heq, beq_self_eq_true, beq_self_eq_true] at hno
      cases hno
    cases r with
    | write other a' w => exact keeps_retains_write (hwritten hr) w
    | writeFlag other a' answer format => exact keeps_retains_write (hwritten hr) (format.encode answer)
    | reset other => exact keeps_retains_reset (ne_of_beq_false hr)
    | recalculate other drop =>
      cases drop with
      | false => cases hreading
      | true =>
        exact (keeps_retains_reset (ne_of_beq_false hr)).bind fun _ => (Session.reading_recalculate other).keeps_retains
    | save => exact keeps_retains_save.bind fun _ d hd => hd
    | _ => cases hreading

theorem Retains.foldl (h : Retains name a v b) {requests : List Request}
    (hrequests : ∀ r ∈ requests, r.discards name a = false) : Retains name a v (requests.foldl Request.perform b) := by
  induction requests generalizing b with
  | nil => exact h
  | cons r requests ih =>
    obtain ⟨hr, hrest⟩ := List.forall_mem_cons.mp hrequests
    exact ih (Request.keeps_retains hr b h) hrest

/-- Where a value is kept, it is the value of the cell, and nothing is evaluated for it. -/
theorem Retains.run_eval (h : Retains name a v b) (ha : a'.unanchored = a.unanchored) (force : Bool) :
    (Session.eval name a' force).run b = (.ok v, b) := by
  obtain ⟨s, hs, hv⟩ := h
  have hloaded : b.loaded name = b := by rw [Book.loaded, hs]
  have hcached : s.cached? a'.unanchored = some v := by
    rw [ha]
    exact hv
  rw [Session.run_eval, Session.depthLimit, Session.run_evalWithin, found_of_sheet? hs, hloaded]
  dsimp only
  rw [plan_of_cached hcached]

theorem retains_of_write (h : (Session.write name a v).run b = (.ok (), c)) : Retains name a v c := by
  obtain ⟨s, hs, -, rfl⟩ := Session.run_write_eq_ok.mp h
  have hat : (s.withCached a v).name = name := (name_of_found hs : s.name = name)
  refine ⟨s.withCached a v, ?_, ?_⟩
  · rw [sheet?_withSheet (t := s) (by rw [hat]; exact Session.loaded_sheet? hs), hat, if_pos rfl]
  · rw [cached?_withCached, if_pos rfl]

/-- A written value is the value of its cell, with or without a formula, after any requests that do not discard it,
whether they succeed or fail. -/
theorem eval_of_write (h : (Session.write name a v).run b = (.ok (), c)) {requests : List Request}
    (hrequests : ∀ r ∈ requests, r.discards name a = false) (ha : a'.unanchored = a.unanchored) (force : Bool) :
    (Session.eval name a' force).run (requests.foldl Request.perform c) =
      (.ok v, requests.foldl Request.perform c) :=
  ((retains_of_write h).foldl hrequests).run_eval ha force

set_option maxRecDepth 20000 in
theorem write_samplePackage : ∃ b c, ofBytes samplePackage ⟨false, none, false⟩ = .ok b ∧
    (Session.write "S" (.plain 1 1) (.text "b")).run b = (.ok (), c) := by
  have hdone : (ofBytes samplePackage ⟨false, none, false⟩).toOption.bind (fun b =>
      ((Session.write "S" (.plain 1 1) (.text "b")).run b).1.toOption) = some () := by decide +kernel
  obtain ⟨b, hopened, hwritten⟩ := Option.bind_eq_some_iff.mp hdone
  exact ⟨b, _, eq_ok_of_toOption hopened, Prod.ext (eq_ok_of_toOption hwritten) rfl⟩

/-- The formula of the cell is not evaluated again, although what it refers to is written, all formulas are recalculated
and the book is saved. -/
theorem eval_of_write_samplePackage : ∃ b c, ofBytes samplePackage ⟨false, none, false⟩ = .ok b ∧
    (Session.write "S" (.plain 1 1) (.text "b")).run b = (.ok (), c) ∧
      let d := [Request.write "S" (.plain 1 0) (.text "c"), .recalculate "S" false, .save].foldl Request.perform c
      (Session.eval "S" (.plain 1 1) true).run d = (.ok (.text "b"), d) := by
  obtain ⟨b, c, hopened, hwritten⟩ := write_samplePackage
  exact ⟨b, c, hopened, hwritten, eval_of_write hwritten (by decide) rfl true⟩

end Spreadsheet.Book
