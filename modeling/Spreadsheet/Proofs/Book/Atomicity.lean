import Spreadsheet.Book.SaveSteps
import Spreadsheet.Proofs.Book.Drafts
import Spreadsheet.Proofs.Book.Requests

/-! # A save changes everything or nothing

Whatever may fail in a save comes before the first change of the book. The changes themselves go on even so in a loop that
stops at a sheet that has not been read; it never does, since only sheets that have been read get new parts.

* `run_draftSheets`, `run_produce`: steps that may fail, and leave the book as it is.
* `IsLoaded`: sheets that have been read; `isLoaded_commitSheet`: they stay so.
* `run_commitParts`: the loop, when all of its sheets have been read.
* `saveInSteps_atomic`: a save, one step after the other. -/

set_option autoImplicit false

namespace Spreadsheet.Book

open Markup

/-! ## Producing -/

theorem Session.run_draftSheets (names : List String) (d : Draft) (b : Book) :
    (draftSheets d names).run b = (d.addSheets b names, b) := by
  induction names generalizing d with
  | nil => rfl
  | cons name rest ih =>
    rw [draftSheets, run_bind, run_get]
    dsimp only
    rw [run_bind, run_ofExcept, Draft.addSheets]
    cases d.addSheet b name with
    | error e => rfl
    | ok next => exact ih next

def product (b : Book) : Except Error Product := do
  let draft ← Draft.addSheets b ⟨b.archive, b.strings, []⟩ b.catalog.names
  let archive ← storeStrings draft.archive b.catalog draft.strings.updated?
  let bytes ← archive.save.mapError .archive
  return ⟨draft, draft.strings.updated?, archive, bytes⟩

theorem Session.run_produce (b : Book) : produce.run b = (b.product, b) := by
  rw [produce, run_bind, run_get]
  dsimp only
  rw [run_bind, run_draftSheets, product]
  cases Draft.addSheets b ⟨b.archive, b.strings, []⟩ b.catalog.names with
  | error e => rfl
  | ok draft =>
    dsimp only
    rw [run_bind, run_get]
    dsimp only
    rw [run_bind, run_ofExcept, ok_bind]
    cases storeStrings draft.archive b.catalog draft.strings.updated? with
    | error e => rfl
    | ok archive =>
      dsimp only
      rw [run_bind, run_ofExcept, ok_bind]
      cases archive.save.mapError Error.archive <;> rfl

/-! ## Sheets that have been read -/

/-- The sheets of some new parts have been read. -/
def IsLoaded (b : Book) (parts : List (String × Node)) : Prop := ∀ entry ∈ parts, (b.sheet? entry.1).isSome

theorem isLoaded_addSheet {b : Book} {d d' : Draft} {name : String} (hd : b.IsLoaded d.parts)
    (h : d.addSheet b name = .ok d') : b.IsLoaded d'.parts := by
  unfold Draft.addSheet at h
  split at h
  next =>
    cases h
    exact hd
  next s hs =>
    split at h
    next =>
      cases h
      exact hd
    next =>
      obtain ⟨archive, -, rfl⟩ := map_eq_ok.mp h
      intro entry hentry
      obtain hentry | hentry := List.mem_append.mp hentry
      · exact hd entry hentry
      · rw [List.mem_singleton.mp hentry, hs]
        rfl

theorem isLoaded_addSheets {b : Book} {names : List String} {d d' : Draft} (hd : b.IsLoaded d.parts)
    (h : d.addSheets b names = .ok d') : b.IsLoaded d'.parts := by
  induction names generalizing d with
  | nil =>
    cases h
    exact hd
  | cons name rest ih =>
    rw [Draft.addSheets] at h
    obtain ⟨next, hnext, h⟩ := bind_eq_ok.mp h
    exact ih (isLoaded_addSheet hd hnext) h

theorem isLoaded_product {b : Book} {p : Product} (h : b.product = .ok p) : b.IsLoaded p.draft.parts := by
  simp only [product, bind_eq_ok, pure_eq_ok] at h
  obtain ⟨draft, hdraft, archive, -, bytes, -, rfl⟩ := h
  refine isLoaded_addSheets (fun entry hentry => ?_) hdraft
  cases hentry

theorem IsLoaded.commitSheet {b : Book} {parts : List (String × Node)} (h : b.IsLoaded parts) (entry : String × Node) :
    (b.commitSheet entry).IsLoaded parts := by
  intro other hother
  rw [sheet?_commitSheet, Option.isSome_map]
  exact h other hother

/-! ## Settling -/

theorem Session.run_commitPart {b : Book} {entry : String × Node} (h : (b.sheet? entry.1).isSome) :
    (commitPart entry).run b = (.ok (), b.commitSheet entry) := by
  obtain ⟨s, hs⟩ := Option.isSome_iff_exists.mp h
  rw [commitPart, run_bind, run_get]
  simp only [commitSheet, hs]
  rfl

theorem Session.run_commitParts {b : Book} {parts : List (String × Node)} (h : b.IsLoaded parts) :
    (commitParts parts).run b = (.ok (), parts.foldl commitSheet b) := by
  induction parts generalizing b with
  | nil => rfl
  | cons entry rest ih =>
    have hrest : b.IsLoaded rest := fun other hother => h other (List.mem_cons_of_mem _ hother)
    rw [commitParts, run_bind, run_commitPart (h entry List.mem_cons_self)]
    exact ih (hrest.commitSheet entry)

/-- The book after what was produced from it has been put into it. -/
def settled (b : Book) (p : Product) : Book :=
  { p.draft.parts.foldl commitSheet b with
    archive := p.archive
    strings := match p.table with
      | some part => p.draft.strings.commit part
      | none => p.draft.strings }

theorem Session.run_settle {b : Book} {p : Product} (h : b.IsLoaded p.draft.parts) :
    (settle p).run b = (.ok (), b.settled p) := by
  rw [settle, run_bind, run_commitParts h]
  rfl

theorem saved_eq_product (b : Book) : saved b = b.product.map fun p => (p.bytes, b.settled p) := by
  rw [saved, product]
  cases Draft.addSheets b ⟨b.archive, b.strings, []⟩ b.catalog.names with
  | error e => rfl
  | ok draft =>
    rw [ok_bind, ok_bind]
    dsimp only
    cases storeStrings draft.archive b.catalog draft.strings.updated? with
    | error e => rfl
    | ok archive =>
      rw [ok_bind, ok_bind]
      cases archive.save.mapError Error.archive <;> rfl

theorem Session.run_saveInSteps (b : Book) : saveInSteps.run b = save.run b := by
  rw [saveInSteps, run_bind, run_produce, run_save, saved_eq_product]
  cases hp : b.product with
  | error e => rfl
  | ok p =>
    dsimp only
    rw [run_bind, run_settle (isLoaded_product hp)]
    rfl

/-- A save that goes through the book step by step changes nothing if it fails. It fails only before the bytes of the package
have been produced; from then on every sheet gets its new part, with no sheet missing. -/
theorem saveInSteps_atomic (b : Book) :
    Session.saveInSteps.run b = Session.save.run b ∧
      (∀ e c, Session.saveInSteps.run b = (.error e, c) → c = b) ∧
      ∀ p c, Session.produce.run b = (.ok p, c) → c = b ∧
        (Session.commitParts p.draft.parts).run c = (.ok (), p.draft.parts.foldl commitSheet b) ∧
        Session.saveInSteps.run b = (.ok p.bytes, b.settled p) := by
  have hsteps : Session.saveInSteps.run b = match b.product with
      | .ok p => (.ok p.bytes, b.settled p)
      | .error e => (.error e, b) := by
    rw [Session.run_saveInSteps, Session.run_save, saved_eq_product]
    cases b.product <;> rfl
  refine ⟨Session.run_saveInSteps b, fun e c h => ?_, fun p c h => ?_⟩
  · rw [hsteps] at h
    cases hp : b.product with
    | error e' =>
      rw [hp] at h
      exact (Prod.mk.inj h).2.symm
    | ok p =>
      rw [hp] at h
      cases h
  · rw [Session.run_produce] at h
    obtain ⟨hp, rfl⟩ := Prod.mk.inj h
    refine ⟨rfl, Session.run_commitParts (isLoaded_product hp), ?_⟩
    rw [hsteps, hp]

end Spreadsheet.Book
