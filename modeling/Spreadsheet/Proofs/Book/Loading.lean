import Spreadsheet.Book.Evaluate
import Spreadsheet.Proofs.Book.Places
import Spreadsheet.Proofs.Outcome

/-! # Requests as functions

A request takes a book and gives a result and a book. The sheet that a request finds does not depend on whether it has
been read before.

* `run_bind`: one request after the other.
* `Catalog.pathOf_inj`: sheets with parts of their own.
* `readSheet_eq_ok`: what a sheet is read from.
* `found`, `loaded`: the sheet of a name, and the book in which it has been read.
* `found_loaded`, `found_withSheet`: what the changes of a book do to the sheets that are found in it. -/

set_option autoImplicit false

namespace Spreadsheet.Book

/-! ## Running a request -/

namespace Session

variable {α β : Type}

theorem run_bind (r : Session α) (f : α → Session β) (b : Book) :
    (r >>= f).run b = match r.run b with
      | (.ok x, c) => (f x).run c
      | (.error e, c) => (.error e, c) := by
  change (match r b with
    | (x, c) => ExceptT.bindCont f x c) = _
  cases h : r.run b with
  | mk x c =>
    have hr : r b = (x, c) := h
    rw [hr]
    cases x <;> rfl

theorem run_get (b : Book) : (get : Session Book).run b = (.ok b, b) := rfl

theorem run_ofExcept (x : Except Error α) (b : Book) : (ofExcept x).run b = (x, b) := rfl

end Session

/-! ## The catalog -/

namespace Catalog

theorem entry_of_pathOf {c : Catalog} {name path : String} (h : c.pathOf name = .ok path) :
    ∃ entry ∈ c.sheets, entry.name = name ∧ entry.path = some path := by
  unfold pathOf at h
  split at h
  next hsome =>
    cases h
    obtain ⟨entry, hentry, hpath⟩ := Option.bind_eq_some_iff.mp hsome
    have hname := List.find?_some hentry
    exact ⟨entry, List.mem_of_find?_eq_some hentry, eq_of_beq hname, hpath⟩
  next => cases h

theorem mem_names_of_pathOf {c : Catalog} {name path : String} (h : c.pathOf name = .ok path) : name ∈ c.names := by
  obtain ⟨entry, hentry, rfl, -⟩ := entry_of_pathOf h
  exact List.mem_map_of_mem hentry

theorem eq_of_nodup_filterMap {α β : Type} {f : α → Option β} {l : List α} (hl : (l.filterMap f).Nodup) {x y : α} {k : β}
    (hx : x ∈ l) (hy : y ∈ l) (hkx : f x = some k) (hky : f y = some k) : x = y := by
  induction l with
  | nil => cases hx
  | cons z l ih =>
    have htail : (l.filterMap f).Nodup := ((List.sublist_cons_self z l).filterMap f).nodup hl
    have hhead : ∀ w ∈ l, f w = some k → f z ≠ some k := by
      intro w hw hkw hkz
      rw [List.filterMap_cons_some hkz, List.nodup_cons] at hl
      exact hl.1 (List.mem_filterMap.mpr ⟨w, hw, hkw⟩)
    obtain hxz | hxl := List.mem_cons.mp hx
    · obtain hyz | hyl := List.mem_cons.mp hy
      · rw [hxz, hyz]
      · exact absurd (hxz ▸ hkx) (hhead y hyl hky)
    · obtain hyz | hyl := List.mem_cons.mp hy
      · exact absurd (hyz ▸ hky) (hhead x hxl hkx)
      · exact ih htail hxl hyl

theorem pathOf_inj {c : Catalog} (hpaths : (c.sheets.filterMap (·.path)).Nodup) {name other path : String}
    (hname : c.pathOf name = .ok path) (hother : c.pathOf other = .ok path) : name = other := by
  obtain ⟨e, he, rfl, hepath⟩ := entry_of_pathOf hname
  obtain ⟨f, hf, rfl, hfpath⟩ := entry_of_pathOf hother
  rw [eq_of_nodup_filterMap hpaths he hf hepath hfpath]

end Catalog

/-! ## The sheets of a book -/

/-- The sheet of a name, as it has been read or as it would be read now. -/
def found (b : Book) (name : String) : Except Error Sheet :=
  match b.sheet? name with
  | some s => .ok s
  | none => readSheet b.archive b.catalog name

def loaded (b : Book) (name : String) : Book :=
  match b.sheet? name, readSheet b.archive b.catalog name with
  | none, .ok s => { b with sheets := b.sheets ++ [s] }
  | _, _ => b

theorem Session.run_load (name : String) (b : Book) : (load name).run b = (b.found name, b.loaded name) := by
  rw [load, run_bind, run_get]
  dsimp only
  unfold found loaded
  cases b.sheet? name with
  | some s => rfl
  | none => cases readSheet b.archive b.catalog name <;> rfl

theorem name_of_sheet? {b : Book} {name : String} {s : Sheet} (h : b.sheet? name = some s) : s.name = name := by
  have hname := List.find?_some h
  exact eq_of_beq hname

def readNotes : Option Bytes → Except Markup.Error Notes
  | some bytes => Notes.read bytes
  | none => .ok []

theorem readSheet_eq_ok {a : Archive} {c : Catalog} {name : String} {s : Sheet} :
    readSheet a c name = .ok s ↔ ∃ path bytes noted part notes, c.pathOf name = .ok path ∧ a.contains path = true ∧
      a.read path = .ok bytes ∧ notesPart a path = .ok noted ∧ Markup.parse bytes = .ok part ∧
        readNotes noted = .ok notes ∧ s = Sheet.ofTree name path part notes := by
  have hread : ∀ {path bytes noted}, Sheet.read name path bytes noted = .ok s ↔ ∃ part notes,
      Markup.parse bytes = .ok part ∧ readNotes noted = .ok notes ∧ s = Sheet.ofTree name path part notes := by
    intro path bytes noted
    rw [Sheet.read, bind_eq_ok]
    refine exists_congr fun part => ?_
    cases noted with
    | some bytes =>
      dsimp only [readNotes]
      rw [bind_eq_ok]
      constructor
      · rintro ⟨hpart, notes, hnotes, h⟩
        exact ⟨notes, hpart, hnotes, (pure_eq_ok.mp h).symm⟩
      · rintro ⟨notes, hpart, hnotes, h⟩
        exact ⟨hpart, notes, hnotes, pure_eq_ok.mpr h.symm⟩
    | none =>
      constructor
      · rintro ⟨hpart, h⟩
        exact ⟨[], hpart, rfl, (pure_eq_ok.mp h).symm⟩
      · rintro ⟨notes, hpart, hnotes, h⟩
        cases hnotes
        exact ⟨hpart, pure_eq_ok.mpr h.symm⟩
  rw [readSheet, bind_eq_ok]
  constructor
  · rintro ⟨path, hpath, h⟩
    split at h
    next hcontains =>
      simp only [bind_eq_ok] at h
      obtain ⟨bytes, hbytes, noted, hnoted, h⟩ := h
      obtain ⟨part, notes, hpart, hnotes, hs⟩ := hread.mp (mapError_eq_ok.mp h)
      exact ⟨path, bytes, noted, part, notes, hpath, hcontains, mapError_eq_ok.mp hbytes, hnoted, hpart, hnotes, hs⟩
    next => cases h
  · rintro ⟨path, bytes, noted, part, notes, hpath, hcontains, hbytes, hnoted, hpart, hnotes, hs⟩
    refine ⟨path, hpath, ?_⟩
    rw [if_pos hcontains, bind_eq_ok]
    refine ⟨bytes, mapError_eq_ok.mpr hbytes, bind_eq_ok.mpr ⟨noted, hnoted, ?_⟩⟩
    exact mapError_eq_ok.mpr (hread.mpr ⟨part, notes, hpart, hnotes, hs⟩)

theorem name_of_readSheet {a : Archive} {c : Catalog} {name : String} {s : Sheet} (h : readSheet a c name = .ok s) :
    s.name = name ∧ (∃ path, c.pathOf name = .ok path) ∧ ∀ d ∈ s.cells, Sheet.IsPlace d.address := by
  obtain ⟨path, -, -, part, notes, hpath, -, -, -, -, -, rfl⟩ := readSheet_eq_ok.mp h
  exact ⟨rfl, ⟨path, hpath⟩, fun d hd => Sheet.isPlace_of_mem_index hd⟩

theorem name_of_found {b : Book} {name : String} {s : Sheet} (h : b.found name = .ok s) : s.name = name := by
  unfold found at h
  split at h
  next hs =>
    cases h
    exact name_of_sheet? hs
  next => exact (name_of_readSheet h).1

theorem found_of_sheet? {b : Book} {name : String} {s : Sheet} (h : b.sheet? name = some s) : b.found name = .ok s := by
  rw [found, h]

/-! ## Changes of a book -/

theorem sheet?_loaded (b : Book) (name other : String) :
    (b.loaded name).sheet? other = if other = name then (b.found name).toOption else b.sheet? other := by
  unfold loaded found
  split
  next s hnone hread =>
    have hs : s.name = name := (name_of_readSheet hread).1
    rw [hnone]
    have happend : ({ b with sheets := b.sheets ++ [s] } : Book).sheet? other =
        (b.sheet? other).or (if s.name == other then some s else none) := by
      simp only [sheet?, List.find?_append, List.find?_singleton]
    rw [happend, hs]
    by_cases hother : other = name
    · subst hother
      rw [hnone, if_pos rfl, Option.none_or, hread, if_pos (beq_self_eq_true _)]
      rfl
    · rw [if_neg hother, if_neg (by simpa using fun h => hother h.symm), Option.or_none]
  next hno =>
    by_cases hother : other = name
    · subst hother
      rw [if_pos rfl]
      cases hsheet : b.sheet? other with
      | some s => rfl
      | none =>
        cases hread : readSheet b.archive b.catalog other with
        | ok s => exact absurd hread (hno s hsheet)
        | error e => rfl
    · rw [if_neg hother]

theorem found_loaded (b : Book) (name other : String) : (b.loaded name).found other = b.found other := by
  have harchive : (b.loaded name).archive = b.archive ∧ (b.loaded name).catalog = b.catalog := by
    unfold loaded
    split
    · exact ⟨rfl, rfl⟩
    · exact ⟨rfl, rfl⟩
  rw [found, harchive.1, harchive.2, sheet?_loaded]
  by_cases hother : other = name
  · subst hother
    rw [if_pos rfl]
    cases hfound : b.found other with
    | ok s => rfl
    | error e =>
      unfold found at hfound
      split at hfound
      · cases hfound
      · exact hfound
  · rw [if_neg hother]
    rfl

theorem sheet?_withSheet {b : Book} {s t : Sheet} (hs : b.sheet? s.name = some t) (other : String) :
    (b.withSheet s).sheet? other = if other = s.name then some s else b.sheet? other := by
  have hfind : (b.withSheet s).sheet? other =
      (b.sheets.find? fun t => t.name == other).map fun t => if t.name = s.name then s else t := by
    rw [sheet?, withSheet, List.find?_map]
    congr 1
    congr 1
    funext t
    change ((if t.name = s.name then s else t).name == other) = (t.name == other)
    split
    next h => rw [h]
    next => rfl
  rw [hfind]
  by_cases hother : other = s.name
  · rw [if_pos hother, hother]
    change (b.sheet? s.name).map _ = _
    rw [hs, Option.map_some, if_pos (name_of_sheet? hs)]
  · rw [if_neg hother]
    change (b.sheet? other).map _ = _
    cases h : b.sheet? other with
    | none => rfl
    | some u =>
      have hu : u.name ≠ s.name := by
        rw [name_of_sheet? h]
        exact hother
      rw [Option.map_some, if_neg hu]

theorem found_withSheet {b : Book} {s t : Sheet} (hs : b.sheet? s.name = some t) (other : String) :
    (b.withSheet s).found other = if other = s.name then .ok s else b.found other := by
  rw [found, sheet?_withSheet hs]
  by_cases hother : other = s.name
  · rw [if_pos hother, if_pos hother]
  · rw [if_neg hother, if_neg hother]
    rfl

theorem Session.run_keep (name : String) (a : Grid.Address) (v : Value) (b : Book) :
    (keep name a v).run b = match b.sheet? name with
      | some s => (.ok (), b.withSheet (s.withCached a v))
      | none => (.error (.sheetNotFound name), b) := by
  rw [keep, run_bind, run_get]
  dsimp only
  cases b.sheet? name <;> rfl

end Spreadsheet.Book
