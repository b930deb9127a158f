import Spreadsheet.Proofs.Book.Packages

/-! # What holds of a book between requests

A save makes new parts and a new table the ones that the book stands for, so what was true of a book that had just been
opened is true of it after any number of saves.

* `StringTable.IsCounted`: a table whose length is that of its part.
* `IsCurrent`: a book whose sheets have the cells of their parts.
* `Reachable.isCurrent`: all books that requests lead to are of this form.
* `IsCounted.length_lt`: a table that is written has no more texts than can be numbered. -/

set_option autoImplicit false

namespace Spreadsheet.Book

open Markup Grid
open Archive.Layout (wide)

/-! ## The table -/

namespace StringTable

/-- A table whose length is that of its part. If the root of the part is no list of texts, new ones are not written. -/
structure IsCounted (t : StringTable) : Prop where
  whole : ∀ part ∈ t.part, part = .document part.children
  loaded : t.part.isSome = true → t.loaded = t.strings.length
  items : ∀ part ∈ t.part, IsRooted part → (stringsOf part).length = t.strings.length
  partless : t.part = none → t.strings = []

theorem isCounted_ofTree {part : Node} (h : part = .document part.children) : (ofTree part).IsCounted where
  whole _ hp := Option.some.inj hp ▸ h
  loaded _ := rfl
  items _ hp _ := by
    rw [← Option.some.inj hp]
    rfl
  partless hnone := nomatch hnone

theorem isCounted_empty : empty.IsCounted where
  whole _ hp := nomatch hp
  loaded hsome := nomatch hsome
  items _ hp := nomatch hp
  partless _ := rfl

theorem IsCounted.length_stringsOf_inNode {t table : StringTable} (h : t.IsCounted) (hgrows : t.Grows table) {part : Node}
    (hpart : t.part = some part) (hrooted : IsRooted part) :
    (stringsOf (table.inNode part)).length = table.strings.length := by
  have hloaded : table.loaded = t.strings.length := hgrows.loaded.trans (h.loaded (by rw [hpart]; rfl))
  have hle := hgrows.strings.length_le
  rw [stringsOf_inNode (h.whole part hpart) hrooted, List.length_append, List.length_map, h.items part hpart hrooted, added,
    List.length_drop, hloaded]
  omega

theorem IsCounted.settled {t table : StringTable} (h : t.IsCounted) (hgrows : t.Grows table) : table.settled.IsCounted := by
  unfold StringTable.settled
  cases hupdated : table.updated? with
  | some new =>
    obtain ⟨-, part, hpart, rfl⟩ := updated?_eq_some.mp hupdated
    rw [hgrows.part] at hpart
    refine ⟨fun p hp => ?_, fun _ => rfl, fun p hp hrooted => ?_, fun hnone => nomatch hnone⟩
    · rw [← Option.some.inj hp]
      exact whole_inNode (h.whole part hpart)
    · rw [← Option.some.inj hp] at hrooted ⊢
      exact h.length_stringsOf_inNode hgrows hpart (isRooted_of_inNode (h.whole part hpart) hrooted)
  | none =>
    dsimp only
    cases hpart : t.part with
    | none =>
      have hnone : table.part = none := hgrows.part.trans hpart
      refine ⟨fun p hp => ?_, fun hsome => ?_, fun p hp => ?_, fun _ => (hgrows.partless hpart).trans (h.partless hpart)⟩
      all_goals simp [hnone] at *
    | some part =>
      -- Nothing has been added, or the part would be written.
      have hloaded := h.loaded (by rw [hpart]; rfl)
      have hunmodified : table.isModified = false := by
        cases hmodified : table.isModified with
        | false => rfl
        | true =>
          rw [updated?_eq_some.mpr ⟨hmodified, part, hgrows.part.trans hpart, rfl⟩] at hupdated
          cases hupdated
      rw [isModified, Bool.or_eq_false_iff, decide_eq_false_iff_not, hgrows.loaded, hloaded, Nat.not_lt] at hunmodified
      have hstrings : t.strings = table.strings := hgrows.strings.eq_of_length_le hunmodified.1
      refine ⟨?_, fun _ => ?_, ?_, fun hnone => ?_⟩
      · rw [hgrows.part]
        exact h.whole
      · rw [hgrows.loaded, hloaded, hstrings]
      · rw [hgrows.part, ← hstrings]
        exact h.items
      · rw [hgrows.part, hpart] at hnone
        cases hnone

end StringTable

theorem isCounted_of_readStrings {a : Archive} {c : Catalog} {t : StringTable} (h : readStrings a c = .ok t) :
    t.IsCounted ∧ (t.part.isSome = true → c.stringsPath.isSome = true) := by
  obtain rfl | ⟨path, bytes, part, hpath, -, hparse, rfl⟩ := readStrings_eq_ok h
  · exact ⟨StringTable.isCounted_empty, fun hsome => nomatch hsome⟩
  · exact ⟨StringTable.isCounted_ofTree (whole_of_parse hparse), fun _ => by rw [hpath]; rfl⟩

theorem StringTable.IsCounted.length_lt {b : Book} (h : b.strings.IsCounted)
    (hlisted : b.strings.part.isSome = true → b.catalog.stringsPath.isSome = true) {tables : String → StringTable}
    {table : StringTable} (hgrows : b.strings.Grows table) {a : Archive}
    (hedits : b.archive.replaceAll (b.edits tables b.catalog.names ++ tableEdits b.catalog table) = .ok a)
    (hrooted : ∀ part ∈ b.strings.part, IsRooted part) (hreferences : 0 < table.references) :
    table.strings.length < Nat.pow 2 64 := by
  cases hpart : b.strings.part with
  | none =>
    rw [hgrows.partless hpart, h.partless hpart]
    exact Nat.pow_pos (by decide)
  | some part =>
    obtain ⟨path, hpath⟩ := Option.isSome_iff_exists.mp (hlisted (by rw [hpart]; rfl))
    have hmodified : table.isModified = true := by
      rw [isModified, decide_eq_true hreferences, Bool.or_true]
    have hnew : table.updated? = some (table.inNode part) :=
      updated?_eq_some.mpr ⟨hmodified, part, hgrows.part.trans hpart, rfl⟩
    have hmem : (path, (table.inNode part).bytes) ∈ b.edits tables b.catalog.names ++ tableEdits b.catalog table := by
      refine List.mem_append_right _ ?_
      rw [tableEdits, hnew, hpath]
      exact List.mem_singleton.mpr rfl
    have hbytes := length_stringsOf_le (whole_inNode (t := table) (h.whole part hpart))
    have hwide := Archive.length_le_of_replaceAll hedits hmem
    rw [← h.length_stringsOf_inNode hgrows hpart (hrooted part hpart)]
    exact Nat.lt_of_le_of_lt (Nat.le_trans hbytes hwide) (by decide)

/-! ## The sheets -/

/-- A book whose archive is sound, whose sheets stand under names of their own with the cells of their parts, and whose
table is that of its part. -/
structure IsCurrent (b : Book) : Prop where
  archive : b.archive.IsSound
  names : (b.sheets.map (·.name)).Nodup
  paths : b.IsAtPaths
  index : ∀ {name s}, b.sheet? name = some s → s.cells = Sheet.index s.part
  table : b.strings.IsCounted
  listed : b.strings.part.isSome = true → b.catalog.stringsPath.isSome = true

namespace IsCurrent

variable {b : Book} (hb : b.IsCurrent)

include hb

theorem loaded (name : String) : (b.loaded name).IsCurrent := by
  unfold Book.loaded
  split
  next s hnone hread =>
    obtain ⟨path, -, -, part, notes, hpath, -, -, -, -, -, hs⟩ := readSheet_eq_ok.mp hread
    have hname : s.name = name := by rw [hs]; rfl
    have hsheet : ∀ {other t}, ({ b with sheets := b.sheets ++ [s] } : Book).sheet? other = some t →
        b.sheet? other = some t ∨ (other = name ∧ t = s) := by
      intro other t ht
      rw [sheet?, List.find?_append] at ht
      obtain hold | ⟨-, hnew⟩ := Option.or_eq_some_iff.mp ht
      · exact .inl hold
      · obtain ⟨hother, rfl⟩ : s.name = other ∧ s = t := by simpa using hnew
        exact .inr ⟨hother ▸ hname, rfl⟩
    refine ⟨hb.archive, ?_, fun {other t} ht => ?_, fun {other t} ht => ?_, hb.table, hb.listed⟩
    · rw [List.map_append, List.map_singleton, hname]
      refine List.nodup_append.mpr ⟨hb.names, by simp, fun x hx y hy => ?_⟩
      obtain ⟨t, ht, rfl⟩ := List.mem_map.mp hx
      rw [List.mem_singleton.mp hy]
      rintro rfl
      refine absurd (List.find?_eq_none.mp hnone t ht) ?_
      simp
    · obtain hold | ⟨rfl, rfl⟩ := hsheet ht
      · exact hb.paths hold
      · rw [hs]
        exact hpath
    · obtain hold | ⟨-, rfl⟩ := hsheet ht
      · exact hb.index hold
      · rw [hs]
        rfl
  next => exact hb

/-- Another sheet with the cells of its part takes the place of one that has been read. -/
theorem withSheet {name : String} {s t : Sheet} (hs : b.sheet? name = some s) (hname : t.name = s.name)
    (hpath : t.path = s.path) (hindex : t.cells = Sheet.index t.part) : (b.withSheet t).IsCurrent := by
  have hat : t.name = name := hname.trans (name_of_sheet? hs)
  have hsheet : ∀ other, (b.withSheet t).sheet? other = if other = name then some t else b.sheet? other := by
    intro other
    rw [sheet?_withSheet (t := s) (by rw [hat]; exact hs), hat]
  refine ⟨hb.archive, ?_, fun {other u} hu => ?_, fun {other u} hu => ?_, hb.table, hb.listed⟩
  · have hnames : (b.withSheet t).sheets.map (·.name) = b.sheets.map (·.name) := by
      rw [Book.withSheet, List.map_map]
      refine List.map_congr_left fun u _ => ?_
      rw [Function.comp_apply]
      split
      next heq => exact heq.symm
      next => rfl
    rw [hnames]
    exact hb.names
  · rw [hsheet] at hu
    split at hu
    next heq =>
      obtain rfl := Option.some.inj hu
      rw [heq, hpath]
      exact hb.paths hs
    next => exact hb.paths hu
  · rw [hsheet] at hu
    split at hu
    next =>
      obtain rfl := Option.some.inj hu
      exact hindex
    next => exact hb.index hu

theorem withCached {name : String} {s : Sheet} (hs : b.sheet? name = some s) (a : Address) (v : Value) :
    (b.withSheet (s.withCached a v)).IsCurrent :=
  hb.withSheet hs rfl rfl (hb.index hs : s.cells = Sheet.index s.part)

theorem reset {name : String} {s : Sheet} (hs : b.sheet? name = some s) : (b.withSheet s.reset).IsCurrent :=
  hb.withSheet hs rfl rfl (hb.index hs : s.cells = Sheet.index s.part)

theorem evaluated (name : String) (a : Address) (force : Bool) : ((Session.eval name a force).run b).2.IsCurrent := by
  rw [Session.run_eval]
  refine Session.keeps_evalWithin (fun hc name => hc.loaded name) (fun hc _ => ?_) ?_ _ name a force b hb
  · exact ⟨hc.archive, hc.names, hc.paths, hc.index, hc.table, hc.listed⟩
  · exact fun _ _ _ hd ht v => hd.withCached ht _ v

theorem foldl_commitSheet (parts : List (String × Node)) : (parts.foldl commitSheet b).IsCurrent := by
  induction parts generalizing b with
  | nil => exact hb
  | cons entry parts ih =>
    refine ih ?_
    unfold commitSheet
    cases hs : b.sheet? entry.1 with
    | none => exact hb
    | some s => exact hb.withSheet hs rfl rfl rfl

end IsCurrent

theorem Draft.isSound_addSheets {b : Book} {names : List String} {d d' : Draft} (h : d.addSheets b names = .ok d')
    (hd : d.archive.IsSound) : d'.archive.IsSound := by
  induction names generalizing d with
  | nil =>
    cases h
    exact hd
  | cons name rest ih =>
    rw [addSheets] at h
    obtain ⟨next, hnext, h⟩ := bind_eq_ok.mp h
    exact ih h ((Archive.replaceAll_eq_ok (addSheet_eq_ok hnext).2.1).2 hd)

theorem Draft.grows_addSheets {b : Book} {names : List String} {d d' : Draft} (h : d.addSheets b names = .ok d') :
    d.strings.Grows d'.strings :=
  keeps_addSheets (fun _ _ _ _ hasFormula _ ht => ht.trans (Sheet.grows_storedValue _ hasFormula _ _)) h (.refl _)

theorem invariant_isCurrent : Session.Invariant IsCurrent where
  load hb name := hb.loaded name
  eval hb name a force := hb.evaluated name a force
  keep hb _ _ a hs _ v := hb.withCached hs a v
  reset hb _ _ hs := hb.reset hs

theorem keeps_isCurrent_save : Session.Keeps IsCurrent Session.save := by
  intro b hb
  rw [Session.run_save]
  cases hsaved : saved b with
  | error e => exact hb
  | ok result =>
    obtain ⟨out, c⟩ := result
    obtain ⟨draft, archive, hdraft, harchive, -, rfl⟩ := exists_draft_of_saved hsaved
    have hgrows := Draft.grows_addSheets hdraft
    have hsheets := hb.foldl_commitSheet draft.parts
    have hsound := (Archive.replaceAll_eq_ok harchive).2 (Draft.isSound_addSheets hdraft hb.archive)
    refine ⟨hsound, hsheets.names, hsheets.paths, hsheets.index, hb.table.settled hgrows, fun hsome => ?_⟩
    have hpart : draft.strings.settled.part.isSome = true := hsome
    rw [StringTable.part_settled, hgrows.part] at hpart
    exact (foldl_commitSheet_spec draft.parts b).1 ▸ hb.listed hpart

theorem isCurrent_of_ofBytes {bytes : Bytes} {options : Options} {b : Book} (h : ofBytes bytes options = .ok b) :
    b.IsCurrent := by
  obtain ⟨raw, fresh, hraw, hfresh, hkeeps⟩ := exists_fresh h
  obtain ⟨harchive, hsheets, -, hstrings⟩ := spec_of_ofArchive hfresh
  obtain ⟨hcounted, hlisted⟩ := isCounted_of_readStrings hstrings
  refine hkeeps IsCurrent.loaded IsCurrent.evaluated ⟨?_, ?_, fun {name s} hs => ?_, fun {name s} hs => ?_, hcounted, hlisted⟩
  · rw [harchive]
    exact (Archive.index_eq_ok hraw).1.verifying options.verifiesChecksums
  · rw [hsheets]
    exact List.nodup_nil
  · rw [sheet?_of_sheets_eq_nil hsheets] at hs
    cases hs
  · rw [sheet?_of_sheets_eq_nil hsheets] at hs
    cases hs

theorem Reachable.isCurrent {b : Book} (h : Reachable b) : b.IsCurrent := by
  induction h with
  | opened hopened => exact isCurrent_of_ofBytes hopened
  | after _ r ih => exact Request.keeps invariant_isCurrent r (fun _ => keeps_isCurrent_save) _ ih

end Spreadsheet.Book
