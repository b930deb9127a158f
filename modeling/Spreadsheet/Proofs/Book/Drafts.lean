import Spreadsheet.Book.Save
import Spreadsheet.Proofs.Archive.Saving
import Spreadsheet.Proofs.Book.Loading
import Spreadsheet.Proofs.Book.Updating

/-! # What a save replaces

* `Book.edits`: the parts of sheets that a save gives new contents to; `tableEdits`: the part of the table.
* `Draft.Follows`: the draft after the sheets of some names, each of which finds a table of its own.
* `saved_eq_ok`: a save replaces these parts and no others.
* `sheet?_committed`: the sheets of the book afterwards.
* `lastContents?_edits`: a sheet with a part of its own gets the contents of its own update. -/

set_option autoImplicit false

namespace Spreadsheet.Book

/-- The new part of a sheet that has been read, if any of its cells change, given the table that it finds. -/
def updatedPart? (b : Book) (strings : StringTable) (name : String) : Option (Sheet × Markup.Node) :=
  (b.sheet? name).bind fun s => (s.update strings b.options.sharesStrings).1.map fun part => (s, part)

def stringsAfter (b : Book) (strings : StringTable) (name : String) : StringTable :=
  match b.sheet? name with
  | some s => (s.update strings b.options.sharesStrings).2
  | none => strings

/-- The sheets of which some cells change, by name, with their new parts. Each sheet finds a table of its own. -/
def changedParts (b : Book) (tables : String → StringTable) (names : List String) :
    List (String × Sheet × Markup.Node) :=
  names.filterMap fun name => (b.updatedPart? (tables name) name).map fun entry => (name, entry)

def edits (b : Book) (tables : String → StringTable) (names : List String) : List (String × Bytes) :=
  (b.changedParts tables names).map fun entry => (entry.2.1.path, entry.2.2.bytes)

def newParts (b : Book) (tables : String → StringTable) (names : List String) : List (String × Markup.Node) :=
  (b.changedParts tables names).map fun entry => (entry.1, entry.2.2)

/-- No kept value of a sheet that has been read is one that its cell could not give back. -/
def KeepsStorable (b : Book) : Prop := ∀ {name s}, b.sheet? name = some s → s.KeepsStorable

theorem updatedPart?_eq_some {b : Book} {strings : StringTable} {name : String} {s : Sheet} {part : Markup.Node} :
    b.updatedPart? strings name = some (s, part) ↔
      b.sheet? name = some s ∧ (s.update strings b.options.sharesStrings).1 = some part := by
  rw [updatedPart?, Option.bind_eq_some_iff]
  constructor
  · rintro ⟨t, ht, hmap⟩
    obtain ⟨part', hpart, heq⟩ := Option.map_eq_some_iff.mp hmap
    cases heq
    exact ⟨ht, hpart⟩
  · rintro ⟨hs, hpart⟩
    exact ⟨s, hs, Option.map_eq_some_iff.mpr ⟨part, hpart, rfl⟩⟩

theorem keeps_stringsAfter {P : StringTable → Prop} {b : Book}
    (hP : ∀ {name s}, b.sheet? name = some s → ∀ {a v}, s.cached? a = some v → ∀ hasFormula {t}, P t →
      P (Sheet.storedValue v hasFormula t b.options.sharesStrings).2)
    (name : String) {strings : StringTable} (h : P strings) : P (b.stringsAfter strings name) := by
  unfold stringsAfter
  cases hs : b.sheet? name with
  | none => exact h
  | some s => exact Sheet.keeps_update (hP hs) h

theorem grows_stringsAfter (b : Book) (strings : StringTable) (name : String) :
    strings.Grows (b.stringsAfter strings name) :=
  keeps_stringsAfter (fun _ _ _ _ hasFormula _ ht => ht.trans (Sheet.grows_storedValue _ hasFormula _ _)) name
    (.refl strings)

theorem changedParts_congr {b : Book} {tables tables' : String → StringTable} {names : List String}
    (h : ∀ name ∈ names, tables' name = tables name) : b.changedParts tables' names = b.changedParts tables names := by
  induction names with
  | nil => rfl
  | cons name rest ih =>
    have hrest := ih fun other hother => h other (List.mem_cons_of_mem _ hother)
    unfold changedParts at hrest ⊢
    rw [List.filterMap_cons, List.filterMap_cons, hrest, h name (List.mem_cons_self ..)]

/-! ## The draft -/

namespace Draft

/-- A sheet gets its new part, and the later ones find the table that it leaves. -/
theorem addSheet_eq_ok {b : Book} {d d' : Draft} {name : String} (h : d.addSheet b name = .ok d') :
    d'.strings = b.stringsAfter d.strings name ∧
      d.archive.replaceAll (b.edits (fun _ => d.strings) [name]) = .ok d'.archive ∧
        d'.parts = d.parts ++ b.newParts (fun _ => d.strings) [name] := by
  unfold addSheet at h
  rw [stringsAfter, edits, newParts, changedParts, List.filterMap_cons, updatedPart?]
  cases hs : b.sheet? name with
  | none =>
    rw [hs] at h
    cases h
    exact ⟨rfl, rfl, (List.append_nil _).symm⟩
  | some s =>
    rw [hs] at h
    dsimp only at h ⊢
    rw [Option.bind_some]
    cases hupdate : s.update d.strings b.options.sharesStrings with
    | mk part strings =>
      rw [hupdate] at h
      cases part with
      | none =>
        cases h
        exact ⟨rfl, rfl, (List.append_nil _).symm⟩
      | some part =>
        obtain ⟨archive, harchive, rfl⟩ := map_eq_ok.mp h
        exact ⟨rfl, bind_eq_ok.mpr ⟨archive, mapError_eq_ok.mp harchive, rfl⟩, rfl⟩

/-- The draft `d'` after the sheets of some names: they find `tables`, and what is stored for them is there in the end. -/
structure Follows (b : Book) (names : List String) (tables : String → StringTable) (d d' : Draft) : Prop where
  before : ∀ name ∈ names, d.strings.Grows (tables name)
  after : ∀ name ∈ names, (b.stringsAfter (tables name) name).Grows d'.strings
  grows : d.strings.Grows d'.strings
  archive : d.archive.replaceAll (b.edits tables names) = .ok d'.archive
  parts : d'.parts = d.parts ++ b.newParts tables names

theorem Follows.cons {b : Book} {name : String} {rest : List String} {tables tables' : String → StringTable}
    {d next d' : Draft} (hnext : d.addSheet b name = .ok next) (h : Follows b rest tables next d')
    (hhead : tables' name = d.strings) (htail : ∀ other ∈ rest, tables' other = tables other) :
    Follows b (name :: rest) tables' d d' := by
  obtain ⟨hstrings, harchive, hparts⟩ := addSheet_eq_ok hnext
  have hgrows : d.strings.Grows next.strings := by
    rw [hstrings]
    exact grows_stringsAfter b d.strings name
  have hchanged : b.changedParts tables' (name :: rest) =
      b.changedParts (fun _ => d.strings) [name] ++ b.changedParts tables rest := by
    have hfirst : b.changedParts tables' [name] = b.changedParts (fun _ => d.strings) [name] :=
      changedParts_congr fun other hother => by rw [List.mem_singleton.mp hother, hhead]
    rw [← changedParts_congr htail, ← hfirst]
    exact List.filterMap_append (l := [name])
  refine ⟨fun other hother => ?_, fun other hother => ?_, hgrows.trans h.grows, ?_, ?_⟩
  · obtain rfl | hother := List.mem_cons.mp hother
    · rw [hhead]
      exact .refl _
    · rw [htail other hother]
      exact hgrows.trans (h.before other hother)
  · obtain rfl | hother := List.mem_cons.mp hother
    · rw [hhead, ← hstrings]
      exact h.grows
    · rw [htail other hother]
      exact h.after other hother
  · rw [edits, hchanged, List.map_append, Archive.replaceAll_append]
    exact bind_eq_ok.mpr ⟨_, harchive, h.archive⟩
  · rw [h.parts, hparts, List.append_assoc, newParts, newParts, newParts, hchanged, List.map_append]

theorem exists_follows {b : Book} {names : List String} (hnames : names.Nodup) {d d' : Draft}
    (h : d.addSheets b names = .ok d') : ∃ tables, Follows b names tables d d' := by
  induction names generalizing d with
  | nil =>
    cases h
    exact ⟨fun _ => d'.strings, by simp, by simp, .refl _, rfl, (List.append_nil _).symm⟩
  | cons name rest ih =>
    rw [List.nodup_cons] at hnames
    obtain ⟨hnew, hnames⟩ := hnames
    rw [addSheets] at h
    obtain ⟨next, hnext, h⟩ := bind_eq_ok.mp h
    obtain ⟨tables, hrest⟩ := ih hnames h
    -- No later sheet has the name, so each finds the table that it found before.
    refine ⟨fun other => if other = name then d.strings else tables other, hrest.cons hnext (if_pos rfl) ?_⟩
    exact fun other hother => if_neg fun heq : other = name => hnew (heq ▸ hother)

/-- What is kept when one value is stored is kept when the sheets of some names are updated. -/
theorem keeps_addSheets {P : StringTable → Prop} {b : Book}
    (hP : ∀ {name s}, b.sheet? name = some s → ∀ {a v}, s.cached? a = some v → ∀ hasFormula {t}, P t →
      P (Sheet.storedValue v hasFormula t b.options.sharesStrings).2)
    {names : List String} {d d' : Draft} (h : d.addSheets b names = .ok d') (hd : P d.strings) : P d'.strings := by
  induction names generalizing d with
  | nil =>
    cases h
    exact hd
  | cons name rest ih =>
    rw [addSheets] at h
    obtain ⟨next, hnext, h⟩ := bind_eq_ok.mp h
    refine ih h ?_
    rw [(addSheet_eq_ok hnext).1]
    exact keeps_stringsAfter hP name hd

theorem strings_addSheets {b : Book} (hb : b.KeepsStorable) {names : List String} {d d' : Draft}
    (h : d.addSheets b names = .ok d') : d'.strings = d.strings :=
  keeps_addSheets (P := fun t => t = d.strings) (fun hs _ _ hv hasFormula t ht => by
    rw [Sheet.storedValue_strings (hb hs _ _ hv) hasFormula t, ht]) h rfl

end Draft

/-! ## The save -/

/-- The part of the table, with its new contents, if anything has been added to it. -/
def tableEdits (c : Catalog) (table : StringTable) : List (String × Bytes) :=
  match table.updated?, c.stringsPath with
  | some part, some path => [(path, part.bytes)]
  | _, _ => []

theorem storeStrings_eq_ok {a a' : Archive} {c : Catalog} {table : StringTable} :
    storeStrings a c table.updated? = .ok a' ↔ a.replaceAll (tableEdits c table) = .ok a' := by
  have hnone : (.ok a : Except Error Archive) = .ok a' ↔ a.replaceAll [] = .ok a' := by
    rw [Archive.replaceAll, Except.ok.injEq, Except.ok.injEq]
  unfold storeStrings tableEdits
  cases table.updated? with
  | none => exact hnone
  | some part =>
    cases c.stringsPath with
    | none => exact hnone
    | some path =>
      change replacePart a path part = .ok a' ↔ (a.replace path part.bytes >>= fun archive => .ok archive) = .ok a'
      rw [replacePart, mapError_eq_ok]
      cases a.replace path part.bytes <;> exact Iff.rfl

/-- A table with its own updated part, if anything has been added to it. -/
def StringTable.settled (table : StringTable) : StringTable :=
  match table.updated? with
  | some part => table.commit part
  | none => table

theorem StringTable.strings_settled (table : StringTable) : table.settled.strings = table.strings := by
  unfold settled
  split <;> rfl

theorem StringTable.part_settled (table : StringTable) : table.settled.part.isSome = table.part.isSome := by
  unfold settled
  split
  next part hpart =>
    obtain ⟨-, old, hold, -⟩ := updated?_eq_some.mp hpart
    rw [hold]
    rfl
  next => rfl

theorem StringTable.updated?_settled (table : StringTable) : table.settled.updated? = none := by
  unfold settled
  split
  next part hpart =>
    have hunmodified : (table.commit part).isModified = false := by simp [commit, isModified]
    rw [updated?, hunmodified, if_neg Bool.false_ne_true]
  next hnone => exact hnone

/-- The book after a save: the sheets that change have their new parts. -/
def committed (b : Book) (tables : String → StringTable) (table : StringTable) (archive : Archive) : Book :=
  { (b.newParts tables b.catalog.names).foldl commitSheet b with archive, strings := table.settled }

/-- What a save makes before the book changes: a draft with the new parts, the archive that has the shared texts as well,
and the bytes of the archive. -/
theorem exists_draft_of_saved {b c : Book} {out : Bytes} (h : saved b = .ok (out, c)) :
    ∃ draft archive, Draft.addSheets b ⟨b.archive, b.strings, []⟩ b.catalog.names = .ok draft ∧
      draft.archive.replaceAll (tableEdits b.catalog draft.strings) = .ok archive ∧ archive.save = .ok out ∧
        c = { draft.parts.foldl commitSheet b with archive, strings := draft.strings.settled } := by
  simp only [saved, bind_eq_ok, pure_eq_ok] at h
  obtain ⟨draft, hdraft, archive, harchive, bytes, hbytes, heq⟩ := h
  obtain ⟨rfl, rfl⟩ := Prod.mk.inj heq
  exact ⟨draft, archive, hdraft, storeStrings_eq_ok.mp harchive, mapError_eq_ok.mp hbytes, rfl⟩

theorem saved_eq_ok {b c : Book} (hnames : b.catalog.names.Nodup) {out : Bytes} (h : saved b = .ok (out, c)) :
    ∃ tables draft, Draft.addSheets b ⟨b.archive, b.strings, []⟩ b.catalog.names = .ok draft ∧
      Draft.Follows b b.catalog.names tables ⟨b.archive, b.strings, []⟩ draft ∧
        b.archive.replaceAll (b.edits tables b.catalog.names ++ tableEdits b.catalog draft.strings) = .ok c.archive ∧
          c.archive.save = .ok out ∧ c = b.committed tables draft.strings c.archive := by
  obtain ⟨draft, archive, hdraft, harchive, hsave, rfl⟩ := exists_draft_of_saved h
  obtain ⟨tables, hfollows⟩ := Draft.exists_follows hnames hdraft
  have hparts : draft.parts = b.newParts tables b.catalog.names := hfollows.parts
  refine ⟨tables, draft, hdraft, hfollows, ?_, hsave, ?_⟩
  · rw [Archive.replaceAll_append, hfollows.archive]
    exact harchive
  · rw [committed, ← hparts]

theorem exists_saved {b : Book} {draft : Draft} {archive : Archive} {out : Bytes}
    (hdraft : Draft.addSheets b ⟨b.archive, b.strings, []⟩ b.catalog.names = .ok draft)
    (harchive : draft.archive.replaceAll (tableEdits b.catalog draft.strings) = .ok archive)
    (hsave : archive.save = .ok out) : ∃ c, saved b = .ok (out, c) ∧ c.archive = archive := by
  refine ⟨{ draft.parts.foldl commitSheet b with archive, strings := draft.strings.settled }, ?_, rfl⟩
  have hstored := storeStrings_eq_ok.mpr harchive
  rw [saved, hdraft, ok_bind]
  dsimp only
  rw [hstored, ok_bind, hsave]
  rfl

/-! ## The book afterwards -/

theorem sheet?_commitSheet (b : Book) (entry : String × Markup.Node) (name : String) :
    (commitSheet b entry).sheet? name =
      (b.sheet? name).map fun s => if name = entry.1 then s.commit entry.2 else s := by
  unfold commitSheet
  cases hs : b.sheet? entry.1 with
  | none =>
    dsimp only
    by_cases hname : name = entry.1
    · rw [hname, hs]
      rfl
    · simp only [if_neg hname, Option.map_id']
  | some s =>
    have hat : (s.commit entry.2).name = entry.1 := (name_of_sheet? hs : s.name = entry.1)
    dsimp only
    rw [sheet?_withSheet (t := s) (by rw [hat]; exact hs), hat]
    by_cases hname : name = entry.1
    · rw [if_pos hname, hname, hs, Option.map_some, if_pos rfl]
    · simp only [if_neg hname, Option.map_id']

theorem sheet?_foldl_commitSheet (b : Book) (tables : String → StringTable) {names : List String} (hnames : names.Nodup)
    (d : Book) (name : String) : ((b.newParts tables names).foldl commitSheet d).sheet? name =
      (d.sheet? name).map fun s => match if name ∈ names then b.updatedPart? (tables name) name else none with
        | some (_, part) => s.commit part
        | none => s := by
  induction names generalizing d with
  | nil =>
    simp only [List.not_mem_nil, if_false, Option.map_id']
    rfl
  | cons first rest ih =>
    rw [List.nodup_cons] at hnames
    obtain ⟨hnew, hnames⟩ := hnames
    have hfold : ((b.newParts tables (first :: rest)).foldl commitSheet d) = (b.newParts tables rest).foldl commitSheet
        (((b.updatedPart? (tables first) first).map fun entry => commitSheet d (first, entry.2)).getD d) := by
      rw [newParts, changedParts, List.filterMap_cons]
      cases b.updatedPart? (tables first) first <;> rfl
    rw [hfold, ih hnames]
    by_cases hname : name = first
    · subst hname
      rw [if_neg hnew, if_pos (List.mem_cons_self ..)]
      cases b.updatedPart? (tables name) name with
      | none => rfl
      | some entry =>
        rw [Option.map_some, Option.getD_some, sheet?_commitSheet, Option.map_map]
        congr 1
        funext s
        exact if_pos rfl
    · have hsame : (((b.updatedPart? (tables first) first).map fun entry => commitSheet d (first, entry.2)).getD d).sheet?
          name = d.sheet? name := by
        cases b.updatedPart? (tables first) first with
        | none => rfl
        | some entry =>
          rw [Option.map_some, Option.getD_some, sheet?_commitSheet]
          simp only [if_neg hname, Option.map_id']
      have hmem : name ∈ first :: rest ↔ name ∈ rest := by
        rw [List.mem_cons, or_iff_right hname]
      rw [hsame]
      simp only [hmem]

theorem foldl_commitSheet_spec (parts : List (String × Markup.Node)) (b : Book) :
    (parts.foldl commitSheet b).catalog = b.catalog ∧ (parts.foldl commitSheet b).options = b.options ∧
      (parts.foldl commitSheet b).strings = b.strings := by
  induction parts generalizing b with
  | nil => exact ⟨rfl, rfl, rfl⟩
  | cons entry parts ih =>
    have hfirst : (commitSheet b entry).catalog = b.catalog ∧ (commitSheet b entry).options = b.options ∧
        (commitSheet b entry).strings = b.strings := by
      unfold commitSheet
      split <;> exact ⟨rfl, rfl, rfl⟩
    rw [List.foldl_cons, ← hfirst.1, ← hfirst.2.1, ← hfirst.2.2]
    exact ih _

theorem committed_spec (b : Book) (tables : String → StringTable) (table : StringTable) (archive : Archive) :
    (b.committed tables table archive).catalog = b.catalog ∧ (b.committed tables table archive).options = b.options :=
  ⟨(foldl_commitSheet_spec (b.newParts tables b.catalog.names) b).1,
    (foldl_commitSheet_spec (b.newParts tables b.catalog.names) b).2.1⟩

theorem sheet?_committed {b : Book} (hnames : b.catalog.names.Nodup) (tables : String → StringTable) (table : StringTable)
    (archive : Archive) {name : String} (hname : name ∈ b.catalog.names) :
    (b.committed tables table archive).sheet? name =
      (b.sheet? name).map fun s => match b.updatedPart? (tables name) name with
        | some (_, part) => s.commit part
        | none => s := by
  have hfold := sheet?_foldl_commitSheet b tables hnames b name
  rw [if_pos hname] at hfold
  exact hfold

/-! ## New contents -/

theorem mem_edits {b : Book} {tables : String → StringTable} {names : List String} {path : String} {contents : Bytes} :
    (path, contents) ∈ b.edits tables names ↔
      ∃ name ∈ names, ∃ s part, b.updatedPart? (tables name) name = some (s, part) ∧ s.path = path ∧
        part.bytes = contents := by
  rw [edits, changedParts, List.map_filterMap, List.mem_filterMap]
  refine exists_congr fun name => and_congr_right fun _ => ?_
  rw [Option.map_map, Option.map_eq_some_iff]
  constructor
  · rintro ⟨⟨s, part⟩, hpart, heq⟩
    cases heq
    exact ⟨s, part, hpart, rfl, rfl⟩
  · rintro ⟨s, part, hpart, rfl, rfl⟩
    exact ⟨(s, part), hpart, rfl⟩

/-- The sheets that have been read stand at the parts that the catalog says. -/
def IsAtPaths (b : Book) : Prop := ∀ {name s}, b.sheet? name = some s → b.catalog.pathOf name = .ok s.path

theorem lastContents?_edits {b : Book} (hpaths : (b.catalog.sheets.filterMap (·.path)).Nodup) (hb : b.IsAtPaths)
    (tables : String → StringTable) {name path : String} (hpath : b.catalog.pathOf name = .ok path) :
    Archive.lastContents? (b.edits tables b.catalog.names) path =
      (b.updatedPart? (tables name) name).map fun entry => entry.2.bytes := by
  have honly : ∀ contents, (path, contents) ∈ b.edits tables b.catalog.names →
      ∃ s part, b.updatedPart? (tables name) name = some (s, part) ∧ part.bytes = contents := by
    intro contents hmem
    obtain ⟨other, -, s, part, hpart, rfl, hcontents⟩ := mem_edits.mp hmem
    obtain rfl := Catalog.pathOf_inj hpaths hpath (hb (updatedPart?_eq_some.mp hpart).1)
    exact ⟨s, part, hpart, hcontents⟩
  cases hpart : b.updatedPart? (tables name) name with
  | none =>
    cases hlast : Archive.lastContents? (b.edits tables b.catalog.names) path with
    | none => rfl
    | some contents =>
      obtain ⟨s, part, hsome, -⟩ := honly contents (Archive.mem_of_lastContents? hlast)
      rw [hpart] at hsome
      cases hsome
  | some entry =>
    obtain ⟨s, part⟩ := entry
    have hat := hb (updatedPart?_eq_some.mp hpart).1
    rw [hpath] at hat
    obtain rfl := Except.ok.inj hat
    have hmem : (s.path, part.bytes) ∈ b.edits tables b.catalog.names :=
      mem_edits.mpr ⟨name, Catalog.mem_names_of_pathOf hpath, s, part, hpart, rfl, rfl⟩
    obtain ⟨contents, hlast⟩ := Option.isSome_iff_exists.mp (Archive.isSome_lastContents? hmem)
    obtain ⟨s', part', hsome, rfl⟩ := honly contents (Archive.mem_of_lastContents? hlast)
    rw [hpart] at hsome
    cases hsome
    exact hlast

theorem lastContents?_edits_of_ne {b : Book} (hb : b.IsAtPaths) {path : String}
    (hpath : ∀ name, b.catalog.pathOf name ≠ .ok path) (tables : String → StringTable) (names : List String) :
    Archive.lastContents? (b.edits tables names) path = none := by
  cases hlast : Archive.lastContents? (b.edits tables names) path with
  | none => rfl
  | some contents =>
    obtain ⟨name, -, s, part, hpart, rfl, -⟩ := mem_edits.mp (Archive.mem_of_lastContents? hlast)
    exact absurd (hb (updatedPart?_eq_some.mp hpart).1) (hpath name)

theorem lastContents?_tableEdits {c : Catalog} (table : StringTable) {path : String} (hpath : path ∈ c.stringsPath) :
    Archive.lastContents? (tableEdits c table) path = table.updated?.map Markup.Node.bytes := by
  have hpath : c.stringsPath = some path := hpath
  rw [tableEdits, hpath]
  cases table.updated? with
  | none => rfl
  | some part => simp [Archive.lastContents?]

theorem lastContents?_tableEdits_of_ne {c : Catalog} (table : StringTable) {path : String} (hpath : path ∉ c.stringsPath) :
    Archive.lastContents? (tableEdits c table) path = none := by
  unfold tableEdits
  split
  next part other _ hother =>
    have hne : other ≠ path := fun heq => hpath (heq ▸ hother)
    simp [Archive.lastContents?, hne]
  next => rfl

end Spreadsheet.Book
