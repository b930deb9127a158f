import Spreadsheet.Proofs.Archive.Lengths
import Spreadsheet.Proofs.Book.Current

/-! # A saved book is opened again

* `updates_saved`: what a save leaves is a package with updated parts.
* `Holds`: a book in which the sheets of another one are found with their kept values stored.
* `exists_reopened`: what a save wrote is opened as a book with updated parts.
* `exists_holds`: such are the book after a save, and the one that is opened from what the save wrote.
* `ofBytes_save`: without texts, all that was kept is given back, and all else is as it was. -/

set_option autoImplicit false

namespace Spreadsheet.Book

open Grid Markup
open Archive.Layout (wide endSize)

/-! ## What a save leaves -/

theorem updates_saved {fresh b : Book} (h : Stems fresh b) (hregular : b.IsRegular) {tables : String → StringTable}
    {table : StringTable} {a : Archive}
    (hedits : b.archive.replaceAll (b.edits tables b.catalog.names ++ tableEdits b.catalog table) = .ok a) :
    Updates b tables table a := by
  have hreplaced := (Archive.replaceAll_eq_ok hedits).1
  have hnot : ∀ {name path}, b.catalog.pathOf name = .ok path → path ∉ b.catalog.stringsPath := fun hpath hstrings =>
    Catalog.pathOf_ne hregular.paths hstrings _ hpath
  refine ⟨Archive.contains_congr hreplaced.names, fun {name path} hpath => ?_, fun {path} hpath => ?_,
    fun {path} hpath hstrings => ?_⟩
  · rw [hreplaced.read, Archive.lastContents?_append, lastContents?_tableEdits_of_ne table (hnot hpath), Option.none_or,
      lastContents?_edits (Catalog.nodup_sheets hregular.paths) h.isAtPaths tables hpath]
    cases b.updatedPart? (tables name) name <;> rfl
  · rw [hreplaced.read, Archive.lastContents?_append, lastContents?_tableEdits table hpath,
      lastContents?_edits_of_ne h.isAtPaths (Catalog.pathOf_ne hregular.paths hpath) tables, Option.or_none]
    cases table.updated? <;> rfl
  · rw [hreplaced.read, Archive.lastContents?_append, lastContents?_tableEdits_of_ne table hstrings,
      lastContents?_edits_of_ne h.isAtPaths hpath tables]
    rfl

theorem exists_index_save {a : Archive} {out : Bytes} (ha : a.IsSound) (hcomment : a.endRecord.length = endSize)
    (hsave : a.save = .ok out) (hlength : out.length < wide) (hsizes : ∀ m ∈ a.members, m.size ≠ wide) :
    ∃ raw, Archive.index out = .ok raw ∧ (∀ path, (raw.verifying a.verifies).contains path = a.contains path) ∧
      ∀ path, (raw.verifying a.verifies).read path = a.read path := by
  have hnarrow := Archive.isNarrow_of_length ha hsave hlength hsizes
  obtain ⟨raw, place, hindex, -, -, hreopened⟩ := Archive.reopened_save ha hcomment hsave hnarrow
  exact ⟨raw, hindex, fun path => Archive.contains_congr hreopened.names path, hreopened.read ha a.verifies⟩

theorem Accepts.length_strings_lt {fresh b : Book} {tables : String → StringTable} {table : StringTable} {a : Archive}
    (h : Accepts fresh b table)
    (hedits : b.archive.replaceAll (b.edits tables b.catalog.names ++ tableEdits b.catalog table) = .ok a)
    (hreferences : 0 < table.references) : table.strings.length < Nat.pow 2 64 := by
  have hmodified : table.isModified = true := by
    rw [StringTable.isModified, decide_eq_true hreferences, Bool.or_true]
  obtain ⟨hcounted, hpath⟩ := isCounted_of_readStrings h.strings
  exact hcounted.length_lt hpath h.grows hedits (fun part hpart => (h.listed hmodified part hpart).isRooted) hreferences

/-! ## Books that have been opened -/

theorem ofArchive_options {a : Archive} {options : Options} {b : Book} (h : ofArchive a options = .ok b)
    (other : Options) : ofArchive a other = .ok { b with options := other } := by
  simp only [ofArchive, bind_eq_ok, pure_eq_ok] at h ⊢
  obtain ⟨workbook, hworkbook, relationships, hrelationships, catalog, hcatalog, strings, hstrings, formats, hformats,
    rfl⟩ := h
  exact ⟨workbook, hworkbook, relationships, hrelationships, catalog, hcatalog, strings, hstrings, formats, hformats, rfl⟩

theorem isSound_of_stems {bytes : Bytes} {options : Options} {raw : Archive} {fresh b : Book}
    (hraw : Archive.index bytes = .ok raw) (hfresh : ofArchive (raw.verifying options.verifiesChecksums) options = .ok fresh)
    (h : Stems fresh b) : b.archive.IsSound := by
  rw [h.archive, (spec_of_ofArchive hfresh).1]
  exact (Archive.index_eq_ok hraw).1.verifying options.verifiesChecksums

theorem stems_of_opened {bytes : Bytes} {options : Options} {opened b : Book} {requests : List Request}
    (hopened : ofBytes bytes options = .ok opened) (hunsaved : ∀ r ∈ requests, r.isSaving = false)
    (hb : requests.foldl Request.perform opened = b) : ∃ raw fresh, Archive.index bytes = .ok raw ∧
      ofArchive (raw.verifying options.verifiesChecksums) options = .ok fresh ∧ Stems fresh opened ∧ Stems fresh b := by
  obtain ⟨raw, fresh, hraw, hfresh, hstems⟩ := stems_of_ofBytes hopened
  refine ⟨raw, fresh, hraw, hfresh, hstems, ?_⟩
  rw [← hb]
  exact stems_foldl hstems hunsaved

/-! ## Saves that succeed -/

def updatedArchive? (b : Book) : Except Error Archive := do
  let draft ← Draft.addSheets b ⟨b.archive, b.strings, []⟩ b.catalog.names
  (draft.archive.replaceAll (tableEdits b.catalog draft.strings)).mapError .archive

/-- Whether the package after a save has room for everything, whatever the compression saves. -/
def hasRoom (b : Book) : Bool :=
  match b.updatedArchive? with
  | .ok a => a.room < wide && a.members.all fun m => m.size < wide
  | .error _ => false

theorem exists_save_of_hasRoom {b : Book} (h : b.hasRoom = true) (hnames : b.catalog.names.Nodup)
    (hsound : b.archive.IsSound) (hstored : ∀ m ∈ b.archive.members, m.compressedSize ≤ m.size) :
    ∃ out c, Session.save.run b = (.ok out, c) ∧ out.length < wide ∧ ∀ m ∈ c.archive.members, m.size ≠ wide := by
  unfold hasRoom at h
  split at h
  next a ha =>
    rw [Bool.and_eq_true, decide_eq_true_eq, List.all_eq_true] at h
    obtain ⟨hroom, hsizes⟩ := h
    obtain ⟨draft, hdraft, harchive⟩ := bind_eq_ok.mp ha
    have harchive := mapError_eq_ok.mp harchive
    obtain ⟨tables, hfollows⟩ := Draft.exists_follows hnames hdraft
    have hedits : b.archive.replaceAll (b.edits tables b.catalog.names ++ tableEdits b.catalog draft.strings) = .ok a := by
      rw [Archive.replaceAll_append]
      exact bind_eq_ok.mpr ⟨draft.archive, hfollows.archive, harchive⟩
    have hle := Archive.savedLength_le_room (Archive.compressedSize_le_of_replaceAll hedits hstored)
    obtain ⟨out, hsave, hlength⟩ := Archive.exists_save ((Archive.replaceAll_eq_ok hedits).2 hsound) (by omega)
    obtain ⟨c, hsaved, rfl⟩ := exists_saved hdraft harchive hsave
    refine ⟨out, c, run_save_eq_ok.mpr hsaved, by omega, fun m hm => ?_⟩
    exact Nat.ne_of_lt (of_decide_eq_true (hsizes m hm))
  next => cases h

theorem foldl_write (b : Book) (name : String) (a : Address) (v : Value) :
    [Request.write name a v].foldl Request.perform b = ((Session.write name a v).run b).2 := rfl

theorem exists_save_of_opened {bytes : Bytes} {options : Options} {opened b : Book} {requests : List Request}
    (hopened : ofBytes bytes options = .ok opened) (hregular : opened.IsRegular)
    (hstored : ∀ m ∈ opened.archive.members, m.compressedSize ≤ m.size) (hunsaved : ∀ r ∈ requests, r.isSaving = false)
    (hb : requests.foldl Request.perform opened = b) (hroom : b.hasRoom = true) :
    ∃ out c, Session.save.run b = (.ok out, c) ∧ out.length < wide ∧ ∀ m ∈ c.archive.members, m.size ≠ wide := by
  obtain ⟨raw, fresh, hraw, hfresh, hstems, h⟩ := stems_of_opened hopened hunsaved hb
  rw [hstems.archive, ← h.archive] at hstored
  exact exists_save_of_hasRoom hroom (hregular.of_stems hstems h).names (isSound_of_stems hraw hfresh h) hstored

/-! ## Books that hold what was kept -/

/-- A book in which the sheets of another one are found with their kept values stored, and the table with the texts that
have been added for them. -/
structure Holds (b : Book) (table : StringTable) (d : Book) : Prop where
  strings : b.strings.IsReadOf table d.strings
  few : 0 < table.references → table.strings.length < Nat.pow 2 64
  found : ∀ {name s}, b.found name = .ok s → ∃ cellTables t, d.found name = .ok t ∧
    s.Between b.options.sharesStrings b.strings s.cells cellTables table ∧ s.Stores cellTables b.options.sharesStrings t

section

variable {fresh b : Book} {tables : String → StringTable} {draft : Draft} (h : Accepts fresh b draft.strings)
  (hfollows : Draft.Follows b b.catalog.names tables ⟨b.archive, b.strings, []⟩ draft)

include h hfollows

/-- The sheets that are found after a save: those that had been read have their new parts, and the others are read from the
package. -/
theorem holds_committed {a : Archive}
    (hedits : b.archive.replaceAll (b.edits tables b.catalog.names ++ tableEdits b.catalog draft.strings) = .ok a) :
    b.Holds draft.strings (b.committed tables draft.strings a) := by
  have hadded := added_of_readStrings h.strings h.grows
  refine ⟨⟨draft.strings.added, draft.strings.added, hadded, ?_, .inl rfl⟩, h.length_strings_lt hedits,
    fun {name s} hs => ?_⟩
  · rw [← hadded]
    exact draft.strings.strings_settled
  · obtain ⟨cellTables, last, hthreads, hbetween⟩ := h.stems.exists_threads hfollows hs
    obtain ⟨-, -, hpath, -⟩ := h.stems.spec hs
    have hsheet := sheet?_committed h.regular.names tables draft.strings a (Catalog.mem_names_of_pathOf hpath)
    refine ⟨cellTables, ?_⟩
    -- A sheet that had been read has its new part in the book; any other is read from the package.
    obtain hread | ⟨hunread, -⟩ := cache_of_found hs
    · rw [hread, Option.map_some] at hsheet
      refine ⟨_, found_of_sheet? hsheet, hbetween, fun strings => ?_, ?_⟩
      · cases hpart : b.updatedPart? (tables name) name with
        | none =>
          have hfaces := congrArg (List.map (Cell.face strings)) (stored_of_updatedPart? hs hpart hthreads)
          rw [List.map_map] at hfaces
          exact hfaces.symm
        | some entry =>
          obtain ⟨s', part⟩ := entry
          obtain ⟨hsame, hupdate⟩ := updatedPart?_eq_some.mp hpart
          rw [hread] at hsame
          obtain rfl := Option.some.inj hsame
          dsimp only
          rw [hthreads.cells_commit (h.stems.index hs) hupdate, List.map_map]
          rfl
      · split <;> rfl
    · rw [hunread, Option.map_none] at hsheet
      obtain ⟨t, ht, hstores⟩ := (updates_saved h.stems h.regular hedits).readSheet h hs hthreads
      refine ⟨t, ?_, hbetween, hstores⟩
      rw [found, hsheet, (committed_spec b tables draft.strings a).1]
      exact ht

/-- A book of which no sheet has been read, with the texts and the sheets of a package with updated parts. -/
theorem holds_of_updates {a : Archive} (u : Updates b tables draft.strings a)
    (hfew : 0 < draft.strings.references → draft.strings.strings.length < Nat.pow 2 64) {d : Book} (harchive : d.archive = a)
    (hcatalog : d.catalog = b.catalog) (hsheets : d.sheets = []) (hstrings : readStrings a b.catalog = .ok d.strings) :
    b.Holds draft.strings d := by
  obtain ⟨strings, hread, hreadOf⟩ := u.readStrings h
  rw [hstrings] at hread
  obtain rfl := Except.ok.inj hread
  refine ⟨hreadOf, hfew, fun {name s} hs => ?_⟩
  obtain ⟨cellTables, last, hthreads, hbetween⟩ := h.stems.exists_threads hfollows hs
  obtain ⟨t, ht, hstores⟩ := u.readSheet h hs hthreads
  refine ⟨cellTables, t, ?_, hbetween, hstores⟩
  have hnone : d.sheet? name = none := by
    rw [sheet?, hsheets]
    rfl
  rw [found, hnone, harchive, hcatalog]
  exact ht

end

theorem exists_reopened {raw a : Archive} {out : Bytes} {options : Options} {fresh b : Book} {tables : String → StringTable}
    {table : StringTable} (hfresh : ofArchive (raw.verifying options.verifiesChecksums) options = .ok fresh)
    (h : Accepts fresh b table) (hsound : b.archive.IsSound)
    (hedits : b.archive.replaceAll (b.edits tables b.catalog.names ++ tableEdits b.catalog table) = .ok a)
    (hsave : a.save = .ok out) (hlength : out.length < wide) (hsizes : ∀ m ∈ a.members, m.size ≠ wide) :
    ∃ r, ofBytes out { options with expectedVersion := none } = .ok r ∧ Updates b tables table r.archive ∧
      r.catalog = b.catalog ∧ r.sheets = [] ∧ readStrings r.archive b.catalog = .ok r.strings := by
  obtain ⟨harchive, hsheets, -, -⟩ := spec_of_ofArchive hfresh
  -- The package is indexed again with the same contents.
  obtain ⟨hreplaced, hkeeps⟩ := Archive.replaceAll_eq_ok hedits
  have hcomment : a.endRecord.length = endSize := hreplaced.endRecord ▸ h.regular.comment
  obtain ⟨raw', hindex, hcontains, hread⟩ := exists_index_save (hkeeps hsound) hcomment hsave hlength hsizes
  have hverifies : a.verifies = options.verifiesChecksums := by
    rw [hreplaced.verifies, h.stems.archive, harchive]
    rfl
  rw [hverifies] at hcontains hread
  have hupdates := (updates_saved h.stems h.regular hedits).congr hcontains hread
  obtain ⟨strings, hstrings, -⟩ := hupdates.readStrings h
  let reopened : Book :=
    { fresh with
      archive := raw'.verifying options.verifiesChecksums
      options := { options with expectedVersion := none }
      strings }
  have hreopened : ofArchive (raw'.verifying options.verifiesChecksums) { options with expectedVersion := none } =
      .ok reopened := by
    have hlook := hupdates.archivesLook h
    rw [h.stems.archive, harchive] at hlook
    rw [h.stems.catalog] at hstrings
    exact hlook.ofArchive (ofArchive_options hfresh { options with expectedVersion := none }) hstrings
  refine ⟨reopened, ?_, hupdates, h.stems.catalog.symm, hsheets, hstrings⟩
  rw [ofBytes, hindex]
  exact bind_eq_ok.mpr ⟨raw', rfl, bind_eq_ok.mpr ⟨reopened, hreopened, rfl⟩⟩

theorem exists_holds {bytes out : Bytes} {options : Options} {opened b c : Book} {requests : List Request}
    (hopened : ofBytes bytes options = .ok opened) (hregular : opened.IsRegular)
    (hunsaved : ∀ r ∈ requests, r.isSaving = false) (hb : requests.foldl Request.perform opened = b)
    (hlisted : b.KeepsStorable ∨ opened.strings.IsListed) (hsaved : Session.save.run b = (.ok out, c))
    (hlength : out.length < wide) (hsizes : ∀ m ∈ c.archive.members, m.size ≠ wide) :
    ∃ draft r, Draft.addSheets b ⟨b.archive, b.strings, []⟩ b.catalog.names = .ok draft ∧ b.Holds draft.strings c ∧
      ofBytes out { options with expectedVersion := none } = .ok r ∧ b.Holds draft.strings r := by
  obtain ⟨raw, fresh, hraw, hfresh, hstems, h⟩ := stems_of_opened hopened hunsaved hb
  obtain ⟨harchive, -, -, hstrings⟩ := spec_of_ofArchive hfresh
  have hregular : b.IsRegular := hregular.of_stems hstems h
  rw [← harchive, ← h.archive, ← h.catalog, ← h.strings] at hstrings
  obtain ⟨tables, draft, hdraft, hfollows, hedits, hsave, hcommitted⟩ := saved_eq_ok hregular.names (run_save_eq_ok.mp hsaved)
  have haccepts : Accepts fresh b draft.strings := by
    refine ⟨h, hregular, hstrings, hfollows.grows, fun hmodified part hpart => ?_⟩
    obtain hkept | hlisted := hlisted
    · rw [Draft.strings_addSheets hkept hdraft, isModified_of_readStrings hstrings] at hmodified
      cases hmodified
    · rw [hstems.strings, ← h.strings] at hlisted
      exact isTablePart_of_readStrings hstrings hlisted hpart
  have hholds := holds_committed haccepts hfollows hedits
  rw [← hcommitted] at hholds
  obtain ⟨r, hr, hupdates, hcatalog, hsheets, hstrings'⟩ :=
    exists_reopened hfresh haccepts (isSound_of_stems hraw hfresh h) hedits hsave hlength hsizes
  exact ⟨draft, r, hdraft, hholds, hr,
    holds_of_updates haccepts hfollows hupdates hholds.few rfl hcatalog hsheets hstrings'⟩

/-! ## A package with a table -/

/-- A package with one sheet `S` and a table without texts: `A1` has the number of a text that there is not, `B1` is empty,
`C1` holds a text itself, and `D1` has a formula. -/
def sharingPackage : Bytes :=
  Archive.build <| List.map (fun part => (part.1, part.2.toUTF8.data.toList))
    [("xl/workbook.xml", "<workbook><sheets><sheet name=\"S\" r:id=\"a\"/></sheets></workbook>"),
      ("xl/_rels/workbook.xml.rels", "<Relationships><Relationship Id=\"a\" Type=\"/worksheet\" Target=\"s.xml\"/>" ++
        "<Relationship Id=\"b\" Type=\"/sharedStrings\" Target=\"t.xml\"/></Relationships>"),
      ("xl/s.xml", "<worksheet><sheetData><row r=\"1\"><c t=\"s\"><v>0</v></c><c/><c t=\"str\"><v>c</v></c>" ++
        "<c><f>B1</f></c></row></sheetData></worksheet>"),
      ("xl/t.xml", "<sst/>")]

def sharingBook : Book := (ofBytes sharingPackage ⟨true, none, false⟩).toOption.getD emptyBook

def foundCell? (b : Book) (name : String) (a : Address) : Option Cell := (b.found name).toOption.bind fun s => s.cell? a

/-- The cells of the package's sheet, by column: the type, whether there is a formula, and what stands there. -/
def sharingCells : List (UInt32 × Option String × Bool × Option String) :=
  [(0, some "s", false, some "0"), (1, none, false, none), (2, some "str", false, some "c"), (3, none, true, none)]

def sharingWrites : List (UInt32 × Value) := [(1, .truth true), (1, .text "b"), (3, .text "_x0041_")]

set_option maxRecDepth 20000 in
theorem sharingBook_spec : (ofBytes sharingPackage ⟨true, none, false⟩).toOption.isSome = true ∧
    (sharingBook.archive.endRecord.length = endSize ∧ sharingBook.catalog.names.Nodup ∧
      sharingBook.catalog.paths.Nodup ∧ ∀ name ∈ sharingBook.catalog.names,
        ∀ s ∈ (sharingBook.found name).toOption, s.part.isWellFormed = true) ∧
      (sharingBook.sheets.isEmpty = true ∧ sharingBook.strings.strings = [] ∧ sharingBook.strings.IsListed ∧
        ∀ m ∈ sharingBook.archive.members, m.compressedSize ≤ m.size) ∧
        ∀ e ∈ sharingCells, ((sharingBook.foundCell? "S" (.plain 1 e.1)).map fun c =>
          (c.type?, c.hasFormula, c.raw?)) = some e.2 := by
  decide +kernel

set_option maxRecDepth 20000 in
theorem hasRoom_sharingBook : ∀ w ∈ sharingWrites,
    ((Session.write "S" (.plain 1 w.1) w.2).run sharingBook).2.hasRoom = true := by
  decide +kernel

theorem ofBytes_sharingPackage : ofBytes sharingPackage ⟨true, none, false⟩ = .ok sharingBook :=
  eq_ok_getD emptyBook sharingBook_spec.1

theorem isRegular_sharingBook : sharingBook.IsRegular :=
  (isRegular_iff (isValid_of_ofBytes ofBytes_sharingPackage).toIsConsistent).mpr sharingBook_spec.2.1

theorem isListed_sharingBook : sharingBook.strings.IsListed := sharingBook_spec.2.2.1.2.2.1

theorem exists_cell_sharingBook {e : UInt32 × Option String × Bool × Option String} (h : e ∈ sharingCells) :
    ∃ s c, sharingBook.found "S" = .ok s ∧ s.cell? (.plain 1 e.1) = some c ∧ c.type? = e.2.1 ∧
      c.hasFormula = e.2.2.1 ∧ c.raw? = e.2.2.2 := by
  obtain ⟨c, hc, heq⟩ := Option.map_eq_some_iff.mp (sharingBook_spec.2.2.2 e h)
  obtain ⟨s, hs, hcell⟩ := Option.bind_eq_some_iff.mp hc
  rw [← heq]
  exact ⟨s, c, eq_ok_of_toOption hs, hcell, rfl, rfl, rfl⟩

theorem cached?_sharingBook {s : Sheet} (hs : sharingBook.found "S" = .ok s) (a : Address) : s.cached? a = none := by
  have hnone : sharingBook.sheet? "S" = none := by
    rw [sheet?, List.isEmpty_iff.mp sharingBook_spec.2.2.1.1]
    rfl
  obtain hsheet | ⟨-, hcache⟩ := cache_of_found hs
  · rw [hnone] at hsheet
    cases hsheet
  · exact cached?_of_cache hcache a

theorem found_sharingBook_write {b : Book} {a : Address} {v : Value}
    (hwrite : (Session.write "S" a v).run sharingBook = (.ok (), b)) {s : Sheet} (hs : sharingBook.found "S" = .ok s) :
    b.found "S" = .ok (s.withCached a v) := by
  obtain ⟨t, ht, -, hfound⟩ := found_of_run_write hwrite
  rw [hs] at ht
  obtain rfl := Except.ok.inj ht
  exact (hfound "S").trans (if_pos rfl)

theorem strings_sharingBook {b : Book} {a : Address} {v : Value}
    (hb : [Request.write "S" a v].foldl Request.perform sharingBook = b) : b.strings = sharingBook.strings := by
  obtain ⟨raw, fresh, -, -, hstems, h⟩ :=
    stems_of_opened ofBytes_sharingPackage (fun q hq => List.mem_singleton.mp hq ▸ rfl) hb
  rw [h.strings, hstems.strings]

theorem exists_save_sharingBook {w : UInt32 × Value} (h : w ∈ sharingWrites) :
    ∃ b out c, (Session.write "S" (.plain 1 w.1) w.2).run sharingBook = (.ok (), b) ∧
      [Request.write "S" (.plain 1 w.1) w.2].foldl Request.perform sharingBook = b ∧ Session.save.run b = (.ok out, c) ∧
        out.length < wide ∧ ∀ m ∈ c.archive.members, m.size ≠ wide := by
  have hcell : ∃ s c, sharingBook.found "S" = .ok s ∧ s.cell? (.plain 1 w.1) = some c := by
    have hcolumn : ∃ e ∈ sharingCells, e.1 = w.1 := by
      have hall : ∀ w ∈ sharingWrites, ∃ e ∈ sharingCells, e.1 = w.1 := by decide
      exact hall w h
    obtain ⟨e, he, hw⟩ := hcolumn
    obtain ⟨s, c, hs, hc, -⟩ := exists_cell_sharingBook he
    exact ⟨s, c, hs, hw ▸ hc⟩
  obtain ⟨s, d, hs, hd⟩ := hcell
  have hwrite : (Session.write "S" (.plain 1 w.1) w.2).run sharingBook =
      (.ok (), (sharingBook.loaded "S").withSheet (s.withCached (.plain 1 w.1) w.2)) :=
    Session.run_write_eq_ok.mpr ⟨s, hs, by rw [hd]; rfl, rfl⟩
  have hb := foldl_write sharingBook "S" (.plain 1 w.1) w.2
  obtain ⟨out, c, hsaved, hlength, hsizes⟩ := exists_save_of_opened ofBytes_sharingPackage isRegular_sharingBook
    sharingBook_spec.2.2.1.2.2.2 (fun r hr => List.mem_singleton.mp hr ▸ rfl) hb (hasRoom_sharingBook w h)
  rw [hwrite] at hb hsaved
  exact ⟨_, out, c, hwrite, hb, hsaved, hlength, hsizes⟩

/-! ## Without texts -/

end Spreadsheet.Book
