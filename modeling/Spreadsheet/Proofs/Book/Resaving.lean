import Spreadsheet.Proofs.Archive.Repeating
import Spreadsheet.Proofs.Book.Reopening
import Spreadsheet.Proofs.Book.Settling

/-! # A book that is saved twice

A save leaves a book in which every value is stored as it would be stored again. A further save finds the same values
pending that cannot be read back, makes the same parts, puts them where they are already, and needs no text or reference.

* `leaves_saved`: the table that a save leaves.
* `IsSettled`: a book of which a save makes nothing new.
* `IsSettled.addSheet`, `IsSettled.addSheets`: nothing is new after one sheet, and after all of them.
* `IsSettled.saved`: a save of a settled book leaves it as it is.
* `update_committed`: what a further update makes of the sheets that a save leaves.
* `save_again`: a further save gives the same bytes and leaves the same book. -/

set_option autoImplicit false

namespace Spreadsheet.Book

open Grid Markup

/-! ## The table -/

theorem Sheet.strings_storedValue (v : Value) (hasFormula : Bool) (t : StringTable) :
    (storedValue v hasFormula t false).2.strings = t.strings := by
  have htext : ∀ s, (storedText s t false).2.strings = t.strings := by
    intro s
    unfold storedText
    rw [if_neg (fun h => Bool.false_ne_true h.1), StringTable.referenceExisting]
    cases t.position? s <;> rfl
  cases v with
  | text s =>
    rw [storedValue]
    split
    · rfl
    split
    · rfl
    · exact htext s
  | _ => rfl

theorem leaves_saved {b : Book} {names : List String} {d draft : Draft} (hdraft : d.addSheets b names = .ok draft)
    (hfew : 0 < draft.strings.references → draft.strings.strings.length ≤ Nat.pow 2 64) :
    StringTable.Leaves b.options.sharesStrings d.strings draft.strings draft.strings.settled := by
  have hgrows := Draft.grows_addSheets hdraft
  refine ⟨draft.strings.strings_settled, ?_, fun hunshared => ?_, hfew⟩
  · rw [StringTable.part_settled, hgrows.part]
  · cases hpart : d.strings.part with
    | none => exact hgrows.partless hpart
    | some part =>
      have hshares : b.options.sharesStrings = false :=
        Bool.eq_false_iff.mpr fun hshares => hunshared ⟨hshares, by rw [hpart]; rfl⟩
      refine Draft.keeps_addSheets (P := fun t => t.strings = d.strings.strings) (fun _ _ v _ hasFormula t ht => ?_)
        hdraft rfl
      rw [hshares, Sheet.strings_storedValue, ht]

/-! ## Books that are settled -/

/-- A book of which a save makes nothing new: the part of a sheet is put where it is already, if at all, and neither it nor
the table needs another text or reference. -/
structure IsSettled (c : Book) : Prop where
  table : c.strings.updated? = none
  strings : ∀ {name s}, name ∈ c.catalog.names → c.sheet? name = some s →
    (s.update c.strings c.options.sharesStrings).2 = c.strings
  part : ∀ {name s}, name ∈ c.catalog.names → c.sheet? name = some s → ∀ part,
    (s.update c.strings c.options.sharesStrings).1 = some part → part = s.part ∧ c.archive.Carries s.path part.bytes

/-- A draft in which nothing is new: the archive and the table are those of the book, and the parts those of its sheets. -/
structure Repeats (c : Book) (d : Draft) : Prop where
  archive : d.archive = c.archive
  strings : d.strings = c.strings
  parts : ∀ e ∈ d.parts, ∃ s, c.sheet? e.1 = some s ∧ e.2 = s.part

namespace IsSettled

variable {c : Book} (h : c.IsSettled)

include h

theorem addSheet {name : String} (hname : name ∈ c.catalog.names) {d : Draft} (hd : c.Repeats d) :
    ∃ next, d.addSheet c name = .ok next ∧ c.Repeats next := by
  unfold Draft.addSheet
  cases hs : c.sheet? name with
  | none => exact ⟨d, rfl, hd⟩
  | some s =>
    have hstrings := h.strings hname hs
    have hpart := h.part hname hs
    dsimp only
    rw [hd.strings]
    cases hupdate : s.update c.strings c.options.sharesStrings with
    | mk new table =>
      rw [hupdate] at hstrings hpart
      obtain rfl : table = c.strings := hstrings
      cases new with
      | none => exact ⟨_, rfl, hd.archive, rfl, hd.parts⟩
      | some new =>
        obtain ⟨rfl, hcarries⟩ := hpart new rfl
        have hreplace : replacePart d.archive s.path s.part = .ok c.archive := by
          rw [hd.archive]
          exact mapError_eq_ok.mpr hcarries.replace
        dsimp only
        rw [hreplace]
        refine ⟨_, rfl, rfl, rfl, fun e he => ?_⟩
        obtain he | he := List.mem_append.mp he
        · exact hd.parts e he
        · rw [List.mem_singleton.mp he]
          exact ⟨s, hs, rfl⟩

theorem addSheets {names : List String} (hall : ∀ name ∈ names, name ∈ c.catalog.names) {d : Draft} (hd : c.Repeats d) :
    ∃ last, d.addSheets c names = .ok last ∧ c.Repeats last := by
  induction names generalizing d with
  | nil => exact ⟨d, rfl, hd⟩
  | cons name names ih =>
    obtain ⟨next, hnext, hrepeats⟩ := h.addSheet (hall name (List.mem_cons_self ..)) hd
    obtain ⟨last, hlast, hrest⟩ := ih (fun other hother => hall other (List.mem_cons_of_mem _ hother)) hrepeats
    exact ⟨last, bind_eq_ok.mpr ⟨next, hnext, hlast⟩, hrest⟩

end IsSettled

/-! ### The parts of the sheets in their places -/

theorem withSheet_self {b : Book} (hnames : (b.sheets.map (·.name)).Nodup) {name : String} {s : Sheet}
    (hs : b.sheet? name = some s) : b.withSheet s = b := by
  have hsheets : b.sheets.map (fun t => if t.name = s.name then s else t) = b.sheets := by
    refine map_eq_self fun t ht => ?_
    split
    next heq => exact List.inj_on_of_nodup_map hnames (List.mem_of_find?_eq_some hs) ht heq.symm
    next => rfl
  rw [withSheet, hsheets]

theorem commitSheet_self {b : Book} (hb : b.IsCurrent) {name : String} {s : Sheet} (hs : b.sheet? name = some s) :
    commitSheet b (name, s.part) = b := by
  have hsame : s.commit s.part = s := by
    rw [Sheet.commit, ← hb.index hs]
  rw [commitSheet]
  dsimp only
  rw [hs]
  dsimp only
  rw [hsame, withSheet_self hb.names hs]

theorem foldl_commitSheet_self {b : Book} (hb : b.IsCurrent) {parts : List (String × Node)}
    (hparts : ∀ e ∈ parts, ∃ s, b.sheet? e.1 = some s ∧ e.2 = s.part) : parts.foldl commitSheet b = b := by
  induction parts with
  | nil => rfl
  | cons e parts ih =>
    obtain ⟨name, part⟩ := e
    obtain ⟨s, hs, hpart⟩ := hparts (name, part) (List.mem_cons_self ..)
    obtain rfl : part = s.part := hpart
    rw [List.foldl_cons, commitSheet_self hb hs]
    exact ih fun e he => hparts e (List.mem_cons_of_mem _ he)

theorem IsSettled.saved {c : Book} (hc : c.IsCurrent) (h : c.IsSettled) {out : Bytes} (hsave : c.archive.save = .ok out) :
    Book.saved c = .ok (out, c) := by
  obtain ⟨last, hlast, hrepeats⟩ := h.addSheets (fun name hname => hname) (d := ⟨c.archive, c.strings, []⟩)
    ⟨rfl, rfl, fun e he => nomatch he⟩
  have hstored : storeStrings c.archive c.catalog none = .ok c.archive := rfl
  rw [Book.saved, hlast, ok_bind]
  dsimp only
  rw [hrepeats.strings, hrepeats.archive, h.table, hstored, ok_bind, hsave, foldl_commitSheet_self hc hrepeats.parts]
  rfl

/-! ## Books that have been saved -/

section

variable {b : Book} (hb : b.IsCurrent) {tables : String → StringTable}

include hb

theorem carries_saved (hpaths : b.catalog.paths.Nodup) {table : StringTable} {a : Archive}
    (hedits : b.archive.replaceAll (b.edits tables b.catalog.names ++ tableEdits b.catalog table) = .ok a) {name : String}
    {s : Sheet} {part : Node} (hpart : b.updatedPart? (tables name) name = some (s, part)) :
    a.Carries s.path part.bytes := by
  have hpath := hb.paths (updatedPart?_eq_some.mp hpart).1
  -- The table is written last, but not over a sheet.
  have hstrings : s.path ∉ b.catalog.stringsPath := fun hmem => Catalog.pathOf_ne hpaths hmem name hpath
  refine Archive.carries_of_replaceAll hb.archive hedits ?_
  rw [Archive.lastContents?_append, lastContents?_tableEdits_of_ne table hstrings, Option.none_or,
    lastContents?_edits (Catalog.nodup_sheets hpaths) hb.paths tables hpath, hpart]
  rfl

theorem update_committed (hnames : b.catalog.names.Nodup) {draft : Draft} {final : StringTable} {a : Archive}
    (hfollows : Draft.Follows b b.catalog.names tables ⟨b.archive, b.strings, []⟩ draft)
    (hleaves : StringTable.Leaves b.options.sharesStrings b.strings draft.strings final)
    (hdangles : ∀ {name s}, b.sheet? name = some s → ∀ d ∈ s.cells, ¬d.Dangles b.strings) {name : String}
    (hname : name ∈ b.catalog.names) {t : Sheet} (ht : (b.committed tables draft.strings a).sheet? name = some t) :
    (t.update final b.options.sharesStrings).2 = final ∧
      ∀ part, (t.update final b.options.sharesStrings).1 = some part → part = t.part ∧
        ∃ s, b.updatedPart? (tables name) name = some (s, part) ∧ t.path = s.path := by
  rw [sheet?_committed hnames tables draft.strings a hname, Option.map_eq_some_iff] at ht
  obtain ⟨s, hs, rfl⟩ := ht
  obtain ⟨cellTables, stop, hthreads, hbetween⟩ :=
    hfollows.exists_threads hname (found_of_sheet? hs) (hb.index hs)
  cases hupdate : (s.update (tables name) b.options.sharesStrings).1 with
  | none =>
    have hnone : b.updatedPart? (tables name) name = none := by
      rw [updatedPart?, hs, Option.bind_some, hupdate]
      rfl
    rw [hnone]
    dsimp only
    rw [hthreads.update_unchanged hbetween hleaves (hdangles hs) hupdate]
    refine ⟨rfl, fun part hpart => ?_⟩
    cases hpart
  | some part =>
    have hpart : b.updatedPart? (tables name) name = some (s, part) := updatedPart?_eq_some.mpr ⟨hs, hupdate⟩
    rw [hpart]
    obtain ⟨htable, hsame⟩ := hthreads.update_commit hbetween hleaves (hdangles hs) (hb.index hs) hupdate
    refine ⟨htable, fun other hother => ?_⟩
    obtain rfl := hsame other hother
    exact ⟨rfl, s, rfl, rfl⟩

end

/-- A further save gives the same bytes, and leaves the book as it is: no part, no text and no number of references changes.
If the part of the table is not a list of texts, new ones are not written, and only their number in memory is limited. -/
theorem save_again {b c : Book} {out : Bytes} (hb : Reachable b) (hnames : b.catalog.names.Nodup)
    (hpaths : b.catalog.paths.Nodup)
    (hdangles : ∀ {name s}, b.sheet? name = some s → ∀ d ∈ s.cells, ¬d.Dangles b.strings)
    (hfew : (∀ part ∈ b.strings.part, StringTable.IsRooted part) ∨ c.strings.strings.length ≤ Nat.pow 2 64)
    (hsaved : Session.save.run b = (.ok out, c)) : Session.save.run c = (.ok out, c) := by
  -- Both books are of the form that a book has between requests, so the facts below apply to either.
  have hcurrent := hb.isCurrent
  have hkept : c.IsCurrent := by
    have hsave := keeps_isCurrent_save b hcurrent
    rw [hsaved] at hsave
    exact hsave
  obtain ⟨tables, draft, hdraft, hfollows, hedits, hsave, hcommitted⟩ := saved_eq_ok hnames (run_save_eq_ok.mp hsaved)
  have hstrings : c.strings = draft.strings.settled := by rw [hcommitted]; rfl
  obtain ⟨hcatalog, hoptions⟩ := committed_spec b tables draft.strings c.archive
  rw [← hcommitted] at hcatalog hoptions
  have hleaves : StringTable.Leaves b.options.sharesStrings b.strings draft.strings c.strings := by
    rw [hstrings]
    refine leaves_saved hdraft fun hreferences => ?_
    obtain hrooted | hlength := hfew
    -- The part that is written has an item for each text, and is no longer than a member may be.
    · exact Nat.le_of_lt (hcurrent.table.length_lt hcurrent.listed hfollows.grows hedits hrooted hreferences)
    · rwa [hstrings, StringTable.strings_settled] at hlength
  have hupdate : ∀ {name t}, name ∈ c.catalog.names → c.sheet? name = some t →
      (t.update c.strings c.options.sharesStrings).2 = c.strings ∧
        ∀ part, (t.update c.strings c.options.sharesStrings).1 = some part → part = t.part ∧
          ∃ s, b.updatedPart? (tables name) name = some (s, part) ∧ t.path = s.path := by
    intro name t hname ht
    rw [hcommitted] at ht
    rw [hoptions]
    exact update_committed hcurrent hnames hfollows hleaves hdangles (hcatalog ▸ hname) ht
  have hsettled : c.IsSettled := by
    refine ⟨?_, fun hname ht => (hupdate hname ht).1, fun hname ht part hpart => ?_⟩
    · rw [hstrings]
      exact draft.strings.updated?_settled
    · obtain ⟨hsame, s, hs, hpath⟩ := (hupdate hname ht).2 part hpart
      rw [hpath]
      exact ⟨hsame, carries_saved hcurrent hpaths hedits hs⟩
  exact run_save_eq_ok.mpr (hsettled.saved hkept hsave)

/-- A package with one sheet `S` and a table with one text: `A1` has its number, `B1` is empty, and `C1` has a formula. -/
def escapingPackage : Bytes :=
  Archive.build <| List.map (fun part => (part.1, part.2.toUTF8.data.toList))
    [("xl/workbook.xml", "<workbook><sheets><sheet name=\"S\" r:id=\"a\"/></sheets></workbook>"),
      ("xl/_rels/workbook.xml.rels", "<Relationships><Relationship Id=\"a\" Type=\"/worksheet\" Target=\"s.xml\"/>" ++
        "<Relationship Id=\"b\" Type=\"/sharedStrings\" Target=\"t.xml\"/></Relationships>"),
      ("xl/s.xml", "<worksheet><sheetData><row r=\"1\"><c t=\"s\"><v>0</v></c><c/><c><f>B1</f></c></row></sheetData>" ++
        "</worksheet>"),
      ("xl/t.xml", "<sst count=\"1\"><si><t>a</t></si></sst>")]

/-- The book of the package, with a text that is new to the table, and one for the formula that is read without its
escape. -/
def escapingBook : Book :=
  [Request.write "S" (.plain 1 1) (.text "b"), .write "S" (.plain 1 2) (.text "_x0041_")].foldl Request.perform
    ((ofBytes escapingPackage ⟨true, none, false⟩).toOption.getD emptyBook)

set_option maxRecDepth 20000 in
theorem escapingBook_spec : (ofBytes escapingPackage ⟨true, none, false⟩).toOption.isSome = true ∧
    (escapingBook.catalog.names.Nodup ∧ escapingBook.catalog.paths.Nodup) ∧
      (∀ s ∈ escapingBook.sheets, ∀ d ∈ s.cells, d.type? = some "s" → (d.literal escapingBook.strings).isSome = true) ∧
        (∀ part ∈ escapingBook.strings.part, StringTable.IsRooted part) ∧
          (∀ m ∈ escapingBook.archive.members, m.compressedSize ≤ m.size) ∧ escapingBook.hasRoom = true := by
  decide +kernel

/-- The text of the formula is pending after every save, and is stored again as it is. -/
theorem save_again_escapingBook : ∃ out c, Reachable escapingBook ∧ Session.save.run escapingBook = (.ok out, c) ∧
    Session.save.run c = (.ok out, c) := by
  obtain ⟨hopened, ⟨hnames, hpaths⟩, hcells, hrooted, hstored, hroom⟩ := escapingBook_spec
  have hreachable : Reachable escapingBook := by
    rw [escapingBook]
    exact (Reachable.opened (eq_ok_getD emptyBook hopened)).foldl _
  generalize escapingBook = b at hnames hpaths hcells hrooted hstored hroom hreachable ⊢
  obtain ⟨out, c, hsaved, -⟩ := exists_save_of_hasRoom hroom hnames hreachable.isCurrent.archive hstored
  refine ⟨out, c, hreachable, hsaved, save_again hreachable hnames hpaths (fun hs d hd => ?_) (.inl hrooted) hsaved⟩
  exact Cell.not_dangles (hcells _ (List.mem_of_find?_eq_some hs) d hd)

end Spreadsheet.Book
