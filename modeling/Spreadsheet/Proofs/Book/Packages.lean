import Spreadsheet.Proofs.Book.Drafts
import Spreadsheet.Proofs.Book.Parts
import Spreadsheet.Proofs.Book.Restoring
import Spreadsheet.Proofs.Book.Unsaved
import Spreadsheet.Proofs.Markup.Parsed

/-! # Packages with updated parts

* `Catalog.paths`: the parts of the sheets and of the table of shared texts.
* `IsRegular`: a book whose sheets and table have names and parts of their own.
* `Updates`: a package in which the sheets of a book and the table have their updated parts.
* `Accepts`: a book, and a table that a save of it may leave.
* `Updates.archivesLook`: in such a package every reader of other parts finds the same.
* `Updates.readSheet`: each sheet is found there with its kept values stored.
* `Updates.readStrings`: so is the table, with the texts that have been added. -/

set_option autoImplicit false

namespace Spreadsheet.Book

open Grid Markup
open Archive.Layout (wide endSize)

/-! ## Regular books -/

def Catalog.paths (c : Catalog) : List String := c.stringsPath.toList ++ c.sheets.filterMap (·.path)

theorem Catalog.nodup_sheets {c : Catalog} (h : c.paths.Nodup) : (c.sheets.filterMap (·.path)).Nodup :=
  (List.nodup_append.mp h).2.1

theorem Catalog.pathOf_ne {c : Catalog} (h : c.paths.Nodup) {path : String} (hpath : path ∈ c.stringsPath) (name : String) :
    c.pathOf name ≠ .ok path := by
  intro hname
  obtain ⟨entry, hentry, -, hat⟩ := entry_of_pathOf hname
  exact (List.nodup_append.mp h).2.2 path (Option.mem_toList.mpr hpath) path
    (List.mem_filterMap.mpr ⟨entry, hentry, hat⟩) rfl

/-- A book in an archive without a comment, whose sheets have well-formed parts and names and parts of their own. -/
structure IsRegular (b : Book) : Prop where
  comment : b.archive.endRecord.length = endSize
  names : b.catalog.names.Nodup
  paths : b.catalog.paths.Nodup
  wellFormed : ∀ {name s}, b.found name = .ok s → s.part.isWellFormed = true

theorem isRegular_iff {b : Book} (hb : b.IsConsistent) : b.IsRegular ↔
    b.archive.endRecord.length = endSize ∧ b.catalog.names.Nodup ∧ b.catalog.paths.Nodup ∧
      ∀ name ∈ b.catalog.names, ∀ s ∈ (b.found name).toOption, s.part.isWellFormed = true := by
  constructor
  · rintro ⟨hcomment, hnodup, hpaths, hformed⟩
    exact ⟨hcomment, hnodup, hpaths, fun name _ s hs => hformed (eq_ok_of_toOption hs)⟩
  · rintro ⟨hcomment, hnodup, hpaths, hformed⟩
    refine ⟨hcomment, hnodup, hpaths, fun {name s} hs => hformed name (hb.listed hs) s ?_⟩
    rw [hs]
    rfl

/-- The part of the table is well formed, with a list of texts for its root. -/
def StringTable.IsListed (t : StringTable) : Prop :=
  ∀ part ∈ t.part, part.isWellFormed = true ∧ ∃ root ∈ part.root?, root.isElement "sst" = true

instance (t : StringTable) : Decidable t.IsListed :=
  inferInstanceAs (Decidable (∀ part ∈ t.part, part.isWellFormed = true ∧ ∃ root ∈ part.root?, root.isElement "sst" = true))

theorem IsRegular.of_stems {fresh b c : Book} (hb : Stems fresh b) (hc : Stems fresh c) (h : b.IsRegular) :
    c.IsRegular where
  comment := by
    rw [hc.archive, ← hb.archive]
    exact h.comment
  names := by
    rw [hc.catalog, ← hb.catalog]
    exact h.names
  paths := by
    rw [hc.catalog, ← hb.catalog]
    exact h.paths
  wellFormed {name s} hs := by
    obtain ⟨u, hu, hus⟩ := hc.found hs
    obtain ⟨t, ht, hut⟩ := hb.exists_found hu
    have hpart : s.part = t.part := by rw [hus.same, hut.same]
    rw [hpart]
    exact h.wellFormed ht

/-! ## Sheets that have been read -/

section

variable {fresh b : Book}

theorem Stems.spec (h : Stems fresh b) {name : String} {s : Sheet} (hs : b.found name = .ok s) :
    ∃ bytes noted, b.catalog.pathOf name = .ok s.path ∧ b.archive.contains s.path = true ∧
      b.archive.read s.path = .ok bytes ∧ notesPart b.archive s.path = .ok noted ∧ parse bytes = .ok s.part ∧
        readNotes noted = .ok s.notes ∧ s.cells = Sheet.index s.part := by
  obtain ⟨t, ht, hts⟩ := h.found hs
  rw [← h.archive, ← h.catalog] at ht
  obtain ⟨path, bytes, noted, part, notes, hpath, hcontains, hbytes, hnoted, hpart, hnotes, rfl⟩ := readSheet_eq_ok.mp ht
  rw [hts.same]
  exact ⟨bytes, noted, hpath, hcontains, hbytes, hnoted, hpart, hnotes, rfl⟩

theorem Stems.isAtPaths (h : Stems fresh b) : b.IsAtPaths := by
  intro name s hs
  obtain ⟨-, -, hpath, -⟩ := h.spec (found_of_sheet? hs)
  exact hpath

theorem Stems.index (h : Stems fresh b) {name : String} {s : Sheet} (hs : b.found name = .ok s) :
    s.cells = Sheet.index s.part := by
  obtain ⟨-, -, -, -, -, -, -, -, hcells⟩ := h.spec hs
  exact hcells

theorem cache_of_found {name : String} {s : Sheet} (hs : b.found name = .ok s) :
    b.sheet? name = some s ∨ (b.sheet? name = none ∧ s.cache = []) := by
  unfold found at hs
  split at hs
  next t ht =>
    cases hs
    exact .inl ht
  next hnone => exact .inr ⟨hnone, cache_of_readSheet hs⟩

theorem cached?_of_cache {s : Sheet} (hs : s.cache = []) (a : Address) : s.cached? a = none := by
  rw [Sheet.cached?, hs]
  rfl

theorem keepsStorable_of_cache {s : Sheet} (hs : s.cache = []) : s.KeepsStorable := by
  intro a v hv
  rw [cached?_of_cache hs] at hv
  cases hv

theorem KeepsStorable.of_found (hb : b.KeepsStorable) {name : String} {s : Sheet} (hs : b.found name = .ok s) :
    s.KeepsStorable := by
  obtain hsheet | ⟨-, hcache⟩ := cache_of_found hs
  · exact hb hsheet
  · exact keepsStorable_of_cache hcache

theorem KeepsStorable.write {c : Book} (hb : b.KeepsStorable) {name : String} {a : Address} {v : Value} (hv : v.IsStorable)
    (h : (Session.write name a v).run b = (.ok (), c)) : c.KeepsStorable := by
  obtain ⟨s, hs, -, hfound⟩ := found_of_run_write h
  intro other t ht a' w hw
  have hother := found_of_sheet? ht
  rw [hfound] at hother
  split at hother
  next =>
    cases hother
    rw [cached?_withCached] at hw
    split at hw
    next =>
      cases hw
      exact hv
    next => exact hb.of_found hs a' w hw
  next => exact hb.of_found hother a' w hw

theorem stringsAfter_of_found {name : String} {s : Sheet} (hs : b.found name = .ok s) (strings : StringTable) :
    b.stringsAfter strings name = (s.update strings b.options.sharesStrings).2 := by
  obtain hsheet | ⟨hnone, hcache⟩ := cache_of_found hs
  · rw [stringsAfter, hsheet]
  · rw [stringsAfter, hnone]
    refine Sheet.keeps_update (P := fun t => strings = t) (fun hv => ?_) rfl
    rw [cached?_of_cache hcache] at hv
    cases hv

theorem stored_of_updatedPart? {name : String} {s : Sheet} (hs : b.found name = .ok s) {first last : StringTable}
    (hnone : b.updatedPart? first name = none) {cellTables : Address → StringTable}
    (hthreads : s.Threads b.options.sharesStrings first s.cells cellTables last) :
    s.cells.map (s.stored cellTables b.options.sharesStrings) = s.cells := by
  obtain hsheet | ⟨-, hcache⟩ := cache_of_found hs
  · rw [updatedPart?, hsheet, Option.bind_some, Option.map_eq_none_iff] at hnone
    exact hthreads.update_eq_none hnone
  · exact map_eq_self fun c _ => Sheet.stored_of_uncached (cached?_of_cache hcache _)

/-- The cells of a sheet find tables between that of the book and that of the draft. -/
theorem Draft.Follows.exists_threads {tables : String → StringTable} {draft : Draft}
    (h : Draft.Follows b b.catalog.names tables ⟨b.archive, b.strings, []⟩ draft) {name : String}
    (hname : name ∈ b.catalog.names) {s : Sheet} (hs : b.found name = .ok s) (hindex : s.cells = Sheet.index s.part) :
    ∃ cellTables last, s.Threads b.options.sharesStrings (tables name) s.cells cellTables last ∧
      s.Between b.options.sharesStrings b.strings s.cells cellTables draft.strings := by
  obtain ⟨cellTables, last, hthreads⟩ :=
    s.exists_threads b.options.sharesStrings (Sheet.nodup_address_of_index hindex) (tables name)
  have hlast := h.after name hname
  rw [stringsAfter_of_found hs, hthreads.update_snd] at hlast
  exact ⟨cellTables, last, hthreads, hthreads.toBetween.mono (h.before name hname) hlast⟩

theorem Stems.exists_threads (h : Stems fresh b) {tables : String → StringTable} {draft : Draft}
    (hfollows : Draft.Follows b b.catalog.names tables ⟨b.archive, b.strings, []⟩ draft) {name : String} {s : Sheet}
    (hs : b.found name = .ok s) :
    ∃ cellTables last, s.Threads b.options.sharesStrings (tables name) s.cells cellTables last ∧
      s.Between b.options.sharesStrings b.strings s.cells cellTables draft.strings := by
  obtain ⟨-, -, hpath, -⟩ := h.spec hs
  exact hfollows.exists_threads (Catalog.mem_names_of_pathOf hpath) hs (h.index hs)

end

/-! ## The table of shared texts -/

/-- A table that has been read is that of a part, or there is no part and no text. -/
theorem readStrings_eq_ok {a : Archive} {c : Catalog} {t : StringTable} (h : readStrings a c = .ok t) :
    t = .empty ∨ ∃ path bytes part, c.stringsPath = some path ∧ a.read path = .ok bytes ∧ parse bytes = .ok part ∧
      t = .ofTree part := by
  simp only [readStrings, bind_eq_ok] at h
  obtain ⟨bytes, hbytes, h⟩ := h
  cases bytes with
  | none =>
    cases pure_eq_ok.mp h
    exact .inl rfl
  | some bytes =>
    obtain ⟨part, hpart, rfl⟩ := map_eq_ok.mp (mapError_eq_ok.mp h)
    rw [optionalPart] at hbytes
    split at hbytes
    next path hpath =>
      obtain ⟨found, hfound, heq⟩ := map_eq_ok.mp hbytes
      obtain rfl := Option.some.inj heq
      exact .inr ⟨path, found, part, (Option.filter_eq_some_iff.mp hpath).1, mapError_eq_ok.mp hfound, hpart, rfl⟩
    next => cases hbytes

section

variable {a : Archive} {c : Catalog} {t table : StringTable} (h : readStrings a c = .ok t)

include h

theorem loaded_of_readStrings : t.loaded = t.strings.length ∧ t.references = 0 := by
  obtain rfl | ⟨-, -, part, -, -, -, rfl⟩ := readStrings_eq_ok h <;> exact ⟨rfl, rfl⟩

theorem isModified_of_readStrings : t.isModified = false := by
  obtain ⟨hloaded, hreferences⟩ := loaded_of_readStrings h
  simp [StringTable.isModified, hloaded, hreferences]

theorem added_of_readStrings (hgrows : t.Grows table) : table.strings = t.strings ++ table.added := by
  obtain ⟨added, hadded⟩ := hgrows.strings
  rw [StringTable.added, hgrows.loaded, (loaded_of_readStrings h).1, ← hadded, List.drop_left]

theorem strings_of_updated?_eq_none (hgrows : t.Grows table) (hnone : table.updated? = none) :
    table.strings = t.strings := by
  have hadded := added_of_readStrings h hgrows
  cases hpart : t.part with
  | none => exact hgrows.partless hpart
  | some part =>
    have hmodified : table.isModified = false := by
      cases hmodified : table.isModified with
      | false => rfl
      | true =>
        have hsome : table.updated? = some (table.inNode part) :=
          StringTable.updated?_eq_some.mpr ⟨hmodified, part, hgrows.part.trans hpart, rfl⟩
        rw [hnone] at hsome
        cases hsome
    rw [StringTable.isModified, Bool.or_eq_false_iff] at hmodified
    have hlength := of_decide_eq_false hmodified.1
    rw [hadded, StringTable.added, List.drop_eq_nil_of_le (Nat.not_lt.mp hlength), List.append_nil]

/-- The part of the table that is written anew, and the one that it was read from. -/
theorem exists_part_of_updated? (hgrows : t.Grows table) {new : Node} (hnew : table.updated? = some new) :
    ∃ path bytes part, c.stringsPath = some path ∧ a.read path = .ok bytes ∧ parse bytes = .ok part ∧
      t.part = some part ∧ t.strings = StringTable.stringsOf part ∧ new = table.inNode part := by
  obtain ⟨-, part, hpart, rfl⟩ := StringTable.updated?_eq_some.mp hnew
  rw [hgrows.part] at hpart
  obtain rfl | ⟨path, bytes, part', hpath, hbytes, hparse, rfl⟩ := readStrings_eq_ok h
  · cases hpart
  · obtain rfl := Option.some.inj hpart
    exact ⟨path, bytes, part', hpath, hbytes, hparse, rfl, rfl, rfl⟩

theorem isTablePart_of_readStrings (hlisted : t.IsListed) {part : Node} (hpart : t.part = some part) :
    StringTable.IsTablePart part := by
  obtain ⟨hwell, root, hroot, hname⟩ := hlisted part hpart
  obtain rfl | ⟨path, bytes, part', -, -, hparse, rfl⟩ := readStrings_eq_ok h
  · cases hpart
  · obtain rfl := Option.some.inj hpart
    exact ⟨isWritablePart_of_parse hparse hwell, StringTable.isRooted_iff.mp ⟨root, hroot, hname⟩⟩

end

/-! ## Packages with updated parts -/

/-- A package in which the sheets of a book and the table have their updated parts, and all other parts are as they were. -/
structure Updates (b : Book) (tables : String → StringTable) (table : StringTable) (a : Archive) : Prop where
  contains : ∀ path, a.contains path = b.archive.contains path
  sheet : ∀ {name path}, b.catalog.pathOf name = .ok path → a.read path = match b.updatedPart? (tables name) name with
    | some (_, part) => .ok part.bytes
    | none => b.archive.read path
  strings : ∀ {path}, path ∈ b.catalog.stringsPath → a.read path = match table.updated? with
    | some part => .ok part.bytes
    | none => b.archive.read path
  other : ∀ {path}, (∀ name, b.catalog.pathOf name ≠ .ok path) → path ∉ b.catalog.stringsPath →
    a.read path = b.archive.read path

/-- The updated part of a sheet is read again, and its cells look as if the values had been stored one by one. -/
theorem Stems.parse_updatedPart {fresh b : Book} (h : Stems fresh b) (hregular : b.IsRegular) {name : String} {s : Sheet}
    {part : Node} {first last : StringTable} (hpart : b.updatedPart? first name = some (s, part))
    {cellTables : Address → StringTable}
    (hthreads : s.Threads b.options.sharesStrings first s.cells cellTables last) :
    parse part.bytes = .ok part.merged ∧ LooksLike s.part part.merged ∧
      ∀ strings, (Sheet.index part.merged).map (Cell.face strings) =
        s.cells.map fun c => Cell.face strings (s.stored cellTables b.options.sharesStrings c) := by
  obtain ⟨hs, hupdate⟩ := updatedPart?_eq_some.mp hpart
  have hfound := found_of_sheet? hs
  obtain ⟨bytes, noted, -, -, -, -, hparse, -, hcells⟩ := h.spec hfound
  have hwritable := isWritablePart_of_parse hparse (hregular.wellFormed hfound)
  exact ⟨(hthreads.parse_updated hcells hwritable hupdate .empty).1, looksLike_updated hthreads hcells hupdate,
    fun strings => (hthreads.parse_updated hcells hwritable hupdate strings).2⟩

/-- A book that has not been saved since it was opened, and a table that a save may leave: it has grown from that of the
book, and its part can be written anew if need be. -/
structure Accepts (fresh b : Book) (table : StringTable) : Prop where
  stems : Stems fresh b
  regular : b.IsRegular
  strings : readStrings b.archive b.catalog = .ok b.strings
  grows : b.strings.Grows table
  listed : table.isModified = true → ∀ part, b.strings.part = some part → StringTable.IsTablePart part

namespace Updates

variable {fresh b : Book} {tables : String → StringTable} {table : StringTable} {a : Archive}

theorem congr (u : Updates b tables table a) {a' : Archive} (hcontains : ∀ path, a'.contains path = a.contains path)
    (hread : ∀ path, a'.read path = a.read path) : Updates b tables table a' where
  contains path := (hcontains path).trans (u.contains path)
  sheet hpath := (hread _).trans (u.sheet hpath)
  strings hpath := (hread _).trans (u.strings hpath)
  other hpath hother := (hread _).trans (u.other hpath hother)

variable (u : Updates b tables table a) (h : Accepts fresh b table)

include u h

theorem readStrings : ∃ t, Book.readStrings a b.catalog = .ok t ∧ b.strings.IsReadOf table t := by
  have hadded := added_of_readStrings h.strings h.grows
  have hcontains : a.contains = b.archive.contains := funext u.contains
  cases hnew : table.updated? with
  | none =>
    -- The part is the one that the table was read from.
    have hpart : optionalPart a b.catalog.stringsPath = optionalPart b.archive b.catalog.stringsPath := by
      rw [optionalPart, optionalPart, hcontains]
      cases hfilter : b.catalog.stringsPath.filter b.archive.contains with
      | none => rfl
      | some path =>
        have hread := u.strings (Option.filter_eq_some_iff.mp hfilter).1
        rw [hnew] at hread
        dsimp only at hread ⊢
        rw [hread]
    refine ⟨b.strings, ?_, [], [], ?_, (List.append_nil _).symm, .inl rfl⟩
    · rw [Book.readStrings, hpart]
      exact h.strings
    · rw [List.append_nil]
      exact strings_of_updated?_eq_none h.strings h.grows hnew
  | some new =>
    obtain ⟨path, bytes, part, hpath, hbytes, hparse, hpart, hold, rfl⟩ := exists_part_of_updated? h.strings h.grows hnew
    have hlisted := h.listed (StringTable.updated?_eq_some.mp hnew).1 part hpart
    obtain ⟨t, ht, htexts⟩ := StringTable.read_updated (h.grows.part.trans hpart) hlisted hnew
    have hread := u.strings hpath
    rw [hnew] at hread
    refine ⟨t, ?_, table.added, table.added.map decodeEscapes, hadded, by rw [htexts, hold], .inr rfl⟩
    have hfilter : b.catalog.stringsPath.filter a.contains = some path := by
      rw [hpath, hcontains, Option.filter_some, if_pos (Archive.contains_of_read hbytes)]
    have hoptional : optionalPart a b.catalog.stringsPath = .ok (some (table.inNode part).bytes) := by
      rw [optionalPart, hfilter]
      dsimp only
      rw [hread]
      rfl
    rw [Book.readStrings, hoptional, ok_bind]
    dsimp only
    rw [ht]
    rfl

theorem archivesLook : ArchivesLook b.archive a := by
  refine ⟨u.contains, fun {path bytes} hbytes => ?_⟩
  -- A part is that of a sheet, that of the table, or has not been touched.
  by_cases hsheet : ∃ name, b.catalog.pathOf name = .ok path
  · obtain ⟨name, hpath⟩ := hsheet
    have hread := u.sheet hpath
    cases hpart : b.updatedPart? (tables name) name with
    | none =>
      rw [hpart] at hread
      exact ⟨bytes, hread.trans hbytes, .inl rfl⟩
    | some entry =>
      obtain ⟨s, part⟩ := entry
      rw [hpart] at hread
      have hfound := found_of_sheet? (updatedPart?_eq_some.mp hpart).1
      obtain ⟨old, noted, hat, -, hold, -, hparse, -, hcells⟩ := h.stems.spec hfound
      rw [hpath] at hat
      obtain rfl := Except.ok.inj hat
      rw [hbytes] at hold
      obtain rfl := Except.ok.inj hold
      obtain ⟨cellTables, last, hthreads⟩ :=
        s.exists_threads b.options.sharesStrings (Sheet.nodup_address_of_index hcells) (tables name)
      obtain ⟨hparse', hlook, -⟩ := h.stems.parse_updatedPart h.regular hpart hthreads
      exact ⟨part.bytes, hread, .inr ⟨s.part, part.merged, hparse, hparse', hlook⟩⟩
  by_cases htablePath : path ∈ b.catalog.stringsPath
  · have hread := u.strings htablePath
    cases hnew : table.updated? with
    | none =>
      rw [hnew] at hread
      exact ⟨bytes, hread.trans hbytes, .inl rfl⟩
    | some new =>
      rw [hnew] at hread
      obtain ⟨other, old, part, hother, hold, hparse, hpart, -, rfl⟩ := exists_part_of_updated? h.strings h.grows hnew
      have hat : b.catalog.stringsPath = some path := htablePath
      rw [hother] at hat
      obtain rfl := Option.some.inj hat
      rw [hbytes] at hold
      obtain rfl := Except.ok.inj hold
      have hlisted := h.listed (StringTable.updated?_eq_some.mp hnew).1 part hpart
      exact ⟨_, hread, .inr ⟨part, _, hparse, parse_bytes (StringTable.isWritablePart_inNode hlisted.writable),
        (surrounds_inNode table hlisted).looksLike_merged⟩⟩
  · have hread := u.other (fun name hpath => hsheet ⟨name, hpath⟩) htablePath
    exact ⟨bytes, hread.trans hbytes, .inl rfl⟩

theorem readSheet {name : String} {s : Sheet} (hs : b.found name = .ok s) {cellTables : Address → StringTable}
    {last : StringTable} (hthreads : s.Threads b.options.sharesStrings (tables name) s.cells cellTables last) :
    ∃ t, Book.readSheet a b.catalog name = .ok t ∧ s.Stores cellTables b.options.sharesStrings t := by
  obtain ⟨bytes, noted, hpath, hcontains, hbytes, hnoted, hparse, hnotes, hcells⟩ := h.stems.spec hs
  obtain ⟨noted', hnoted', hlook⟩ := (u.archivesLook h).notesPart hnoted
  have hnotes' : readNotes noted' = .ok s.notes := by
    obtain ⟨rfl, rfl⟩ | ⟨old, new, rfl, rfl, hlook⟩ := hlook
    · exact hnotes
    · exact hlook.map_parse notes_looksLike hnotes
  have hread := u.sheet hpath
  have hfound : ∀ {part new}, a.read s.path = .ok new → parse new = .ok part →
      Book.readSheet a b.catalog name = .ok (Sheet.ofTree name s.path part s.notes) := fun hnew hpart =>
    readSheet_eq_ok.mpr ⟨s.path, _, noted', _, s.notes, hpath, (u.contains s.path).trans hcontains, hnew, hnoted', hpart,
      hnotes', rfl⟩
  cases hpart : b.updatedPart? (tables name) name with
  | none =>
    rw [hpart] at hread
    refine ⟨_, hfound (hread.trans hbytes) hparse, fun strings => ?_, rfl⟩
    have hstored := congrArg (List.map (Cell.face strings)) (stored_of_updatedPart? hs hpart hthreads)
    rw [List.map_map] at hstored
    exact (congrArg (List.map (Cell.face strings)) hcells.symm).trans hstored.symm
  | some entry =>
    obtain ⟨s', part⟩ := entry
    rw [hpart] at hread
    have hsame := found_of_sheet? (updatedPart?_eq_some.mp hpart).1
    rw [hs] at hsame
    obtain rfl := Except.ok.inj hsame
    obtain ⟨hparse', -, hfaces⟩ := h.stems.parse_updatedPart h.regular hpart hthreads
    exact ⟨_, hfound hread hparse', hfaces, rfl⟩

end Updates

end Spreadsheet.Book
