import Spreadsheet.Proofs.Book.Reopening

/-! # Texts in saved books

A text is written into the cell itself or into the table of shared texts, and no escape protects it there. When it is read,
a sequence `_xHHHH_` in it counts as the character it names. The table only grows at its end, so all other cells store what
they stored, but for those with a number that was past the end.

* `literal_of_write`: a written text is read back as it is, or without its escapes.
* `literal_of_unwritten`: a cell to which nothing has been written stores what it stored, unless it dangles. -/

set_option autoImplicit false

namespace Spreadsheet.Book

open Grid
open Archive.Layout (wide endSize)

/-! ## Texts that are written -/

/-- A text can be written to each cell of a book. If the book is then saved, the text is found in the cell when the book is
opened again: as it is, or without its escapes. The empty text leaves the cell blank, or with an empty text that stood there
before. -/
theorem literal_of_write {bytes : Bytes} {options : Options} {opened before : Book} {requests : List Request}
    {name x : String} {a : Address} {s : Sheet} (hopened : ofBytes bytes options = .ok opened) (hregular : opened.IsRegular)
    (hlisted : opened.strings.IsListed) (hunsaved : ∀ r ∈ requests, r.isSaving = false)
    (hbefore : requests.foldl Request.perform opened = before) (hs : before.found name = .ok s)
    (hcell : (s.cell? a).isSome) :
    ∃ b, (Session.write name a (.text x)).run before = (.ok (), b) ∧
      ∀ {out c}, Session.save.run b = (.ok out, c) → out.length < wide → (∀ m ∈ c.archive.members, m.size ≠ wide) →
        ∃ r t, ofBytes out { options with expectedVersion := none } = .ok r ∧ r.found name = .ok t ∧
          (x ≠ "" → ∃ y, IsReadAs x y ∧ t.literal a r.strings = some (.text y)) ∧
          (x = "" → ¬s.Dangles a before.strings →
            t.literal a r.strings = none ∨ t.literal a r.strings = some (.text "")) := by
  obtain ⟨b, hwrite, hstrings, hs'⟩ := exists_run_write (.text x) hs hcell
  refine ⟨b, hwrite, fun {out c} hsaved hlength hsizes => ?_⟩
  have hb : (requests ++ [Request.write name a (.text x)]).foldl Request.perform opened = b := by
    rw [List.foldl_append, hbefore, foldl_write, hwrite]
  have hunsaved : ∀ r ∈ requests ++ [Request.write name a (.text x)], r.isSaving = false := by
    intro r hr
    obtain hr | hr := List.mem_append.mp hr
    · exact hunsaved r hr
    · rw [List.mem_singleton.mp hr]
      rfl
  obtain ⟨draft, r, -, -, hr, hholds⟩ := exists_holds hopened hregular hunsaved hb (.inr hlisted) hsaved hlength hsizes
  have hcached : (s.withCached a (.text x)).cached? a = some (.text x) := by
    rw [cached?_withCached, if_pos rfl]
  obtain ⟨cellTables, t, ht, hbetween, hstores⟩ := hholds.found hs'
  refine ⟨r, t, hr, ht, fun hx => ?_, fun hx hdangles => ?_⟩
  · exact hstores.literal_of_text hbetween hholds.strings hholds.few hcell hx hcached
  · rw [← hstrings] at hdangles
    exact hstores.literal_of_empty hbetween hholds.strings hdangles (hcached.trans (by rw [hx]))

/-- A text goes into the table and is found there. -/
theorem literal_of_write_sharingPackage : ∃ b out c r t,
    (Session.write "S" (.plain 1 1) (.text "b")).run sharingBook = (.ok (), b) ∧ Session.save.run b = (.ok out, c) ∧
      ofBytes out ⟨true, none, false⟩ = .ok r ∧ r.found "S" = .ok t ∧
        t.literal (.plain 1 1) r.strings = some (.text "b") := by
  obtain ⟨b, out, c, hwrite, -, hsaved, hlength, hsizes⟩ :=
    exists_save_sharingBook (w := (1, .text "b")) (List.mem_cons_of_mem _ (List.mem_cons_self ..))
  have hunsaved : ∀ q ∈ ([] : List Request), q.isSaving = false := nofun
  have hbefore : ([] : List Request).foldl Request.perform sharingBook = sharingBook := List.foldl_nil
  obtain ⟨s, hs, hcell, -⟩ := found_of_run_write hwrite
  obtain ⟨b', hwrite', hall⟩ := literal_of_write (x := "b") ofBytes_sharingPackage isRegular_sharingBook
    isListed_sharingBook hunsaved hbefore hs hcell
  obtain rfl : b' = b := congrArg Prod.snd (hwrite'.symm.trans hwrite)
  obtain ⟨r, t, hr, ht, htext, -⟩ := hall hsaved hlength hsizes
  obtain ⟨y, hread, hy⟩ := htext (by decide)
  have hplain : decodeEscapes "b" = "b" := by decide +kernel
  have hsame : y = "b" := by
    obtain rfl | rfl := hread
    · rfl
    · exact hplain
  rw [hsame] at hy
  exact ⟨b', out, c, r, t, hwrite, hsaved, hr, ht, hy⟩

/-- A text that looks like an escape is written to a cell with a formula, and another text is read. -/
theorem literal_of_write_escape : ∃ b out c r t,
    ofBytes sharingPackage ⟨true, none, false⟩ = .ok sharingBook ∧ sharingBook.IsRegular ∧ sharingBook.strings.IsListed ∧
      (Session.write "S" (.plain 1 3) (.text "_x0041_")).run sharingBook = (.ok (), b) ∧
        Session.save.run b = (.ok out, c) ∧ ofBytes out ⟨true, none, false⟩ = .ok r ∧ r.found "S" = .ok t ∧
          t.literal (.plain 1 3) r.strings = some (.text "A") := by
  obtain ⟨b, out, c, hwrite, hb, hsaved, hlength, hsizes⟩ := exists_save_sharingBook (w := (3, .text "_x0041_"))
    (List.mem_cons_of_mem _ (List.mem_cons_of_mem _ (List.mem_cons_self ..)))
  obtain ⟨draft, r, -, -, hr, hholds⟩ := exists_holds ofBytes_sharingPackage isRegular_sharingBook
    (fun q hq => List.mem_singleton.mp hq ▸ rfl) hb (.inr isListed_sharingBook) hsaved hlength hsizes
  obtain ⟨s, d, hs, hd, htype, hformula, hraw⟩ := exists_cell_sharingBook (e := (3, none, true, none))
    (by decide)
  have hfound := found_sharingBook_write hwrite hs
  obtain ⟨cellTables, t, ht, -, hstores⟩ := hholds.found hfound
  have hnew : ∀ strings, d.literal strings ≠ some (.text "_x0041_") := by
    intro strings
    rw [Cell.literal, htype, hraw]
    intro h
    cases h
  have hcached : (s.withCached (.plain 1 3) (.text "_x0041_")).cached? (.plain 1 3) = some (.text "_x0041_") := by
    rw [cached?_withCached, if_pos rfl]
  have hescape : decodeEscapes "_x0041_" = "A" := by decide +kernel
  have hliteral : t.literal (.plain 1 3) r.strings = some (.text (decodeEscapes "_x0041_")) :=
    hstores.literal_of_formula hd hformula (by decide) hcached hnew
  rw [hescape] at hliteral
  exact ⟨b, out, c, r, t, ofBytes_sharingPackage, isRegular_sharingBook, isListed_sharingBook, hwrite, hsaved, hr, ht,
    hliteral⟩

/-! ## Cells that are not written -/

/-- A cell for which no value is kept stores after a save what it stored before, in the book itself and when it is opened
again, unless it has a number that is past the end of the table. -/
theorem literal_of_unwritten {bytes out : Bytes} {options : Options} {opened b c : Book} {requests : List Request}
    (hopened : ofBytes bytes options = .ok opened) (hregular : opened.IsRegular) (hlisted : opened.strings.IsListed)
    (hunsaved : ∀ r ∈ requests, r.isSaving = false) (hb : requests.foldl Request.perform opened = b)
    (hsaved : Session.save.run b = (.ok out, c)) (hlength : out.length < wide)
    (hsizes : ∀ m ∈ c.archive.members, m.size ≠ wide) :
    ∃ r, ofBytes out { options with expectedVersion := none } = .ok r ∧ ∀ {name s}, b.found name = .ok s →
      ∃ t u, c.found name = .ok t ∧ r.found name = .ok u ∧ ∀ a, s.cached? a = none → ¬s.Dangles a b.strings →
        t.literal a c.strings = s.literal a b.strings ∧ u.literal a r.strings = s.literal a b.strings := by
  obtain ⟨draft, r, -, hc, hr, hholds⟩ := exists_holds hopened hregular hunsaved hb (.inr hlisted) hsaved hlength hsizes
  refine ⟨r, hr, fun {name s} hs => ?_⟩
  obtain ⟨cellTables, t, ht, -, hstores⟩ := hc.found hs
  obtain ⟨cellTables', u, hu, -, hstores'⟩ := hholds.found hs
  refine ⟨t, u, ht, hu, fun a hnone hdangles => ⟨?_, ?_⟩⟩
  · exact hstores.literal_of_uncached hc.strings.old hnone hdangles
  · exact hstores'.literal_of_uncached hholds.strings.old hnone hdangles

/-- A text is written to one cell, and another one stores what it stored. -/
theorem literal_of_unwritten_sharingPackage : ∃ b out c r s t u,
    (Session.write "S" (.plain 1 1) (.text "b")).run sharingBook = (.ok (), b) ∧ Session.save.run b = (.ok out, c) ∧
      ofBytes out ⟨true, none, false⟩ = .ok r ∧ b.found "S" = .ok s ∧ c.found "S" = .ok t ∧ r.found "S" = .ok u ∧
        s.literal (.plain 1 2) b.strings = some (.text "c") ∧
        t.literal (.plain 1 2) c.strings = s.literal (.plain 1 2) b.strings ∧
          u.literal (.plain 1 2) r.strings = s.literal (.plain 1 2) b.strings := by
  obtain ⟨b, out, c, hwrite, hb, hsaved, hlength, hsizes⟩ :=
    exists_save_sharingBook (w := (1, .text "b")) (List.mem_cons_of_mem _ (List.mem_cons_self ..))
  obtain ⟨r, hr, hall⟩ := literal_of_unwritten ofBytes_sharingPackage isRegular_sharingBook isListed_sharingBook
    (fun q hq => List.mem_singleton.mp hq ▸ rfl) hb hsaved hlength hsizes
  obtain ⟨s, d, hs, hd, htype, -, hraw⟩ := exists_cell_sharingBook (e := (2, some "str", false, some "c")) (by decide)
  have hfound := found_sharingBook_write hwrite hs
  obtain ⟨t, u, ht, hu, hsame⟩ := hall hfound
  have hd : (s.withCached (.plain 1 1) (.text "b")).cell? (.plain 1 2) = some d := hd
  have hnone : (s.withCached (.plain 1 1) (.text "b")).cached? (.plain 1 2) = none := by
    rw [cached?_withCached, if_neg (by decide)]
    exact cached?_sharingBook hs _
  have hdangles : ¬(s.withCached (.plain 1 1) (.text "b")).Dangles (.plain 1 2) b.strings := by
    rintro ⟨d', hd', hshared, -⟩
    obtain rfl := Option.some.inj (hd.symm.trans hd')
    exact absurd (htype.symm.trans hshared) (by decide)
  have hplain : decodeEscapes "c" = "c" := by decide +kernel
  have hliteral : (s.withCached (.plain 1 1) (.text "b")).literal (.plain 1 2) b.strings = some (.text "c") := by
    rw [Sheet.literal, hd, Option.bind_some, Cell.literal, htype, hraw]
    exact congrArg (fun x => some (Value.text x)) hplain
  obtain ⟨hopen, hreopened⟩ := hsame (.plain 1 2) hnone hdangles
  exact ⟨b, out, c, r, _, t, u, hwrite, hsaved, hr, hfound, ht, hu, hliteral, hopen, hreopened⟩

set_option maxRecDepth 20000 in
/-- The text goes to the place in the table that another cell has the number of. -/
theorem strings_sharingBook_write :
    ((Draft.addSheets ((Session.write "S" (.plain 1 1) (.text "b")).run sharingBook).2
      ⟨((Session.write "S" (.plain 1 1) (.text "b")).run sharingBook).2.archive,
        ((Session.write "S" (.plain 1 1) (.text "b")).run sharingBook).2.strings, []⟩
      ((Session.write "S" (.plain 1 1) (.text "b")).run sharingBook).2.catalog.names).toOption.map fun draft =>
        draft.strings.strings) = some ["b"] := by
  decide +kernel

/-- A text is written to one cell, and another one that stored nothing, since there was no text of its number, stores that
text after the save. -/
theorem literal_of_unwritten_dangling : ∃ b out c s t,
    ofBytes sharingPackage ⟨true, none, false⟩ = .ok sharingBook ∧ sharingBook.IsRegular ∧ sharingBook.strings.IsListed ∧
      (Session.write "S" (.plain 1 1) (.text "b")).run sharingBook = (.ok (), b) ∧ Session.save.run b = (.ok out, c) ∧
        b.found "S" = .ok s ∧ c.found "S" = .ok t ∧ s.cached? (.plain 1 0) = none ∧
          s.literal (.plain 1 0) b.strings = none ∧ t.literal (.plain 1 0) c.strings = some (.text "b") := by
  obtain ⟨b, out, c, hwrite, hb, hsaved, hlength, hsizes⟩ :=
    exists_save_sharingBook (w := (1, .text "b")) (List.mem_cons_of_mem _ (List.mem_cons_self ..))
  obtain ⟨draft, r, hdraft, hc, -, -⟩ := exists_holds ofBytes_sharingPackage isRegular_sharingBook
    (fun q hq => List.mem_singleton.mp hq ▸ rfl) hb (.inr isListed_sharingBook) hsaved hlength hsizes
  obtain ⟨s, d, hs, hd, htype, -, hraw⟩ := exists_cell_sharingBook (e := (0, some "s", false, some "0")) (by decide)
  have hfound := found_sharingBook_write hwrite hs
  obtain ⟨cellTables, t, ht, -, hstores⟩ := hc.found hfound
  have hd : (s.withCached (.plain 1 1) (.text "b")).cell? (.plain 1 0) = some d := hd
  have hnone : (s.withCached (.plain 1 1) (.text "b")).cached? (.plain 1 0) = none := by
    rw [cached?_withCached, if_neg (by decide)]
    exact cached?_sharingBook hs _
  have hindex : Text.Numeral.readWord? 64 (Text.trimmed "0".toList) = some 0 := by decide
  have hliteral : ∀ strings, d.literal strings = (strings.get? 0).map .text := by
    intro strings
    rw [Cell.literal_of_shared htype, hraw, Option.bind_some, Cell.sharedText?, hindex, Option.bind_some]
  have hempty : b.strings.strings = [] := by
    rw [strings_sharingBook hb]
    exact sharingBook_spec.2.2.1.2.1
  have htable : draft.strings.strings = ["b"] := by
    have hrun : ((Session.write "S" (.plain 1 1) (.text "b")).run sharingBook).2 = b := congrArg Prod.snd hwrite
    have htexts := strings_sharingBook_write
    rw [hrun, hdraft] at htexts
    exact Option.some.inj htexts
  have hplain : decodeEscapes "b" = "b" := by decide +kernel
  have htexts : c.strings.strings = ["b"] := by
    obtain ⟨added, read, hadded, hread, hcases⟩ := hc.strings
    rw [htable, hempty, List.nil_append] at hadded
    rw [hread, hempty, List.nil_append]
    obtain rfl | rfl := hcases
    · exact hadded.symm
    · rw [← hadded, List.map_cons, hplain, List.map_nil]
  refine ⟨b, out, c, _, t, ofBytes_sharingPackage, isRegular_sharingBook, isListed_sharingBook, hwrite, hsaved, hfound, ht,
    hnone, ?_, ?_⟩
  · rw [Sheet.literal, hd, Option.bind_some, hliteral, StringTable.get?, hempty]
    rfl
  · rw [hstores.literal, hd, Option.bind_some, Sheet.stored_of_uncached ((Sheet.cached?_of_cell? hd).trans hnone), hliteral,
      StringTable.get?, htexts]
    rfl

end Spreadsheet.Book
