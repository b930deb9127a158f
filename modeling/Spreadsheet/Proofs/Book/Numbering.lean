import Spreadsheet.Proofs.Book.Rewriting

/-! # Texts that cells hold by number

The cells of a sheet are rewritten one after the other. A text that a cell holds by its number is looked up in the table of
shared texts, or added at the end; a text that a formula gave, or one that must not be added, is not.

* `numbered`: the rewritten cells that hold the number of a text.
* `InStep`: rewritten cells and the table after them.
* `changes_inStep`: the cells and the table stay in step, by induction on the cells.
* `update_inStep`: the same of the part that is written for a sheet. -/

set_option autoImplicit false

namespace Spreadsheet.Book

open Markup Grid

namespace Sheet

/-! ## Cells and the table -/

def numbered (changed : List (Cell × Node)) : List (Cell × Node) := changed.filter fun p => p.2.attribute? "t" == some "s"

def numberedTexts (s : Sheet) (changed : List (Cell × Node)) : List String :=
  (numbered changed).filterMap fun p => (s.cached? p.1.address).bind Value.toText?

/-- A rewritten cell has no formula, and its value is the number of the text that is kept for it. -/
structure Refers (s : Sheet) (t : StringTable) (p : Cell × Node) : Prop where
  plain : p.1.hasFormula = false
  number : ∃ i x, s.cached? p.1.address = some (.text x) ∧ i < t.strings.length ∧ t.strings[i]? = some x ∧
    p.2.childrenNamed "v" = [valueElement (Text.Numeral.text i)]

/-- Rewritten cells and the table, from the first cell on and after the last one. -/
structure InStep (s : Sheet) (shares : Bool) (t : StringTable) (changed : List (Cell × Node)) (t' : StringTable) : Prop where
  refers : ∀ p ∈ numbered changed, s.Refers t' p
  /-- The new texts are added once each, in the order in which they are first needed. -/
  strings : t'.strings = t.strings ++ ((s.numberedTexts changed).filter fun x => x ∉ t.strings).eraseDups
  closed : shares = false ∨ t.part = none → t'.strings = t.strings
  references : t'.references = t.references + (numbered changed).length
  part : t'.part = t.part
  loaded : t'.loaded = t.loaded

theorem attribute?_storing (c : Cell) (value : Stored) : (c.storing value).attribute? "t" = value.type? c.hasFormula :=
  Cell.get?_tagWith_type c _

theorem Refers.grows {s : Sheet} {t t' : StringTable} {p : Cell × Node} (h : s.Refers t p) (hgrows : t.Grows t') :
    s.Refers t' p := by
  obtain ⟨i, x, hcached, -, hx, hvalue⟩ := h.number
  have hx' : t'.strings[i]? = some x := hgrows.get? hx
  exact ⟨h.plain, i, x, hcached, (List.getElem?_eq_some_iff.mp hx').1, hx', hvalue⟩

theorem InStep.nil (s : Sheet) (shares : Bool) (t : StringTable) : s.InStep shares t [] t where
  refers _ hp := nomatch hp
  strings := (List.append_nil _).symm
  closed _ := rfl
  references := rfl
  part := rfl
  loaded := rfl

section Cons

variable {s : Sheet} {shares : Bool} {t t₁ t' : StringTable} {c : Cell} {value : Stored} {changed : List (Cell × Node)}

/-- A cell that does not hold the number of a text leaves the table as it is. -/
theorem InStep.cons_of_ne (h : s.InStep shares t changed t') (hvalue : ∀ i, value ≠ .sharedText i) :
    s.InStep shares t ((c, c.storing value) :: changed) t' := by
  have hnumbered : numbered ((c, c.storing value) :: changed) = numbered changed := by
    refine List.filter_cons_of_neg fun htype => ?_
    rw [attribute?_storing, beq_iff_eq] at htype
    obtain ⟨i, hi⟩ := Cell.eq_sharedText_of_type? htype
    exact hvalue i hi
  have htexts : s.numberedTexts ((c, c.storing value) :: changed) = s.numberedTexts changed := by
    rw [numberedTexts, hnumbered, numberedTexts]
  exact ⟨hnumbered ▸ h.refers, htexts ▸ h.strings, h.closed, hnumbered ▸ h.references, h.part, h.loaded⟩

theorem eraseDups_filter_cons {x : String} {l texts : List String} :
    l ++ ((x :: texts).filter fun y => y ∉ l).eraseDups =
      (if x ∈ l then l else l ++ [x]) ++ (texts.filter fun y => y ∉ if x ∈ l then l else l ++ [x]).eraseDups := by
  by_cases hx : x ∈ l
  · rw [if_pos hx, List.filter_cons_of_neg (by simpa using hx)]
  · rw [if_neg hx, List.filter_cons_of_pos (by simpa using hx), List.eraseDups_cons, List.append_assoc,
      List.singleton_append, List.filter_filter]
    congr 4
    funext y
    by_cases hy : y = x
    · simp [hy]
    · simp [hy]

/-- A cell with the number of a text comes before others that find the table with that text. -/
theorem InStep.cons_shared (h : s.InStep shares t₁ changed t') (hgrows : t₁.Grows t') {x : String} {i : Nat}
    (hcounts : t.Counts shares x i t₁) (hcached : s.cached? c.address = some (.text x)) (hplain : c.hasFormula = false) :
    s.InStep shares t ((c, c.storing (.sharedText i)) :: changed) t' := by
  have hnumbered : numbered ((c, c.storing (.sharedText i)) :: changed) =
      (c, c.storing (.sharedText i)) :: numbered changed := by
    refine List.filter_cons_of_pos ?_
    rw [attribute?_storing, beq_iff_eq]
    rfl
  have htexts : s.numberedTexts ((c, c.storing (.sharedText i)) :: changed) = x :: s.numberedTexts changed := by
    rw [numberedTexts, hnumbered, List.filterMap_cons, hcached]
    rfl
  have hrefers : s.Refers t₁ (c, c.storing (.sharedText i)) := by
    have hx : t₁.strings[i]? = some x := hcounts.text
    exact ⟨hplain, i, x, hcached, (List.getElem?_eq_some_iff.mp hx).1, hx,
      Cell.childrenNamed_afterStoring c (.sharedText i) (.inl rfl)⟩
  refine ⟨fun p hp => ?_, ?_, fun hclosed => ?_, ?_, h.part.trans hcounts.part, h.loaded.trans hcounts.loaded⟩
  · rw [hnumbered] at hp
    obtain rfl | hp := List.mem_cons.mp hp
    · exact hrefers.grows hgrows
    · exact h.refers p hp
  · rw [htexts, eraseDups_filter_cons, ← hcounts.strings]
    exact h.strings
  · have hstrings : t₁.strings = t.strings := hcounts.strings.trans (if_pos (hcounts.known hclosed))
    exact (h.closed (hcounts.part ▸ hclosed)).trans hstrings
  · rw [hnumbered, h.references, hcounts.references, List.length_cons, Nat.add_right_comm, Nat.add_assoc]

end Cons

theorem changes_inStep (s : Sheet) (shares : Bool) (cells : List Cell) (t : StringTable) :
    s.InStep shares t (s.changes shares t cells).1 (s.changes shares t cells).2 := by
  induction cells generalizing t with
  | nil => exact .nil s shares t
  | cons c cells ih =>
    rw [changes_cons]
    have hrest := ih (s.tableAfter shares t c)
    cases hpending : s.pending? t c with
    | none =>
      rw [tableAfter, hpending] at hrest ⊢
      exact hrest
    | some v =>
      rw [tableAfter_of_pending shares hpending] at hrest ⊢
      obtain ⟨x, i, rfl, hplain, hstored, hcounts⟩ | ⟨hno, hsame⟩ := storedValue_cases v c.hasFormula t shares
      · have hgrows := grows_changes s shares cells (storedValue (.text x) c.hasFormula t shares).2
        have hcons := hrest.cons_shared hgrows hcounts (pending?_eq_some hpending).1 hplain
        rw [← hstored] at hcons
        exact hcons
      · rw [hsame] at hrest ⊢
        exact hrest.cons_of_ne hno

/-! ## The part of a sheet -/

/-- The cells that are rewritten in the part of a sheet stay in step with the table, whatever is in the cache and in the
table before. -/
theorem update_inStep {s : Sheet} (hcells : s.cells = index s.part) (t : StringTable) (shares : Bool) :
    s.InStep shares t (s.changes shares t s.cells).1 (s.update t shares).2 ∧
      ((s.update t shares).1 = none ↔ (s.changes shares t s.cells).1 = []) ∧
      ∀ part, (s.update t shares).1 = some part →
        Node.DiffersAt ((s.changes shares t s.cells).1.map (·.1.path)) s.part part ∧
          ∀ p ∈ (s.changes shares t s.cells).1, part.at? p.1.path = some p.2 := by
  obtain ⟨tables, last, h⟩ := exists_threads s shares (nodup_address_of_index hcells) t
  have hinStep := changes_inStep s shares s.cells t
  rw [← update_snd] at hinStep
  refine ⟨hinStep, ?_, fun part hpart => ?_⟩
  · rw [h.update_eq_none_iff, h.changes, List.map_eq_nil_iff]
  obtain rfl := h.update_eq_some hpart
  rw [h.changes]
  refine ⟨differsAt_replaceCells _ _, at?_replaceCells 4 (fun p hp => ?_) ?_⟩
  · -- All cells are at depth 4: they are children of rows, in an element below the root.
    obtain ⟨c, hc, rfl⟩ := List.mem_map.mp hp
    have hmem := mem_allCells_of_changing hcells tables c hc
    obtain ⟨-, -, -, i, j, k, l, hpath, -⟩ := path_of_mem_allCells hmem
    exact ⟨congrArg List.length hpath, Option.isSome_of_eq_some (at?_of_mem_allCells hmem)⟩
  · rw [List.map_map]
    exact nodup_path_of_changing hcells tables

/-- The text is added once and counted for the two cells without a formula. -/
theorem update_inStep_crowdedSheet : crowdedSheet.cells = index crowdedSheet.part ∧
    (crowdedSheet.update crowdedTable true).2.strings = ["a", "b"] ∧
      (crowdedSheet.update crowdedTable true).2.references = 2 := by
  have hinStep := (update_inStep (s := crowdedSheet) rfl crowdedTable true).1
  have hnumbered : (numbered (crowdedSheet.changes true crowdedTable crowdedSheet.cells).1).length = 2 := by decide +kernel
  have htexts : crowdedSheet.numberedTexts (crowdedSheet.changes true crowdedTable crowdedSheet.cells).1 = ["b", "b"] := by
    decide +kernel
  refine ⟨rfl, ?_, ?_⟩
  · rw [hinStep.strings, htexts]
    decide +kernel
  · rw [hinStep.references, hnumbered]
    rfl

end Sheet

end Spreadsheet.Book
