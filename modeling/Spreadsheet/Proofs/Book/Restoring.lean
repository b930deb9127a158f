import Spreadsheet.Proofs.Book.Updating

/-! # Sheets that give back what was kept

* `Cell.Dangles`: a cell with a number that is past the end of the table.
* `Sheet.Stores`: a sheet whose cells look as if the kept values of another one had been stored in them.
* `Stores.literal_of_uncached`: a cell without a kept value stores what it stored, unless it dangles.
* `Stores.literal_of_text`: a cell gives back the text that was kept for it, as far as escapes do not count.
* `Sheet.Restores`, `Stores.restores`: without texts, all kept values are given back, and all else is as it was.
* `formulaText_congr`: a formula is known by the addresses and the formulas of all cells, since a group's formula may stand
  in any of them. -/

set_option autoImplicit false

namespace Spreadsheet

/-! ## Texts that are the same -/

theorem Text.eq_of_order {s t : List Char} (h : order s t = .eq) : s = t := by
  induction s generalizing t with
  | nil =>
    cases t with
    | nil => rfl
    | cons b t => cases h
  | cons a s ih =>
    cases t with
    | nil => cases h
    | cons b t =>
      rw [order, orderNat] at h
      by_cases hlt : a.toNat < b.toNat
      · rw [if_pos hlt] at h
        cases h
      · rw [if_neg hlt] at h
        by_cases heq : a.toNat = b.toNat
        · rw [if_pos heq] at h
          rw [Char.toNat_inj.mp heq, ih h]
        · rw [if_neg heq] at h
          cases h

theorem Text.order_self (s : List Char) : order s s = .eq := by
  induction s with
  | nil => rfl
  | cons a s ih => rw [order, orderNat, if_neg (Nat.lt_irrefl _), if_pos rfl, ih]

theorem Value.same_text_self (s : String) : (Value.text s).same (.text s) = true := by
  rw [same, compare, compareText, if_neg Bool.false_ne_true, Text.order_self]
  rfl

theorem Value.eq_of_same_text {v : Value} {s : String} (h : v.same (.text s) = true) :
    v = .text s ∨ (v = .blank ∧ s = "") := by
  cases v with
  | blank =>
    rw [same, compare] at h
    split at h
    next hempty => exact .inr ⟨rfl, String.isEmpty_iff.mp hempty⟩
    next => cases h
  | text u =>
    rw [same, compare, compareText, if_neg Bool.false_ne_true] at h
    cases horder : Text.order u.toList s.toList with
    | eq => exact .inl (congrArg Value.text (String.toList_inj.mp (Text.eq_of_order horder)))
    | lt =>
      rw [horder] at h
      cases h
    | gt =>
      rw [horder] at h
      cases h
  | _ => cases h

theorem Value.eq_some_of_same_text {o : Option Value} {s : String} (hs : s ≠ "")
    (h : (o.getD .blank).same (.text s) = true) : o = some (.text s) := by
  obtain htext | ⟨-, hempty⟩ := eq_of_same_text h
  · obtain hsome | ⟨-, hblank⟩ := Option.getD_eq_iff.mp htext
    · exact hsome
    · cases hblank
  · exact absurd hempty hs

namespace Book

open Grid

/-! ## Tables that are read again -/

/-- What is found of a table that has grown, when its part is read again: the old texts, and the new ones as they are or
without their escapes. -/
def StringTable.IsReadOf (old table t : StringTable) : Prop :=
  ∃ added read, table.strings = old.strings ++ added ∧ t.strings = old.strings ++ read ∧
    (read = added ∨ read = added.map decodeEscapes)

theorem StringTable.IsReadOf.old {old table t : StringTable} (h : old.IsReadOf table t) {i : Nat} {s : String}
    (hs : old.get? i = some s) : t.get? i = some s := by
  obtain ⟨added, read, -, hread, -⟩ := h
  obtain ⟨hi, -⟩ := List.getElem?_eq_some_iff.mp hs
  rw [get?, hread, List.getElem?_append_left hi]
  exact hs

theorem StringTable.IsReadOf.text {old table t : StringTable} (h : old.IsReadOf table t) {i : Nat} {s : String}
    (hs : table.get? i = some s) : ∃ x, t.get? i = some x ∧ IsReadAs s x := by
  obtain ⟨added, read, hadded, hread, hcases⟩ := h
  rw [get?, hadded] at hs
  rw [get?, hread]
  obtain hi | hi := Nat.lt_or_ge i old.strings.length
  · rw [List.getElem?_append_left hi] at hs ⊢
    exact ⟨s, hs, .inl rfl⟩
  · rw [List.getElem?_append_right hi] at hs ⊢
    obtain rfl | rfl := hcases
    · exact ⟨s, hs, .inl rfl⟩
    · rw [List.getElem?_map, hs]
      exact ⟨decodeEscapes s, rfl, .inr rfl⟩

/-! ## Literals in another table -/

namespace Cell

/-- A cell with a number that is past the end of the table. -/
def Dangles (c : Cell) (strings : StringTable) : Prop :=
  c.type? = some "s" ∧ ∃ raw i, c.raw? = some raw ∧
    Text.Numeral.readWord? 64 (Text.trimmed raw.toList) = some i ∧ strings.get? i = none

theorem literal_of_type_ne {c : Cell} (h : c.type? ≠ some "s") (t t' : StringTable) : c.literal t' = c.literal t := by
  unfold literal
  split
  next hs => exact absurd hs h
  all_goals rfl

theorem literal_of_shared {c : Cell} (h : c.type? = some "s") (t : StringTable) :
    c.literal t = c.raw?.bind (sharedText? t) := by
  rw [literal, h]
  rfl

theorem not_dangles {c : Cell} {strings : StringTable} (h : c.type? = some "s" → (c.literal strings).isSome = true) :
    ¬c.Dangles strings := by
  rintro ⟨htype, raw, i, hraw, hi, hget⟩
  have hsome := h htype
  rw [literal_of_shared htype, hraw, Option.bind_some, sharedText?, hi, Option.bind_some, hget] at hsome
  cases hsome

theorem literal_of_text {c : Cell} {t t' : StringTable}
    (h : ∀ {i s}, t.get? i = some s → ∃ x, t'.get? i = some x ∧ IsReadAs s x) {s : String}
    (hs : c.literal t = some (.text s)) : ∃ x, IsReadAs s x ∧ c.literal t' = some (.text x) := by
  by_cases htype : c.type? = some "s"
  · rw [literal_of_shared htype] at hs ⊢
    obtain ⟨raw, hraw, hshared⟩ := Option.bind_eq_some_iff.mp hs
    obtain ⟨u, hu, heq⟩ := Option.map_eq_some_iff.mp hshared
    cases heq
    obtain ⟨i, hi, hget⟩ := Option.bind_eq_some_iff.mp hu
    obtain ⟨x, hx, hreads⟩ := h hget
    refine ⟨x, hreads, ?_⟩
    rw [hraw, Option.bind_some, sharedText?, hi, Option.bind_some, hx]
    rfl
  · exact ⟨s, .inl rfl, (literal_of_type_ne htype t t').trans hs⟩

/-- A cell that does not dangle has the same literal in every table with the same texts, and more. -/
theorem literal_of_grown {c : Cell} {t t' : StringTable} (h : ∀ {i s}, t.get? i = some s → t'.get? i = some s)
    (hc : ¬c.Dangles t) : c.literal t' = c.literal t := by
  by_cases htype : c.type? = some "s"
  · rw [literal_of_shared htype, literal_of_shared htype]
    cases hraw : c.raw? with
    | none => rfl
    | some raw =>
      rw [Option.bind_some, Option.bind_some, sharedText?, sharedText?]
      cases hi : Text.Numeral.readWord? 64 (Text.trimmed raw.toList) with
      | none => rfl
      | some i =>
        rw [Option.bind_some, Option.bind_some]
        cases hget : t.get? i with
        | none => exact absurd ⟨htype, raw, i, hraw, hi, hget⟩ hc
        | some s => rw [h hget]
  · exact literal_of_type_ne htype t t'

theorem literal_ne_blank (c : Cell) (t : StringTable) : c.literal t ≠ some .blank := by
  have hplain : ∀ raw, plainValue raw ≠ .blank := fun raw => by
    unfold plainValue
    split <;> exact Value.noConfusion
  have htruth : ∀ raw, truth? raw ≠ some .blank := fun raw => by
    simp only [truth?]
    split
    · simp
    · split <;> simp
  have hinline : c.inlineText? ≠ some .blank := by
    unfold inlineText?
    split <;> simp
  intro h
  unfold literal at h
  split at h
  · obtain ⟨raw, -, hraw⟩ := Option.bind_eq_some_iff.mp h
    obtain ⟨u, -, heq⟩ := Option.map_eq_some_iff.mp hraw
    cases heq
  · simp at h
  · exact hinline h
  · obtain ⟨raw, -, hraw⟩ := Option.bind_eq_some_iff.mp h
    exact htruth raw hraw
  · obtain ⟨raw, -, hraw⟩ := Option.bind_eq_some_iff.mp h
    simp at hraw
  · simp at h
  · simp at h
  · simp [hplain] at h

theorem literal_afterStoring_nothing (c : Cell) (t : StringTable) : (c.afterStoring .nothing).literal t = none := by
  have hraw : (c.afterStoring .nothing).raw? = none := raw?_afterStoring c .nothing rfl
  have htype : (c.afterStoring .nothing).type? = none := type?_afterStoring c .nothing
  rw [literal, htype, hraw]
  rfl

theorem literal_congr {t t' : StringTable} (h : t'.strings = t.strings) (c : Cell) : c.literal t' = c.literal t := by
  have hget : t'.get? = t.get? := by
    funext i
    rw [StringTable.get?, StringTable.get?, h]
  have hshared : sharedText? t' = sharedText? t := by
    funext raw
    rw [sharedText?, sharedText?, hget]
  unfold literal
  rw [hshared]

end Cell

namespace Sheet

/-! ## Cells by address -/

theorem map_cell? {α : Type} {view : Cell → Address × α} (hview : ∀ c, (view c).1 = c.address) (s : Sheet) (a : Address) :
    (s.cell? a).map view = (s.cells.map view).find? fun x => x.1 == a.unanchored := by
  rw [List.find?_map, cell?]
  congr 2
  funext c
  rw [Function.comp_apply, hview]

theorem cached?_of_cell? {s : Sheet} {a : Address} {c : Cell} (h : s.cell? a = some c) :
    s.cached? c.address = s.cached? a := by
  rw [address_of_cell? h]
  rfl

/-! ## Formulas -/

def sourced (c : Cell) : Address × Option FormulaSource := (c.address, c.formulaSource?)

/-- The formula of a group, if a cell with its address and the source of its formula states it. -/
def stated? (group : String) (x : Address × Option FormulaSource) : Option SharedFormula :=
  match x.2 with
  | some (.shared g (some text)) => if g = group then some ⟨x.1, text⟩ else none
  | _ => none

theorem sharedFormula?_congr {s t : Sheet} (h : t.cells.map sourced = s.cells.map sourced) (group : String) :
    t.sharedFormula? group = s.sharedFormula? group := by
  have hstated : ∀ u : Sheet, u.sharedFormula? group = (u.cells.map sourced).reverse.findSome? (stated? group) := by
    intro u
    rw [sharedFormula?, ← List.map_reverse, List.findSome?_map]
    rfl
  rw [hstated, hstated, h]

theorem formula_congr {s t : Sheet} (h : t.cells.map sourced = s.cells.map sourced) (a : Address) :
    t.formula a = s.formula a := by
  have hcell : (t.cell? a).map sourced = (s.cell? a).map sourced := by
    rw [map_cell? (fun _ => rfl), map_cell? (fun _ => rfl), h]
  have hof : ∀ b source, t.formulaOf b source = s.formulaOf b source := by
    intro b source
    cases source with
    | own text => rfl
    | shared group text =>
      unfold formulaOf
      dsimp only
      rw [sharedFormula?_congr h]
  rw [formula, formula]
  cases hs : s.cell? a with
  | none =>
    rw [hs, Option.map_none, Option.map_eq_none_iff] at hcell
    rw [hcell]
  | some c =>
    rw [hs, Option.map_some, Option.map_eq_some_iff] at hcell
    obtain ⟨d, hd, heq⟩ := hcell
    obtain ⟨haddress, hsource⟩ := Prod.mk.inj heq
    rw [hd]
    dsimp only
    rw [haddress, hsource]
    cases c.formulaSource? with
    | none => rfl
    | some source => exact hof c.address source

theorem formulaText_congr {s t : Sheet} (h : t.cells.map sourced = s.cells.map sourced) (a : Address) :
    t.formulaText a = s.formulaText a := by
  have hsource : (t.cell? a).bind Cell.formulaSource? = (s.cell? a).bind Cell.formulaSource? := by
    have hview : ∀ u : Sheet, (u.cell? a).bind Cell.formulaSource? = ((u.cell? a).map sourced).bind (·.2) := by
      intro u
      cases u.cell? a <;> rfl
    rw [hview, hview, map_cell? (fun _ => rfl), map_cell? (fun _ => rfl), h]
  rw [formulaText, formulaText, hsource, formula_congr h]

/-! ## Stored values -/

theorem stored_of_uncached {s : Sheet} {tables : Address → StringTable} {shares : Bool} {c : Cell}
    (h : s.cached? c.address = none) : s.stored tables shares c = c := by
  rw [stored, pending?, h]
  rfl

theorem formulaSource?_stored (s : Sheet) (tables : Address → StringTable) (shares : Bool) (c : Cell) :
    (s.stored tables shares c).formulaSource? = c.formulaSource? := by
  unfold stored
  split
  · exact Cell.formulaSource?_afterStoring c _
  · rfl

theorem style?_stored (s : Sheet) (tables : Address → StringTable) (shares : Bool) (c : Cell) :
    (s.stored tables shares c).style? = c.style? := by
  unfold stored
  split
  · exact Cell.style?_afterStoring c _
  · rfl

theorem same_of_pending?_eq_none {s : Sheet} {strings : StringTable} {c : Cell} {v : Value}
    (hv : s.cached? c.address = some v) (h : s.pending? strings c = none) :
    ((c.literal strings).getD .blank).same v = true := by
  rw [pending?, hv, Option.filter_some] at h
  split at h
  · cases h
  next hsame => simpa using hsame

/-- A kept value is stored in its cell, unless the cell has it already. -/
theorem stored_cases {s : Sheet} (tables : Address → StringTable) (shares : Bool) {c : Cell} {v : Value}
    (hv : s.cached? c.address = some v) :
    (s.pending? (tables c.address) c = some v ∧
      s.stored tables shares c = c.afterStoring (storedValue v c.hasFormula (tables c.address) shares).1) ∨
    (((c.literal (tables c.address)).getD .blank).same v = true ∧ s.stored tables shares c = c) := by
  cases hpending : s.pending? (tables c.address) c with
  | some w =>
    have hw := (pending?_eq_some hpending).1
    rw [hv] at hw
    obtain rfl := Option.some.inj hw
    exact .inl ⟨rfl, by rw [stored, hpending]⟩
  | none => exact .inr ⟨same_of_pending?_eq_none hv hpending, by rw [stored, hpending]⟩

/-- The cell at an address has a number that is past the end of the table. -/
def Dangles (s : Sheet) (a : Address) (strings : StringTable) : Prop := ∃ c ∈ s.cell? a, c.Dangles strings

/-- A sheet whose cells look as if the kept values of another one had been stored in them one by one, whatever table their
texts are found in. -/
structure Stores (s : Sheet) (tables : Address → StringTable) (shares : Bool) (t : Sheet) : Prop where
  faces : ∀ strings, t.cells.map (Cell.face strings) =
    s.cells.map fun c => Cell.face strings (s.stored tables shares c)
  notes : t.notes = s.notes

namespace Stores

variable {s t : Sheet} {tables : Address → StringTable} {shares : Bool} (h : s.Stores tables shares t)

include h

theorem view {α : Type} (view : Address × Cell.Face → Option α) (strings : StringTable) (a : Address) :
    (t.cell? a).bind (fun c => view (Cell.face strings c)) =
      (s.cell? a).bind fun c => view (Cell.face strings (s.stored tables shares c)) := by
  have hcell : (t.cell? a).map (Cell.face strings) =
      (s.cell? a).map fun c => Cell.face strings (s.stored tables shares c) := by
    rw [map_cell? (fun _ => rfl), map_cell? (fun c => address_stored s tables shares c), h.faces]
  have hbind := congrArg (fun x => x.bind view) hcell
  rw [Option.bind_map, Option.bind_map] at hbind
  exact hbind

theorem literal (a : Address) (strings : StringTable) :
    t.literal a strings = (s.cell? a).bind fun c => (s.stored tables shares c).literal strings :=
  h.view (fun x => x.2.literal) strings a

theorem formulaText (a : Address) : t.formulaText a = s.formulaText a := by
  refine formulaText_congr ?_ a
  have hsourced := congrArg (List.map fun x : Address × Cell.Face => (x.1, x.2.formula)) (h.faces .empty)
  rw [List.map_map, List.map_map] at hsourced
  refine hsourced.trans (List.map_congr_left fun c _ => ?_)
  exact Prod.ext (address_stored s tables shares c) (formulaSource?_stored s tables shares c)

theorem style? (a : Address) : (t.cell? a).bind Cell.style? = (s.cell? a).bind Cell.style? := by
  refine (h.view (fun x => x.2.style) .empty a).trans ?_
  congr 1
  funext c
  exact style?_stored s tables shares c

theorem literal_of_uncached {old strings : StringTable} (hold : ∀ {i x}, old.get? i = some x → strings.get? i = some x)
    {a : Address} (hnone : s.cached? a = none) (hdangles : ¬s.Dangles a old) :
    t.literal a strings = s.literal a old := by
  rw [h.literal, Sheet.literal]
  cases hc : s.cell? a with
  | none => rfl
  | some c =>
    rw [Option.bind_some, Option.bind_some, stored_of_uncached ((cached?_of_cell? hc).trans hnone)]
    exact Cell.literal_of_grown hold fun hc' => hdangles ⟨c, hc, hc'⟩

theorem literal_of_text {old table strings : StringTable} (hbetween : s.Between shares old s.cells tables table)
    (hread : old.IsReadOf table strings) (hfew : 0 < table.references → table.strings.length < Nat.pow 2 64) {a : Address}
    (hcell : (s.cell? a).isSome) {x : String} (hx : x ≠ "") (hcached : s.cached? a = some (.text x)) :
    ∃ y, IsReadAs x y ∧ t.literal a strings = some (.text y) := by
  obtain ⟨c, hc⟩ := Option.isSome_iff_exists.mp hcell
  have hmem : c ∈ s.cells := List.mem_of_find?_eq_some hc
  have hcached : s.cached? c.address = some (.text x) := (cached?_of_cell? hc).trans hcached
  rw [h.literal, hc, Option.bind_some]
  obtain ⟨hpending, hstored⟩ | ⟨hsame, hstored⟩ := stored_cases tables shares hcached
  · have hempty : x.isEmpty = false := by simpa using hx
    rw [hstored]
    refine Cell.literal_afterStoring_text hempty c fun i hformula hshared => ?_
    obtain ⟨j, hj, hcounts⟩ | hinline := storedText_cases x (tables c.address) shares
    · rw [hj] at hshared
      cases hshared
      have hgrows := hbetween.grows_storedText hmem hformula hempty hpending
      have hlast := hgrows.get? hcounts.text
      obtain ⟨hi, -⟩ := List.getElem?_eq_some_iff.mp hlast
      exact ⟨Nat.lt_trans hi (hfew (Nat.lt_of_lt_of_le hcounts.pos hgrows.references)), hread.text hlast⟩
    · rw [hinline] at hshared
      cases hshared
  · -- The text is there already, and stays there.
    rw [hstored]
    exact Cell.literal_of_text (fun hs => hread.text ((hbetween.after c hmem).get? hs))
      (Value.eq_some_of_same_text hx hsame)

/-- The text that was kept for a formula is read without its escapes, unless the cell stores it already. -/
theorem literal_of_formula {strings : StringTable} {a : Address} {c : Cell} (hc : s.cell? a = some c)
    (hformula : c.hasFormula = true) {x : String} (hx : x ≠ "") (hcached : s.cached? a = some (.text x))
    (hnew : ∀ strings, c.literal strings ≠ some (.text x)) : t.literal a strings = some (.text (decodeEscapes x)) := by
  have hcached : s.cached? c.address = some (.text x) := (cached?_of_cell? hc).trans hcached
  rw [h.literal, hc, Option.bind_some]
  obtain ⟨-, hstored⟩ | ⟨hsame, -⟩ := stored_cases tables shares hcached
  · have hempty : x.isEmpty = false := by simpa using hx
    rw [hstored, storedValue_text hempty, if_pos hformula]
    exact Cell.literal_afterStoring_formulaText c x strings
  · exact absurd (Value.eq_some_of_same_text hx hsame) (hnew _)

/-- Where an empty text was kept the part stores nothing, or an empty text that was there before. -/
theorem literal_of_empty {old table strings : StringTable} (hbetween : s.Between shares old s.cells tables table)
    (hread : old.IsReadOf table strings) {a : Address} (hdangles : ¬s.Dangles a old)
    (hcached : s.cached? a = some (.text "")) : t.literal a strings = none ∨ t.literal a strings = some (.text "") := by
  rw [h.literal]
  cases hc : s.cell? a with
  | none => exact .inl rfl
  | some c =>
    have hmem : c ∈ s.cells := List.mem_of_find?_eq_some hc
    have hcached : s.cached? c.address = some (.text "") := (cached?_of_cell? hc).trans hcached
    rw [Option.bind_some]
    obtain ⟨-, hstored⟩ | ⟨hsame, hstored⟩ := stored_cases tables shares hcached
    · rw [hstored]
      exact .inl (Cell.literal_afterStoring_nothing c strings)
    · -- The cell has the same literal in all tables, unless that is a new text.
      have hdangles : ¬c.Dangles old := fun hc' => hdangles ⟨c, hc, hc'⟩
      have hgrown := Cell.literal_of_grown (fun hx => (hbetween.before c hmem).get? hx) hdangles
      rw [hgrown, ← Cell.literal_of_grown hread.old hdangles] at hsame
      rw [hstored]
      cases hliteral : c.literal strings with
      | none => exact .inl rfl
      | some v =>
        rw [hliteral, Option.getD_some] at hsame
        obtain rfl | ⟨rfl, -⟩ := Value.eq_of_same_text hsame
        · exact .inr rfl
        · exact absurd hliteral (Cell.literal_ne_blank c strings)

end Stores

end Sheet

end Book

end Spreadsheet
