import Spreadsheet.Proofs.Book.Settling
import Spreadsheet.Proofs.Number.RoundTrip
import Mathlib.Data.List.Forall2

/-! # Parts that are rewritten

When the kept values of a sheet are stored, only the elements of cells change whose values differ, and only what holds the
value. No other cell, no inferred address and no formula is touched.

* `Value.IsPlain`: the values that are no texts and that a cell can store.
* `differing`: the cells with a kept value that is not there already.
* `Cell.Keeps`: what a cell keeps when its element is rewritten.
* `Rewrites`: a part and the part that is written for it, as a tree and cell by cell.
* `update_eq_none_iff`, `rewrites_update`: when a part is written, and what it is. -/

set_option autoImplicit false

namespace Spreadsheet

/-! ## Attributes -/

namespace Markup.Tag

theorem filter_setIn (key value : String) (l : List (String × String)) :
    ((setIn key value l).filter fun a => a.1 ≠ key) = l.filter fun a => a.1 ≠ key := by
  induction l with
  | nil => simp [setIn]
  | cons a l ih =>
    rw [setIn]
    split
    next h => simp [h]
    next h => rw [List.filter_cons, List.filter_cons, ih]

end Markup.Tag

/-! ## Values -/

namespace Value

/-- A blank, a truth value or a finite number. -/
def IsPlain : Value → Prop
  | blank => True
  | truth _ => True
  | number x => Number.isFinite x = true
  | text _ => False

theorem IsPlain.isStorable {v : Value} (h : v.IsPlain) : v.IsStorable := by
  cases v with
  | number x => exact ⟨h, Number.readsBack_of_isFinite h⟩
  | blank => trivial
  | truth b => trivial
  | text s => exact h

end Value

namespace Book

open Markup Grid

/-! ## What a cell keeps -/

namespace Cell

/-- What a cell keeps when its element is rewritten: everything but its type and the elements with its value. -/
structure Keeps (c d : Cell) : Prop where
  address : d.address = c.address
  path : d.path = c.path
  name : d.tag.name = c.tag.name
  attributes : (d.tag.attributes.filter fun a => a.1 ≠ "t") = c.tag.attributes.filter fun a => a.1 ≠ "t"
  children : d.keptChildren = c.keptChildren
  formulaSource : d.formulaSource? = c.formulaSource?
  style : d.style? = c.style?

theorem Keeps.refl (c : Cell) : c.Keeps c := ⟨rfl, rfl, rfl, rfl, rfl, rfl, rfl⟩

theorem keeps_afterStoring (c : Cell) (value : Stored) : c.Keeps (c.afterStoring value) where
  address := rfl
  path := rfl
  name := name_tagWith c _
  attributes := by
    show ((c.tagWith _).attributes.filter _) = _
    unfold tagWith
    split
    next type _ => exact Tag.filter_setIn "t" type c.tag.attributes
    next => rw [Tag.erase, List.filter_filter]; simp only [Bool.and_self]
  children := keptChildren_afterStoring c value
  formulaSource := formulaSource?_afterStoring c value
  style := style?_afterStoring c value

end Cell

namespace Sheet

/-! ## The tree -/

theorem differsAt_replaceCells (part : Node) (changed : List (Cell × Node)) :
    Node.DiffersAt (changed.map (·.1.path)) part (replaceCells part changed) := by
  induction changed generalizing part with
  | nil => exact .refl part
  | cons p changed ih => exact (Node.differsAt_replaceAt p.2 p.1.path part).trans (ih _)

theorem at?_replaceCells {part : Node} {changed : List (Cell × Node)} (depth : Nat)
    (hplaces : ∀ p ∈ changed, p.1.path.length = depth ∧ (part.at? p.1.path).isSome = true)
    (hnodup : (changed.map (·.1.path)).Nodup) :
    ∀ p ∈ changed, (replaceCells part changed).at? p.1.path = some p.2 := by
  induction changed generalizing part with
  | nil => exact fun p hp => nomatch hp
  | cons q changed ih =>
    rw [List.map_cons, List.nodup_cons] at hnodup
    obtain ⟨hlength, hfound⟩ := hplaces q (List.mem_cons_self ..)
    -- Different places of one depth are beside each other.
    have hbeside : ∀ {p p' : List Nat}, p.length = depth → p'.length = depth → p ≠ p' → ¬p <+: p' :=
      fun hp hp' hne hle => hne (List.IsPrefix.eq_of_length hle (hp.trans hp'.symm))
    have hne : ∀ p ∈ changed, p.1.path ≠ q.1.path := fun p hp heq =>
      hnodup.1 (List.mem_map.mpr ⟨p, hp, heq⟩)
    intro p hp
    obtain rfl | hp := List.mem_cons.mp hp
    · have hrest := (differsAt_replaceCells (Node.replaceAt p.2 p.1.path part) changed).beside (q := p.1.path)
        fun path hpath => by
          obtain ⟨r, hr, rfl⟩ := List.mem_map.mp hpath
          have hr' := (hplaces r (List.mem_cons_of_mem _ hr)).1
          exact ⟨hbeside hr' hlength (hne r hr), hbeside hlength hr' (hne r hr).symm⟩
      exact hrest.trans (Node.at?_replaceAt_self hfound)
    · refine ih (fun r hr => ?_) hnodup.2 p hp
      obtain ⟨hr', hfoundr⟩ := hplaces r (List.mem_cons_of_mem _ hr)
      refine ⟨hr', ?_⟩
      dsimp only
      rw [Node.at?_replaceAt_of_beside (hbeside hlength hr' (hne r hr).symm) (hbeside hr' hlength (hne r hr))]
      exact hfoundr

/-! ## Cells that differ -/

/-- Whether a value is kept for a cell that is not the one that the part stores; a cell that stores none is blank. -/
def differs (s : Sheet) (t : StringTable) (c : Cell) : Bool :=
  (s.cached? c.address).any fun v => !((c.literal t).getD .blank).same v

def differing (s : Sheet) (t : StringTable) : List Cell := s.cells.filter (s.differs t)

theorem isSome_pending? (s : Sheet) (t : StringTable) (c : Cell) : (s.pending? t c).isSome = s.differs t c := by
  rw [pending?, differs]
  cases s.cached? c.address with
  | none => rfl
  | some v =>
    rw [Option.filter_some, Option.any_some]
    cases ((c.literal t).getD .blank).same v <;> rfl

/-- A cell of a part and the one in its place in the part that is written for it. -/
structure RewritesCell (s : Sheet) (t : StringTable) (part : Node) (t' : StringTable) (c d : Cell) : Prop where
  keeps : c.Keeps d
  element : part.at? d.path = some d.node
  same : s.differs t c = false → d = c
  /-- A kept value other than a text is read again, and so is a text that is stored by its number. -/
  restored : s.differs t c = true → ∀ v, s.cached? c.address = some v →
    v.IsPlain ∨ d.type? = some "s" ∧ t'.strings.length ≤ Nat.pow 2 64 → (d.literal t').getD .blank = v

/-- The part of a sheet and the one that is written for it, with the tables of texts before and after. -/
structure Rewrites (s : Sheet) (t : StringTable) (part : Node) (t' : StringTable) : Prop where
  /-- Of the cells at one address only the last one is rewritten. -/
  last : ∀ c ∈ s.differing t, ∃ before after, allCells s.part = before ++ c :: after ∧
    ∀ d ∈ after, d.address ≠ c.address
  tree : Node.DiffersAt ((s.differing t).map (·.path)) s.part part
  cells : List.Forall₂ (s.RewritesCell t part t') s.cells (index part)
  shared : ∀ group, (s.commit part).sharedFormula? group = s.sharedFormula? group

section

variable {s : Sheet} {shares : Bool} {t last : StringTable} {tables : Address → StringTable}

theorem Between.pending?_eq (h : s.Between shares t s.cells tables last) {c : Cell} (hc : c ∈ s.cells)
    (hdangles : ¬c.Dangles t) : s.pending? (tables c.address) c = s.pending? t c :=
  pending?_congr (Cell.literal_of_grown (h.before c hc).get? hdangles)

theorem Threads.changing_eq (h : s.Threads shares t s.cells tables last) (hdangles : ∀ c ∈ s.cells, ¬c.Dangles t) :
    s.changing tables s.cells = s.differing t :=
  List.filter_congr fun c hc => by rw [h.pending?_eq hc (hdangles c hc), isSome_pending?]

theorem Threads.restored (h : s.Threads shares t s.cells tables last) {c : Cell} (hc : c ∈ s.cells) {v : Value}
    (hpending : s.pending? (tables c.address) c = some v)
    (hv : v.IsPlain ∨ (s.stored tables shares c).type? = some "s" ∧ last.strings.length ≤ Nat.pow 2 64) :
    ((s.stored tables shares c).literal last).getD .blank = v := by
  have hstored : s.stored tables shares c =
      c.afterStoring (storedValue v c.hasFormula (tables c.address) shares).1 := by rw [Sheet.stored, hpending]
  rw [hstored] at hv ⊢
  obtain hv | ⟨htype, hfew⟩ := hv
  · exact Cell.literal_afterStoring hv.isStorable c _ _ shares
  · rw [Cell.type?_afterStoring] at htype
    obtain ⟨i, hi⟩ := Cell.eq_sharedText_of_type? htype
    obtain ⟨x, j, rfl, -, hj, hcounts⟩ | ⟨hno, -⟩ := storedValue_cases v c.hasFormula (tables c.address) shares
    · have hx : last.get? j = some x := (h.stored c hc _ hpending).get? hcounts.text
      obtain ⟨hlt, -⟩ := List.getElem?_eq_some_iff.mp hx
      rw [hj, Cell.literal_afterStoring_sharedText c (Nat.lt_of_lt_of_le hlt hfew) hx]
      rfl
    · exact absurd hi (hno i)

end

/-- A part is written if a kept value differs from what a cell stores, and what is written keeps everything else. -/
theorem rewrites_update {s : Sheet} (hcells : s.cells = index s.part) {t : StringTable} (shares : Bool)
    (hdangles : ∀ c ∈ s.cells, ¬c.Dangles t) :
    ((s.update t shares).1 = none ↔ s.differing t = []) ∧
      ∀ part, (s.update t shares).1 = some part → s.Rewrites t part (s.update t shares).2 := by
  obtain ⟨tables, last, h⟩ := exists_threads s shares (nodup_address_of_index hcells) t
  have hchanging := h.changing_eq hdangles
  have hmem := mem_allCells_of_changing hcells tables
  refine ⟨hchanging ▸ h.update_eq_none_iff, fun part hpart => ?_⟩
  have hpart' := h.update_eq_some hpart
  rw [hchanging] at hmem hpart'
  have hindex : index part = s.cells.map (s.stored tables shares) := h.cells_commit hcells hpart
  refine ⟨fun c hc => ?_, ?_, ?_, fun group => ?_⟩
  · exact mem_index_iff.mp (hcells ▸ (List.mem_filter.mp hc).1)
  · have hdiffers := differsAt_replaceCells s.part ((s.differing t).map fun c => (c, (s.stored tables shares c).node))
    rw [← hpart', List.map_map] at hdiffers
    exact hdiffers
  · rw [hindex, List.forall₂_map_right_iff, List.forall₂_same]
    intro c hc
    have hstoredMem : s.stored tables shares c ∈ index part := by
      rw [hindex]
      exact List.mem_map_of_mem hc
    refine ⟨?_, at?_of_mem_allCells (mem_allCells_of_mem_index hstoredMem), fun hsame => ?_, fun hdiffers v hv hread => ?_⟩
    · unfold Sheet.stored
      split
      · exact Cell.keeps_afterStoring c _
      · exact .refl c
    · have hpending : s.pending? (tables c.address) c = none := by
        rw [h.pending?_eq hc (hdangles c hc), ← Option.not_isSome_iff_eq_none, isSome_pending?, hsame]
        exact Bool.false_ne_true
      rw [Sheet.stored, hpending]
    · rw [h.update_snd] at hread ⊢
      have hsome : (s.pending? (tables c.address) c).isSome = true := by
        rw [h.pending?_eq hc (hdangles c hc), isSome_pending?, hdiffers]
      obtain ⟨w, hw⟩ := Option.isSome_iff_exists.mp hsome
      obtain rfl : w = v := Option.some.inj ((pending?_eq_some hw).1.symm.trans hv)
      exact h.restored hc hw hread
  · refine sharedFormula?_congr ?_ group
    show (index part).map sourced = s.cells.map sourced
    rw [hindex, List.map_map]
    refine List.map_congr_left fun c _ => ?_
    rw [Function.comp_apply, sourced, sourced, address_stored, formulaSource?_stored]

/-- A row with two cells that say `A1`, the number of a text in `B1`, a formula in `C1` and an empty cell after it. -/
def crowdedPart : Node :=
  .document [.element (.named "worksheet") [.element (.named "sheetData") [.element (.named "row")
    [.element (.named "c") [valueElement "1"], .element ⟨"c", [("r", "A1"), ("s", "2")]⟩ [],
      .element ⟨"c", [("t", "s")]⟩ [valueElement "0"], .element (.named "c") [.element (.named "f") [.text "A1"]],
      .element (.named "c") []]]]]

/-- The sheet of the part; the text that is kept for `B1` is the one that is there already. -/
def crowdedSheet : Sheet :=
  { ofTree "S" "s.xml" crowdedPart [] with
    cache := [(.plain 1 0, .text "b"), (.plain 1 1, .text "a"), (.plain 1 2, .text "b"), (.plain 1 3, .text "b")] }

def crowdedTable : StringTable := .ofTree (.document [.element (.named "sst") [stringItem "a"]])

/-- Three cells are rewritten, and of those that say `A1` only the second one. -/
theorem rewrites_update_crowdedSheet :
    crowdedSheet.cells = index crowdedSheet.part ∧ (∀ c ∈ crowdedSheet.cells, ¬c.Dangles crowdedTable) ∧
      (crowdedSheet.differing crowdedTable).map (·.path) = [[0, 0, 0, 1], [0, 0, 0, 3], [0, 0, 0, 4]] ∧
        ∃ part, (crowdedSheet.update crowdedTable true).1 = some part ∧
          crowdedSheet.Rewrites crowdedTable part (crowdedSheet.update crowdedTable true).2 := by
  have htexts : ∀ c ∈ crowdedSheet.cells, c.type? = some "s" → (c.literal crowdedTable).isSome = true := by
    decide +kernel
  have hdangles : ∀ c ∈ crowdedSheet.cells, ¬c.Dangles crowdedTable := fun c hc => Cell.not_dangles (htexts c hc)
  have hplaces : (crowdedSheet.differing crowdedTable).map (·.path) = [[0, 0, 0, 1], [0, 0, 0, 3], [0, 0, 0, 4]] := by
    decide +kernel
  obtain ⟨hnone, hsome⟩ := rewrites_update (s := crowdedSheet) rfl true hdangles
  refine ⟨rfl, hdangles, hplaces, ?_⟩
  cases hpart : (crowdedSheet.update crowdedTable true).1 with
  | none =>
    rw [hnone.mp hpart] at hplaces
    cases hplaces
  | some part => exact ⟨part, rfl, hsome part hpart⟩

end Sheet

end Book

end Spreadsheet
