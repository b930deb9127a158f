import Spreadsheet.Proofs.Book.Restoring
import Spreadsheet.Proofs.Markup.Paths

/-! # Values that are stored once

Not every value is read back as it was kept: a NaN is stored as an error, an empty text as nothing, and the text of a
formula is read without its escapes. Such a value is pending again after it has been stored, but it is stored in the same
way again, and no further text or reference is needed for it.

* `Cell.storing_afterStoring`: storing a value again changes nothing.
* `StringTable.Leaves`: the table that a save leaves.
* `Sheet.IsSettled`: a cell that a further save leaves as it is.
* `Between.isSettled_stored`: such are all cells after their values have been stored.
* `Threads.update_unchanged`, `Threads.update_commit`: what a further update makes of a sheet. -/

set_option autoImplicit false

namespace Spreadsheet

/-! ## Attributes that are set again -/

namespace Markup.Tag

theorem set_set_self (t : Tag) (key value : String) : (t.set key value).set key value = t.set key value := by
  have hin : ∀ l : List (String × String), setIn key value (setIn key value l) = setIn key value l := by
    intro l
    induction l with
    | nil => simp [setIn]
    | cons a l ih =>
      rw [setIn]
      split
      next => simp [setIn]
      next h => rw [setIn, if_neg h, ih]
  exact congrArg (Tag.mk t.name) (hin t.attributes)

theorem erase_erase_self (t : Tag) (key : String) : (t.erase key).erase key = t.erase key :=
  congrArg (Tag.mk t.name) (List.filter_filter.trans (by simp))

end Markup.Tag

namespace Book

open Markup Grid

namespace Cell

/-! ## A value that is stored again -/

theorem hasFormula_afterStoring (c : Cell) (value : Stored) : (c.afterStoring value).hasFormula = c.hasFormula :=
  congrArg Option.isSome (formulaSource?_afterStoring c value)

theorem keptChildren_afterStoring (c : Cell) (value : Stored) : (c.afterStoring value).keptChildren = c.keptChildren := by
  refine filter_afterStoring (fun n hn => ?_) (fun n hn => ?_) c value
  · rw [Bool.and_eq_true, Bool.not_eq_true'] at hn
    exact hn.1
  · rw [Bool.and_eq_true, Bool.not_eq_true', Bool.not_eq_true'] at hn
    exact hn.2

theorem tagWith_afterStoring (c : Cell) (value : Stored) :
    (c.afterStoring value).tagWith (value.type? c.hasFormula) = (c.afterStoring value).tag := by
  unfold afterStoring tagWith
  cases value.type? c.hasFormula with
  | some t => exact Tag.set_set_self c.tag "t" t
  | none => exact Tag.erase_erase_self c.tag "t"

theorem storing_afterStoring (c : Cell) (value : Stored) :
    (c.afterStoring value).storing value = (c.afterStoring value).node := by
  rw [storing, hasFormula_afterStoring, tagWith_afterStoring, keptChildren_afterStoring]
  rfl

end Cell

/-! ## Tables that have been saved -/

/-- What a save leaves of a table that has grown from `first` to `last`. Texts are added only if they are shared, and the
numbers that stand in cells can be read. -/
structure StringTable.Leaves (shares : Bool) (first last final : StringTable) : Prop where
  strings : final.strings = last.strings
  part : final.part.isSome = first.part.isSome
  unshared : ¬(shares = true ∧ first.part.isSome = true) → last.strings = first.strings
  few : 0 < last.references → last.strings.length ≤ Nat.pow 2 64

theorem StringTable.position?_congr {t t' : StringTable} (h : t'.strings = t.strings) (s : String) :
    t'.position? s = t.position? s := by
  rw [position?, position?, h]

namespace Sheet

/-- A text stays in its cell when the table may not take it and does not have it. -/
theorem storedText_eq_inlineText_iff {x : String} {t : StringTable} {shares : Bool} :
    storedText x t shares = (.inlineText x, t) ↔ ¬(shares = true ∧ t.part.isSome = true) ∧ t.position? x = none := by
  constructor
  · intro h
    unfold storedText at h
    split at h
    · cases h
    next hshares =>
      refine ⟨hshares, ?_⟩
      unfold StringTable.referenceExisting at h
      cases hposition : t.position? x with
      | none => rfl
      | some i =>
        rw [hposition] at h
        cases h
  · rintro ⟨hshares, hposition⟩
    rw [storedText, if_neg hshares, StringTable.referenceExisting, hposition]

/-! ## Cells that are settled -/

/-- A cell that a save leaves as it is: the value that is kept for it is there, or is stored once more as it stands there
already, and the table stays the same. -/
def IsSettled (s : Sheet) (shares : Bool) (table : StringTable) (c : Cell) : Prop :=
  ∀ v, s.pending? table c = some v →
    ∃ value, storedValue v c.hasFormula table shares = (value, table) ∧ c.storing value = c.node

theorem pending?_congr {s : Sheet} {t t' : StringTable} {c : Cell} (h : c.literal t' = c.literal t) :
    s.pending? t' c = s.pending? t c := by
  rw [pending?, pending?, h]

theorem pending?_of_literal {s : Sheet} {t : StringTable} {c : Cell} {v : Value} (hcached : s.cached? c.address = some v)
    (hsame : ((c.literal t).getD .blank).same v = true) : s.pending? t c = none := by
  rw [pending?, hcached, Option.filter_some, hsame]
  rfl

section

variable {s : Sheet} {shares : Bool} {first last final : StringTable} {tables : Address → StringTable} {c : Cell}

theorem Between.pending?_eq_none (h : s.Between shares first s.cells tables last)
    (hfinal : StringTable.Leaves shares first last final) (hc : c ∈ s.cells) (hdangles : ¬c.Dangles first)
    (hnone : s.pending? (tables c.address) c = none) : s.pending? final c = none := by
  have hfirst : c.literal (tables c.address) = c.literal first := Cell.literal_of_grown (h.before c hc).get? hdangles
  have hlast : c.literal last = c.literal first :=
    Cell.literal_of_grown ((h.before c hc).trans (h.after c hc)).get? hdangles
  rw [← hnone]
  refine pending?_congr ?_
  rw [Cell.literal_congr hfinal.strings, hlast, hfirst]

/-- A text that is stored is found by its number, or is stored in the cell once more. -/
theorem Between.isSettled_text (h : s.Between shares first s.cells tables last)
    (hfinal : StringTable.Leaves shares first last final) (hc : c ∈ s.cells) {x : String} (hx : x.isEmpty = false)
    (hformula : c.hasFormula = false) (hpending : s.pending? (tables c.address) c = some (.text x))
    (hagain : s.pending? final (c.afterStoring (storedText x (tables c.address) shares).1) = some (.text x)) :
    storedText x final shares = ((storedText x (tables c.address) shares).1, final) := by
  have hbefore := h.before c hc
  obtain ⟨i, hshared, hcounts⟩ | hinline := storedText_cases x (tables c.address) shares
  · -- A text that is found by its number is there.
    have hgrows := h.grows_storedText hc hformula hx hpending
    have hlast := hgrows.get? hcounts.text
    obtain ⟨hi, -⟩ := List.getElem?_eq_some_iff.mp hlast
    have hlength := hfinal.few (Nat.lt_of_lt_of_le hcounts.pos hgrows.references)
    have hliteral : (c.afterStoring (.sharedText i)).literal last = some (.text x) :=
      Cell.literal_afterStoring_sharedText c (Nat.lt_of_lt_of_le hi hlength) hlast
    have hcached := (pending?_eq_some hpending).1
    have hnone : s.pending? final (c.afterStoring (.sharedText i)) = none := by
      refine pending?_of_literal hcached ?_
      rw [Cell.literal_congr hfinal.strings, hliteral]
      exact Value.same_text_self x
    rw [hshared, hnone] at hagain
    cases hagain
  · -- Texts that are not shared are not added to the table, so the text is still not there.
    obtain ⟨hshares, hposition⟩ := storedText_eq_inlineText_iff.mp hinline
    rw [hbefore.part] at hshares
    have hlast := hfinal.unshared hshares
    have hfirst : (tables c.address).strings = first.strings :=
      (hlast ▸ (h.after c hc).strings).eq_of_length_le hbefore.strings.length_le
    rw [hinline]
    refine storedText_eq_inlineText_iff.mpr ⟨by rw [hfinal.part]; exact hshares, ?_⟩
    have hstrings : final.strings = (tables c.address).strings := by rw [hfinal.strings, hlast, hfirst]
    rw [StringTable.position?_congr hstrings]
    exact hposition

theorem Between.isSettled_stored (h : s.Between shares first s.cells tables last)
    (hfinal : StringTable.Leaves shares first last final) (hc : c ∈ s.cells) (hdangles : ¬c.Dangles first) :
    s.IsSettled shares final (s.stored tables shares c) := by
  intro w hw
  unfold Sheet.stored at hw ⊢
  -- The value that is pending now is the one that was pending then, since the same values are kept.
  cases hpending : s.pending? (tables c.address) c with
  | none =>
    rw [hpending] at hw
    have hnone : s.pending? final c = none := h.pending?_eq_none hfinal hc hdangles hpending
    rw [hnone] at hw
    cases hw
  | some v =>
    rw [hpending] at hw
    dsimp only at hw ⊢
    have hcached : s.cached? c.address = some w := (pending?_eq_some hw).1
    obtain rfl : v = w := Option.some.inj ((pending?_eq_some hpending).1.symm.trans hcached)
    refine ⟨_, ?_, Cell.storing_afterStoring c _⟩
    rw [Cell.hasFormula_afterStoring]
    cases v with
    -- Only a text depends on the table.
    | text x =>
      rw [storedValue] at hw ⊢
      rw [storedValue]
      cases hx : x.isEmpty with
      | true => simp only [if_true]
      | false =>
        cases hformula : c.hasFormula with
        | true => simp only [Bool.false_eq_true, if_false, if_true]
        | false =>
          rw [hx, hformula] at hw
          simp only [Bool.false_eq_true, if_false] at hw ⊢
          exact h.isSettled_text hfinal hc hx hformula hpending hw
    | _ => rfl

end

/-! ## Sheets that are settled -/

theorem changes_of_isSettled {s : Sheet} {shares : Bool} {table : StringTable} {cells : List Cell}
    (h : ∀ c ∈ cells, s.IsSettled shares table c) :
    s.changes shares table cells = ((s.changing (fun _ => table) cells).map fun c => (c, c.node), table) := by
  induction cells with
  | nil => rfl
  | cons c cells ih =>
    have hrest := ih fun d hd => h d (List.mem_cons_of_mem _ hd)
    unfold changing at hrest ⊢
    rw [changes_cons, List.filter_cons]
    cases hpending : s.pending? table c with
    | none =>
      have htable : s.tableAfter shares table c = table := by rw [tableAfter, hpending]
      rw [htable, hrest]
      rfl
    | some v =>
      obtain ⟨value, hvalue, hnode⟩ := h c (List.mem_cons_self ..) v hpending
      have htable : s.tableAfter shares table c = table := by rw [tableAfter_of_pending shares hpending, hvalue]
      rw [htable, hrest, Option.map_some, hvalue, hnode]
      rfl

theorem at?_of_mem_allCells {part : Node} {c : Cell} (h : c ∈ allCells part) : part.at? c.path = some c.node := by
  have hchild : ∀ {n m : Node} {i : Nat}, (m, i) ∈ n.children.zipIdx → n.children[i]? = some m :=
    fun hm => List.mem_zipIdx_iff_getElem?.mp hm
  obtain ⟨root, data, row, i, j, k, l, hpath, hroot, hdata, hrow, hcell, -⟩ := path_of_mem_allCells h
  simp only [hpath, Node.at?, hchild (List.mem_of_find?_eq_some hroot), hchild (List.mem_of_find?_eq_some hdata),
    hchild hrow, hchild hcell, Option.bind_some]

theorem replaceCells_self {part : Node} {cells : List Cell} (h : ∀ c ∈ cells, c ∈ allCells part) :
    replaceCells part (cells.map fun c => (c, c.node)) = part := by
  induction cells with
  | nil => rfl
  | cons c cells ih =>
    have hfirst := Node.replaceAt_self (at?_of_mem_allCells (h c (List.mem_cons_self ..)))
    have hfold : replaceCells part ((c :: cells).map fun c => (c, c.node)) =
        replaceCells (Node.replaceAt c.node c.path part) (cells.map fun c => (c, c.node)) := rfl
    rw [hfold, hfirst]
    exact ih fun d hd => h d (List.mem_cons_of_mem _ hd)

theorem update_of_isSettled {s : Sheet} {shares : Bool} {table : StringTable} (hcells : s.cells = index s.part)
    (h : ∀ c ∈ s.cells, s.IsSettled shares table c) :
    (s.update table shares).2 = table ∧ ∀ part, (s.update table shares).1 = some part → part = s.part := by
  have hchanges := changes_of_isSettled h
  refine ⟨by rw [update_snd, hchanges], fun part hpart => ?_⟩
  rw [update, hchanges] at hpart
  split at hpart
  · cases hpart
  next heq =>
    obtain ⟨rfl, -⟩ := Prod.mk.inj heq
    rw [← Option.some.inj hpart]
    exact replaceCells_self (mem_allCells_of_changing hcells _)

section

variable {s : Sheet} {shares : Bool} {start stop first last final : StringTable} {tables : Address → StringTable}

theorem Threads.update_unchanged (h : s.Threads shares start s.cells tables stop)
    (hbetween : s.Between shares first s.cells tables last) (hfinal : StringTable.Leaves shares first last final)
    (hdangles : ∀ c ∈ s.cells, ¬c.Dangles first) (hnone : (s.update start shares).1 = none) :
    s.update final shares = (none, final) := by
  have hpending : ∀ c ∈ s.cells, s.pending? final c = none := by
    intro c hc
    refine hbetween.pending?_eq_none hfinal hc (hdangles c hc) ?_
    exact Option.not_isSome_iff_eq_none.mp (List.filter_eq_nil_iff.mp (h.update_eq_none_iff.mp hnone) c hc)
  have hsettled : ∀ c ∈ s.cells, s.IsSettled shares final c := by
    intro c hc v hv
    rw [hpending c hc] at hv
    cases hv
  have hchanging : s.changing (fun _ => final) s.cells = [] :=
    List.filter_eq_nil_iff.mpr fun c hc => by rw [hpending c hc]; exact Bool.false_ne_true
  rw [update, changes_of_isSettled hsettled, hchanging]
  rfl

theorem Threads.update_commit (h : s.Threads shares start s.cells tables stop)
    (hbetween : s.Between shares first s.cells tables last) (hfinal : StringTable.Leaves shares first last final)
    (hdangles : ∀ c ∈ s.cells, ¬c.Dangles first) (hcells : s.cells = index s.part) {part : Node}
    (hpart : (s.update start shares).1 = some part) :
    ((s.commit part).update final shares).2 = final ∧
      ∀ other, ((s.commit part).update final shares).1 = some other → other = part := by
  refine update_of_isSettled (s := s.commit part) rfl fun d hd => ?_
  rw [h.cells_commit hcells hpart] at hd
  obtain ⟨c, hc, rfl⟩ := List.mem_map.mp hd
  exact hbetween.isSettled_stored hfinal hc (hdangles c hc)

end

end Sheet

end Book

end Spreadsheet
