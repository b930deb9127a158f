import Spreadsheet.Book.Sheet
import Spreadsheet.Proofs.Grid.Written

/-! # Where the cells of a sheet stand

Every cell that is found in a part has a place on the grid, whether it says its address or stands next to another cell. Of
the cells at one address the last one counts. -/

set_option autoImplicit false

namespace Spreadsheet.Book.Sheet

open Markup Grid

/-- An address on the grid without anchors. -/
def IsPlace (a : Address) : Prop := a.OnGrid ∧ a.unanchored = a

theorem isPlace_unanchored {a : Address} (h : a.OnGrid) : IsPlace a.unanchored := ⟨h, rfl⟩

theorem rowNumber?_bounds {last : Nat} {row : Node} {n : Nat} (h : rowNumber? last row = some n) :
    1 ≤ n ∧ n ≤ maxRows := by
  have hbounds := (Option.filter_eq_some_iff.mp h).2
  simpa using hbounds

theorem nextColumn?_lt {last : Option Nat} {column : Nat} (h : nextColumn? last = some column) : column < maxColumns := by
  cases last with
  | none =>
    cases h
    decide
  | some c =>
    rw [nextColumn?] at h
    split at h
    · cases h
      assumption
    · cases h

theorem isPlace_of_placeOf? {row last : Option Nat} {n : Node} {a : Address}
    (hrow : ∀ r ∈ row, 1 ≤ r ∧ r ≤ maxRows) (h : placeOf? row last n = some a) : IsPlace a := by
  unfold placeOf? at h
  split at h
  next b hb =>
    cases h
    obtain ⟨s, -, hread⟩ := Option.bind_eq_some_iff.mp hb
    exact isPlace_unanchored (Address.onGrid_of_read? hread)
  next =>
    split at h
    next r c hcolumn =>
      cases h
      obtain ⟨hlow, hhigh⟩ := hrow r rfl
      exact ⟨Address.onGrid_ofNat hlow hhigh (nextColumn?_lt hcolumn) _ _, rfl⟩
    next => cases h

theorem isPlace_of_mem_cellsOfRow {row : Option Nat} (hrow : ∀ r ∈ row, 1 ≤ r ∧ r ≤ maxRows) {path : List Nat}
    {last : Option Nat} {nodes : List (Node × Nat)} {c : Cell} (h : c ∈ cellsOfRow row path last nodes) :
    IsPlace c.address := by
  induction nodes generalizing last with
  | nil => cases h
  | cons node rest ih =>
    obtain ⟨n, i⟩ := node
    cases n with
    | element tag children =>
      rw [cellsOfRow] at h
      split at h
      · split at h
        next a ha =>
          obtain rfl | hrest := List.mem_cons.mp h
          · exact isPlace_of_placeOf? hrow ha
          · exact ih hrest
        next => exact ih h
      · exact ih h
    | _ => exact ih h

theorem isPlace_of_mem_cellsOfRows {path : List Nat} {last : Nat} {nodes : List (Node × Nat)} {c : Cell}
    (h : c ∈ cellsOfRows path last nodes) : IsPlace c.address := by
  induction nodes generalizing last with
  | nil => cases h
  | cons node rest ih =>
    obtain ⟨n, i⟩ := node
    rw [cellsOfRows] at h
    split at h
    · obtain hrow | hrest := List.mem_append.mp h
      · exact isPlace_of_mem_cellsOfRow (fun r hr => rowNumber?_bounds hr) hrow
      · exact ih hrest
    · exact ih h

theorem isPlace_of_mem_allCells {part : Node} {c : Cell} (h : c ∈ allCells part) : IsPlace c.address := by
  unfold allCells at h
  split at h
  next => cases h
  next =>
    split at h
    next => cases h
    next => exact isPlace_of_mem_cellsOfRows h

/-! ## The last cell of an address -/

theorem mem_insert {c d : Cell} {cells : List Cell} :
    d ∈ insert c cells ↔ d = c ∨ d ∈ cells ∧ d.address ≠ c.address := by
  rw [insert]
  split
  next hany =>
    obtain ⟨e, he, heq⟩ := List.any_eq_true.mp hany
    rw [List.mem_map]
    constructor
    · rintro ⟨x, hx, rfl⟩
      split
      next => exact .inl rfl
      next hne => exact .inr ⟨hx, hne⟩
    · rintro (rfl | ⟨hd, hne⟩)
      · exact ⟨e, he, if_pos (eq_of_beq heq)⟩
      · exact ⟨d, hd, if_neg hne⟩
  next hnone =>
    rw [List.mem_cons]
    refine or_congr_right (iff_self_and.mpr fun hd heq => hnone ?_)
    exact List.any_eq_true.mpr ⟨d, hd, beq_iff_eq.mpr heq⟩

/-- A cell is found at its address if no later cell of the part has the same one. -/
theorem mem_index_iff {part : Node} {c : Cell} :
    c ∈ index part ↔ ∃ before after, allCells part = before ++ c :: after ∧ ∀ d ∈ after, d.address ≠ c.address := by
  have hfold : ∀ l cells : List Cell, c ∈ l.foldl (fun cells d => insert d cells) cells ↔
      (∃ before after, l = before ++ c :: after ∧ ∀ d ∈ after, d.address ≠ c.address) ∨
        c ∈ cells ∧ ∀ d ∈ l, d.address ≠ c.address := by
    intro l
    induction l with
    | nil => simp
    | cons e l ih =>
      intro cells
      rw [List.foldl_cons, ih, mem_insert]
      constructor
      · rintro (⟨before, after, rfl, hafter⟩ | ⟨rfl | ⟨hc, hne⟩, hl⟩)
        · exact .inl ⟨e :: before, after, rfl, hafter⟩
        · exact .inl ⟨[], l, rfl, hl⟩
        · exact .inr ⟨hc, List.forall_mem_cons.mpr ⟨hne.symm, hl⟩⟩
      · rintro (⟨before, after, hl, hafter⟩ | ⟨hc, hl⟩)
        · cases before with
          | nil =>
            obtain ⟨rfl, rfl⟩ := List.cons.inj hl
            exact .inr ⟨.inl rfl, hafter⟩
          | cons d before =>
            obtain ⟨rfl, rfl⟩ := List.cons.inj hl
            exact .inl ⟨before, after, rfl, hafter⟩
        · obtain ⟨hne, hl⟩ := List.forall_mem_cons.mp hl
          exact .inr ⟨.inr ⟨hc, hne.symm⟩, hl⟩
  rw [index, List.mem_reverse, hfold]
  simp

theorem mem_allCells_of_mem_index {part : Node} {c : Cell} (h : c ∈ index part) : c ∈ allCells part := by
  obtain ⟨before, after, hall, -⟩ := mem_index_iff.mp h
  rw [hall]
  exact List.mem_append_cons_self

theorem isPlace_of_mem_index {part : Node} {c : Cell} (h : c ∈ index part) : IsPlace c.address :=
  isPlace_of_mem_allCells (mem_allCells_of_mem_index h)

theorem address_of_cell? {s : Sheet} {a : Address} {c : Cell} (h : s.cell? a = some c) : c.address = a.unanchored := by
  have hfound := List.find?_some h
  exact eq_of_beq hfound

end Spreadsheet.Book.Sheet
