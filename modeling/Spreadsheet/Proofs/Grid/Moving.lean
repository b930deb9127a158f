import Spreadsheet.Grid.Rect

/-! # Addresses and blocks that are moved

* `Aligned`: two lists whose elements correspond one by one.
* `move?_plain_eq_some`: where an address without anchors is moved to.
* `IsMoved`, `LeavesGrid`: what a move does to each axis of an address, and when it fails.
* `move?_move?`: moves one after the other.
* `Rect.IsShifted`: a block and the block that lies at a displacement from it.
* `move?_cells`: the cells of such blocks correspond one by one, in the same order. -/

set_option autoImplicit false

namespace Spreadsheet

/-- Two lists of the same length whose elements correspond one by one. -/
inductive Aligned {α β : Type} (R : α → β → Prop) : List α → List β → Prop where
  | nil : Aligned R [] []
  | cons {x : α} {y : β} {xs : List α} {ys : List β} (head : R x y) (tail : Aligned R xs ys) :
      Aligned R (x :: xs) (y :: ys)

theorem Aligned.length_eq {α β : Type} {R : α → β → Prop} {xs : List α} {ys : List β} (h : Aligned R xs ys) :
    xs.length = ys.length := by
  induction h with
  | nil => rfl
  | cons _ _ ih => rw [List.length_cons, List.length_cons, ih]

theorem Aligned.append {α β : Type} {R : α → β → Prop} {xs xs' : List α} {ys ys' : List β} (h : Aligned R xs ys)
    (h' : Aligned R xs' ys') : Aligned R (xs ++ xs') (ys ++ ys') := by
  induction h with
  | nil => exact h'
  | cons head _ ih => exact .cons head ih

theorem Aligned.imp {α β : Type} {R S : α → β → Prop} {xs : List α} {ys : List β} (h : Aligned R xs ys)
    (himp : ∀ {x y}, R x y → S x y) : Aligned S xs ys := by
  induction h with
  | nil => exact .nil
  | cons head _ ih => exact .cons (himp head) ih

theorem Aligned.exists_of_mem_left {α β : Type} {R : α → β → Prop} {xs : List α} {ys : List β} (h : Aligned R xs ys)
    {x : α} (hx : x ∈ xs) : ∃ y ∈ ys, R x y := by
  induction h with
  | nil => cases hx
  | cons head _ ih =>
    obtain rfl | hx := List.mem_cons.mp hx
    · exact ⟨_, List.mem_cons_self, head⟩
    · obtain ⟨y, hy, hxy⟩ := ih hx
      exact ⟨y, List.mem_cons_of_mem _ hy, hxy⟩

theorem Aligned.exists_of_mem_right {α β : Type} {R : α → β → Prop} {xs : List α} {ys : List β} (h : Aligned R xs ys)
    {y : β} (hy : y ∈ ys) : ∃ x ∈ xs, R x y := by
  induction h with
  | nil => cases hy
  | cons head _ ih =>
    obtain rfl | hy := List.mem_cons.mp hy
    · exact ⟨_, List.mem_cons_self, head⟩
    · obtain ⟨x, hx, hxy⟩ := ih hy
      exact ⟨x, List.mem_cons_of_mem _ hx, hxy⟩

end Spreadsheet

namespace Spreadsheet.Grid

theorem Shift.add_neg (d : Shift) : d + -d = .zero := by
  obtain ⟨rows, columns⟩ := d
  show Shift.mk (rows + -rows) (columns + -columns) = ⟨0, 0⟩
  rw [Int.add_right_neg, Int.add_right_neg]

namespace Address

/-! ## Moves -/

theorem moveRow?_eq_some {row row' : UInt32} {rows : Int} :
    moveRow? row rows = some row' ↔
      (row'.toNat : Int) = row.toNat + rows ∧ 1 ≤ row'.toNat ∧ row'.toNat ≤ maxRows := by
  have hword : ∀ n : Nat, n ≤ maxRows → (UInt32.ofNat n).toNat = n := by
    intro n hn
    rw [maxRows] at hn
    exact UInt32.toNat_ofNat_of_lt' (by change n < 4294967296; omega)
  rw [moveRow?]
  constructor
  · intro h
    split at h
    next hgrid =>
      obtain rfl := Option.some.inj h
      rw [hword _ (by omega)]
      omega
    next => cases h
  · rintro ⟨hrow, hlow, hhigh⟩
    rw [if_pos (by omega), ← hrow]
    simp

theorem moveColumn?_eq_some {column column' : UInt32} {columns : Int} :
    moveColumn? column columns = some column' ↔
      (column'.toNat : Int) = column.toNat + columns ∧ column'.toNat < maxColumns := by
  have hword : ∀ n : Nat, n < maxColumns → (UInt32.ofNat n).toNat = n := by
    intro n hn
    rw [maxColumns] at hn
    exact UInt32.toNat_ofNat_of_lt' (by change n < 4294967296; omega)
  rw [moveColumn?]
  constructor
  · intro h
    split at h
    next hgrid =>
      obtain rfl := Option.some.inj h
      rw [hword _ (by omega)]
      omega
    next => cases h
  · rintro ⟨hcolumn, hhigh⟩
    rw [if_pos (by omega), ← hcolumn]
    simp

theorem move?_plain_eq_some {row column row' column' : UInt32} {d : Shift} :
    (plain row column).move? d = some (plain row' column') ↔
      moveRow? row d.rows = some row' ∧ moveColumn? column d.columns = some column' := by
  rw [move?, plain]
  dsimp only
  cases moveRow? row d.rows <;> cases moveColumn? column d.columns <;> simp [plain]

theorem move?_unanchored {a b : Address} {d : Shift} (ha : a.unanchored = a) (h : a.move? d = some b) :
    b.unanchored = b ∧ moveRow? a.row d.rows = some b.row ∧ moveColumn? a.column d.columns = some b.column := by
  rw [← ha, unanchored, move?, plain] at h
  dsimp only at h
  rw [if_neg Bool.false_ne_true, if_neg Bool.false_ne_true] at h
  split at h
  next row column hrow hcolumn =>
    obtain rfl := Option.some.inj h
    exact ⟨rfl, hrow, hcolumn⟩
  next => cases h

theorem move?_zero {a : Address} (h : a.OnGrid) : a.move? .zero = some a := by
  obtain ⟨hlow, hhigh, hcolumn⟩ := h
  have hrow : moveRow? a.row Shift.zero.rows = some a.row := moveRow?_eq_some.mpr ⟨by simp [Shift.zero], hlow, hhigh⟩
  have hcol : moveColumn? a.column Shift.zero.columns = some a.column :=
    moveColumn?_eq_some.mpr ⟨by simp [Shift.zero], hcolumn⟩
  rw [move?, hrow, hcol, ite_self, ite_self]

/-! ### Anchored and free axes -/

theorem move?_eq_some {a b : Address} {d : Shift} :
    a.move? d = some b ↔
      (if a.rowAnchored then some a.row else moveRow? a.row d.rows) = some b.row ∧
        (if a.columnAnchored then some a.column else moveColumn? a.column d.columns) = some b.column ∧
        b.rowAnchored = a.rowAnchored ∧ b.columnAnchored = a.columnAnchored := by
  rw [move?]
  constructor
  · intro h
    split at h
    next row column hrow hcolumn =>
      obtain rfl := Option.some.inj h
      exact ⟨hrow, hcolumn, rfl, rfl⟩
    next => cases h
  · rintro ⟨hrow, hcolumn, hrowAnchored, hcolumnAnchored⟩
    rw [hrow, hcolumn]
    dsimp only
    rw [← hrowAnchored, ← hcolumnAnchored]

/-- An address after a move: the marks and the anchored axes are the same, and the others have moved. -/
structure IsMoved (d : Shift) (a b : Address) : Prop where
  rowAnchored : b.rowAnchored = a.rowAnchored
  columnAnchored : b.columnAnchored = a.columnAnchored
  row : if a.rowAnchored then b.row = a.row else (b.row.toNat : Int) = a.row.toNat + d.rows
  column : if a.columnAnchored then b.column = a.column else (b.column.toNat : Int) = a.column.toNat + d.columns

/-- A move takes an axis without an anchor off the grid. -/
def LeavesGrid (d : Shift) (a : Address) : Prop :=
  (a.rowAnchored = false ∧ ¬(1 ≤ (a.row.toNat : Int) + d.rows ∧ (a.row.toNat : Int) + d.rows ≤ maxRows)) ∨
    (a.columnAnchored = false ∧
      ¬(0 ≤ (a.column.toNat : Int) + d.columns ∧ (a.column.toNat : Int) + d.columns < maxColumns))

theorem isMoved_of_move? {a b : Address} {d : Shift} (h : a.move? d = some b) : IsMoved d a b := by
  obtain ⟨hrow, hcolumn, hrowAnchored, hcolumnAnchored⟩ := move?_eq_some.mp h
  refine ⟨hrowAnchored, hcolumnAnchored, ?_, ?_⟩
  · split at hrow
    next hanchored => rw [if_pos hanchored]; exact (Option.some.inj hrow).symm
    next hfree => rw [if_neg hfree]; exact (moveRow?_eq_some.mp hrow).1
  · split at hcolumn
    next hanchored => rw [if_pos hanchored]; exact (Option.some.inj hcolumn).symm
    next hfree => rw [if_neg hfree]; exact (moveColumn?_eq_some.mp hcolumn).1

theorem moveRow?_eq_none {row : UInt32} {rows : Int} :
    moveRow? row rows = none ↔ ¬(1 ≤ (row.toNat : Int) + rows ∧ (row.toNat : Int) + rows ≤ maxRows) := by
  rw [moveRow?]
  split
  next h => simp [h]
  next h => simp [h]

theorem moveColumn?_eq_none {column : UInt32} {columns : Int} :
    moveColumn? column columns = none ↔
      ¬(0 ≤ (column.toNat : Int) + columns ∧ (column.toNat : Int) + columns < maxColumns) := by
  rw [moveColumn?]
  split
  next h => simp [h]
  next h => simp [h]

theorem move?_eq_none_iff {a : Address} {d : Shift} : a.move? d = none ↔ a.LeavesGrid d := by
  obtain ⟨row, column, rowAnchored, columnAnchored⟩ := a
  rw [move?, LeavesGrid, ← moveRow?_eq_none, ← moveColumn?_eq_none]
  dsimp only
  cases rowAnchored <;> cases columnAnchored <;> cases moveRow? row d.rows <;> cases moveColumn? column d.columns <;> simp

theorem OnGrid.of_move? {a b : Address} {d : Shift} (ha : a.OnGrid) (h : a.move? d = some b) : b.OnGrid := by
  obtain ⟨hrow, hcolumn, -, -⟩ := move?_eq_some.mp h
  obtain ⟨hlow, hhigh, hleft⟩ := ha
  have hrows : 1 ≤ b.row.toNat ∧ b.row.toNat ≤ maxRows := by
    split at hrow
    next => rw [← Option.some.inj hrow]; exact ⟨hlow, hhigh⟩
    next => exact (moveRow?_eq_some.mp hrow).2
  have hcolumns : b.column.toNat < maxColumns := by
    split at hcolumn
    next => rwa [← Option.some.inj hcolumn]
    next => exact (moveColumn?_eq_some.mp hcolumn).2
  exact ⟨hrows.1, hrows.2, hcolumns⟩

/-! ### Moves one after the other -/

theorem moveRow?_moveRow? {row row' : UInt32} {rows : Int} (h : moveRow? row rows = some row') (rows' : Int) :
    moveRow? row' rows' = moveRow? row (rows + rows') := by
  obtain ⟨hrow, -, -⟩ := moveRow?_eq_some.mp h
  rw [moveRow?, moveRow?, hrow, Int.add_assoc]

theorem moveColumn?_moveColumn? {column column' : UInt32} {columns : Int}
    (h : moveColumn? column columns = some column') (columns' : Int) :
    moveColumn? column' columns' = moveColumn? column (columns + columns') := by
  obtain ⟨hcolumn, -⟩ := moveColumn?_eq_some.mp h
  rw [moveColumn?, moveColumn?, hcolumn, Int.add_assoc]

theorem move?_move? {a b : Address} {d : Shift} (h : a.move? d = some b) (d' : Shift) :
    b.move? d' = a.move? (d + d') := by
  obtain ⟨hrow, hcolumn, hrowAnchored, hcolumnAnchored⟩ := move?_eq_some.mp h
  obtain ⟨row, column, _, _⟩ := b
  obtain rfl := hrowAnchored
  obtain rfl := hcolumnAnchored
  have hrows : (if a.rowAnchored then some row else moveRow? row d'.rows) =
      if a.rowAnchored then some a.row else moveRow? a.row (d + d').rows := by
    split at hrow
    next hanchored => rw [if_pos hanchored, if_pos hanchored, hrow]
    next hfree => rw [if_neg hfree, if_neg hfree]; exact moveRow?_moveRow? hrow d'.rows
  have hcolumns : (if a.columnAnchored then some column else moveColumn? column d'.columns) =
      if a.columnAnchored then some a.column else moveColumn? a.column (d + d').columns := by
    split at hcolumn
    next hanchored => rw [if_pos hanchored, if_pos hanchored, hcolumn]
    next hfree => rw [if_neg hfree, if_neg hfree]; exact moveColumn?_moveColumn? hcolumn d'.columns
  rw [move?, move?, ← hrows, ← hcolumns]

end Address

/-! ## Blocks -/

namespace Rect

open Address

/-- A block whose corners are those of another one after a move, all of them on the grid. -/
structure IsShifted (d : Shift) (r r' : Rect) : Prop where
  firstRow : moveRow? r.first.row d.rows = some r'.first.row
  lastRow : moveRow? r.last.row d.rows = some r'.last.row
  firstColumn : moveColumn? r.first.column d.columns = some r'.first.column
  lastColumn : moveColumn? r.last.column d.columns = some r'.last.column
  bounds : r.last.row.toNat ≤ maxRows ∧ r.last.column.toNat < maxColumns
  rows : r.first.row.toNat ≤ r.last.row.toNat
  columns : r.first.column.toNat ≤ r.last.column.toNat

theorem toNat_min (x y : UInt32) : (min x y).toNat = min x.toNat y.toNat := by
  show (if x ≤ y then x else y).toNat = _
  rw [Nat.min_def]
  simp only [UInt32.le_iff_toNat_le]
  split <;> rfl

theorem toNat_max (x y : UInt32) : (max x y).toNat = max x.toNat y.toNat := by
  show (if x ≤ y then y else x).toNat = _
  rw [Nat.max_def]
  simp only [UInt32.le_iff_toNat_le]
  split <;> rfl

theorem isShifted_spanning {a b a' b' : Address} {d : Shift} (ha : a.OnGrid) (hb : b.OnGrid) (hafree : a.unanchored = a)
    (hbfree : b.unanchored = b) (hmovea : a.move? d = some a') (hmoveb : b.move? d = some b') :
    IsShifted d (spanning a b) (spanning a' b') := by
  obtain ⟨-, harow, hacolumn⟩ := move?_unanchored hafree hmovea
  obtain ⟨-, hbrow, hbcolumn⟩ := move?_unanchored hbfree hmoveb
  rw [moveRow?_eq_some] at harow hbrow
  rw [moveColumn?_eq_some] at hacolumn hbcolumn
  obtain ⟨-, harows, hacolumns⟩ := ha
  obtain ⟨-, hbrows, hbcolumns⟩ := hb
  constructor
  all_goals
    simp only [spanning, plain, moveRow?_eq_some, moveColumn?_eq_some, toNat_min, toNat_max]
    omega

theorem toNat_count {first last : UInt32} (h : first.toNat ≤ last.toNat) {limit : Nat} (hlimit : last.toNat ≤ limit)
    (hsmall : limit < 4294967295) : (last - first + 1).toNat = last.toNat - first.toNat + 1 := by
  have hsub : (last - first).toNat = last.toNat - first.toNat := UInt32.toNat_sub_of_le _ _ (UInt32.le_iff_toNat_le.mpr h)
  rw [UInt32.toNat_add, hsub]
  change (last.toNat - first.toNat + 1) % 4294967296 = _
  omega

theorem toNat_succ (limit : Nat) {x : UInt32} (h : x.toNat ≤ limit) (hsmall : limit < 4294967295) :
    (x + 1).toNat = x.toNat + 1 := by
  rw [UInt32.toNat_add]
  change (x.toNat + 1) % 4294967296 = _
  omega

namespace IsShifted

variable {d : Shift} {r r' : Rect}

theorem size (h : IsShifted d r r') : r'.size = r.size := by
  have hfirstRow := moveRow?_eq_some.mp h.firstRow
  have hlastRow := moveRow?_eq_some.mp h.lastRow
  have hfirstColumn := moveColumn?_eq_some.mp h.firstColumn
  have hlastColumn := moveColumn?_eq_some.mp h.lastColumn
  obtain ⟨hrows, hcolumns⟩ := h.bounds
  have hr := h.rows
  have hc := h.columns
  have hrowCount := toNat_count hr hrows (by decide)
  have hcolumnCount := toNat_count hc (Nat.le_of_lt hcolumns) (by decide)
  have hrows' : r'.first.row.toNat ≤ r'.last.row.toNat := by omega
  have hcolumns' : r'.first.column.toNat ≤ r'.last.column.toNat := by omega
  have hrowCount' := toNat_count hrows' hlastRow.2.2 (by decide)
  have hcolumnCount' := toNat_count hcolumns' (Nat.le_of_lt hlastColumn.2) (by decide)
  rw [Rect.size, Rect.size, rowCount, rowCount, columnCount, columnCount, hrowCount, hcolumnCount, hrowCount',
    hcolumnCount']
  congr 1 <;> omega

/-- Cells from one place on correspond to the cells from the place that it is moved to, as long as they do not leave the
block: `rows` of its rows, each of `width` cells, are left. -/
theorem move?_cellsFrom (h : IsShifted d r r') {count rows width : Nat} {row column row' column' : UInt32}
    (hwidth : r.first.column.toNat + width = r.last.column.toNat + 1) (hrow : moveRow? row d.rows = some row' ∨ rows = 0)
    (hcolumn : (column'.toNat : Int) = column.toNat + d.columns) (hrows : row.toNat + rows = r.last.row.toNat + 1)
    (hleft : r.first.column.toNat ≤ column.toNat) (hright : column.toNat ≤ r.last.column.toNat)
    (hcount : count + (column.toNat - r.first.column.toNat) ≤ rows * width) :
    Aligned (fun c c' => c.move? d = some c') (r.cellsFrom count row column) (r'.cellsFrom count row' column') := by
  have hlastRow := moveRow?_eq_some.mp h.lastRow
  have hfirstColumn := moveColumn?_eq_some.mp h.firstColumn
  have hlastColumn := moveColumn?_eq_some.mp h.lastColumn
  obtain ⟨hbound, hbound'⟩ := h.bounds
  induction count generalizing rows row column row' column' with
  | zero => exact .nil
  | succ count ih =>
    -- There is a cell left, so the last row has not been passed.
    obtain ⟨rows, rfl⟩ : ∃ k, rows = k + 1 := by
      refine Nat.exists_eq_add_one_of_ne_zero ?_
      rintro rfl
      omega
    rw [Nat.succ_mul] at hcount
    obtain hrow | hnone := hrow
    · have hplace := moveRow?_eq_some.mp hrow
      have hnextRow : (row + 1).toNat = row.toNat + 1 := toNat_succ maxRows (by omega) (by decide)
      have hnextRow' : (row' + 1).toNat = row'.toNat + 1 := toNat_succ maxRows hplace.2.2 (by decide)
      have hnextColumn : (column + 1).toNat = column.toNat + 1 :=
        toNat_succ maxColumns (by omega) (by decide)
      have hnextColumn' : (column' + 1).toNat = column'.toNat + 1 :=
        toNat_succ maxColumns (by omega) (by decide)
      rw [cellsFrom, cellsFrom]
      refine .cons (move?_plain_eq_some.mpr ⟨hrow, moveColumn?_eq_some.mpr ⟨hcolumn, by omega⟩⟩) ?_
      rw [Rect.next, Rect.next]
      simp only [gt_iff_lt, UInt32.lt_iff_toNat_lt, hnextColumn, hnextColumn']
      by_cases hend : r.last.column.toNat < column.toNat + 1
      · have hend' : r'.last.column.toNat < column'.toNat + 1 := by omega
        have hrows' : (row + 1).toNat + rows = r.last.row.toNat + 1 := by omega
        rw [if_pos hend, if_pos hend']
        dsimp only
        refine ih ?_ hfirstColumn.1 hrows' (Nat.le_refl _) h.columns (by omega)
        rw [moveRow?_eq_some, hnextRow, hnextRow']
        omega
      · have hend' : ¬r'.last.column.toNat < column'.toNat + 1 := by omega
        rw [if_neg hend, if_neg hend']
        dsimp only
        exact ih (.inl hrow) (by omega) hrows (by omega) (by omega) (by rw [Nat.succ_mul]; omega)
    · cases hnone

theorem move?_cells (h : IsShifted d r r') :
    Aligned (fun c c' => c.move? d = some c') r.cells r'.cells := by
  rw [cells, cells, h.size]
  obtain ⟨hrows, hcolumns⟩ := h.bounds
  have hr := h.rows
  have hc := h.columns
  have hwidth : r.first.column.toNat + (r.last.column.toNat - r.first.column.toNat + 1) = r.last.column.toNat + 1 := by
    omega
  have hheight : r.first.row.toNat + (r.last.row.toNat - r.first.row.toNat + 1) = r.last.row.toNat + 1 := by omega
  refine h.move?_cellsFrom hwidth (.inl h.firstRow) (moveColumn?_eq_some.mp h.firstColumn).1 hheight (Nat.le_refl _) hc
    (Nat.le_of_eq ?_)
  rw [Nat.sub_self, Nat.add_zero, Rect.size, rowCount, columnCount, toNat_count hr hrows (by decide),
    toNat_count hc (Nat.le_of_lt hcolumns) (by decide)]

end IsShifted

end Rect

end Spreadsheet.Grid
