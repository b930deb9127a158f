import Spreadsheet.Proofs.Grid.Moving

/-! # The cells of a block

A block is walked cell by cell, with a step to the next row at the end of each. The walk visits the rows of the block from
above, and each of them from left to right.

* `wordsBetween`, `cellsBetween`: the coordinates between two others, and the cells between two corners.
* `cellsFrom_row`, `cellsFrom_rows`: the walk to the end of a row, and through rows.
* `cells_spanning`: the walk through a block. -/

set_option autoImplicit false

namespace Spreadsheet.Grid

/-- The words from the smaller of two to the greater one, both of them included, in ascending order. -/
def wordsBetween (x y : UInt32) : List UInt32 :=
  (List.range' (min x.toNat y.toNat) (max x.toNat y.toNat + 1 - min x.toNat y.toNat)).map UInt32.ofNat

/-- The cells of the block with two opposite corners, row by row and from left to right, without anchors. -/
def cellsBetween (a b : Address) : List Address :=
  (wordsBetween a.row b.row).flatMap fun row => (wordsBetween a.column b.column).map fun column => .plain row column

namespace Address

/-- An address with a row below it and a column to its right that are words, too. -/
def HasNext (a : Address) : Prop := a.row.toNat + 1 < UInt32.size ∧ a.column.toNat + 1 < UInt32.size

instance (a : Address) : Decidable a.HasNext := inferInstanceAs (Decidable (_ ∧ _))

theorem OnGrid.hasNext {a : Address} (h : a.OnGrid) : a.HasNext := by
  obtain ⟨-, hrow, hcolumn⟩ := h
  have hrows : maxRows + 1 < UInt32.size := by decide
  have hcolumns : maxColumns + 1 < UInt32.size := by decide
  constructor <;> omega

end Address

namespace Rect

variable {r : Rect}

theorem ofNat_succ (n : Nat) : UInt32.ofNat n + 1 = UInt32.ofNat (n + 1) := (UInt32.ofNat_add n 1).symm

theorem next_inside (hlast : r.last.column.toNat + 1 < UInt32.size) (row : UInt32) {column : Nat}
    (h : column < r.last.column.toNat) : r.next row (UInt32.ofNat column) = (row, UInt32.ofNat (column + 1)) := by
  have hword : (UInt32.ofNat (column + 1)).toNat = column + 1 := UInt32.toNat_ofNat_of_lt' (by omega)
  rw [next, ofNat_succ, if_neg]
  rw [gt_iff_lt, UInt32.lt_iff_toNat_lt, hword]
  omega

theorem next_end (hlast : r.last.column.toNat + 1 < UInt32.size) (row : UInt32) :
    r.next row (UInt32.ofNat r.last.column.toNat) = (row + 1, r.first.column) := by
  have hword : (UInt32.ofNat (r.last.column.toNat + 1)).toNat = r.last.column.toNat + 1 :=
    UInt32.toNat_ofNat_of_lt' hlast
  rw [next, ofNat_succ, if_pos]
  rw [gt_iff_lt, UInt32.lt_iff_toNat_lt, hword]
  omega

theorem cellsFrom_row (hlast : r.last.column.toNat + 1 < UInt32.size) (row : UInt32) {column k : Nat}
    (hk : column + k = r.last.column.toNat) (count : Nat) :
    r.cellsFrom (k + 1 + count) row (UInt32.ofNat column) =
      (List.range' column (k + 1)).map (fun c => .plain row (UInt32.ofNat c)) ++
        r.cellsFrom count (row + 1) r.first.column := by
  induction k generalizing column with
  | zero =>
    obtain rfl : column = r.last.column.toNat := by omega
    rw [Nat.add_right_comm, cellsFrom, next_end hlast]
    simp
  | succ k ih =>
    have hsplit : List.range' column (k + 1 + 1) = column :: List.range' (column + 1) (k + 1) := List.range'_succ
    rw [Nat.add_right_comm, cellsFrom, next_inside hlast row (by omega), ih (by omega), hsplit]
    rfl

theorem cellsFrom_rows (hlast : r.last.column.toNat + 1 < UInt32.size)
    (hcolumns : r.first.column.toNat ≤ r.last.column.toNat) (n row : Nat) :
    r.cellsFrom (n * (r.last.column.toNat + 1 - r.first.column.toNat)) (UInt32.ofNat row) r.first.column =
      (List.range' row n).flatMap fun i =>
        (List.range' r.first.column.toNat (r.last.column.toNat + 1 - r.first.column.toNat)).map fun c =>
          .plain (UInt32.ofNat i) (UInt32.ofNat c) := by
  obtain ⟨k, hk⟩ : ∃ k, r.first.column.toNat + k = r.last.column.toNat := Nat.le.dest hcolumns
  have hwidth : r.last.column.toNat + 1 - r.first.column.toNat = k + 1 := by omega
  rw [hwidth]
  induction n generalizing row with
  | zero => rw [Nat.zero_mul]; rfl
  | succ n ih =>
    have hrow := cellsFrom_row hlast (UInt32.ofNat row) hk (n * (k + 1))
    rw [UInt32.ofNat_toNat] at hrow
    have hsplit : List.range' row (n + 1) = row :: List.range' (row + 1) n := List.range'_succ
    rw [Nat.succ_mul, Nat.add_comm, hrow, ofNat_succ, ih, hsplit, List.flatMap_cons]

theorem toNat_extent {x y : UInt32} (hx : x.toNat + 1 < UInt32.size) (hy : y.toNat + 1 < UInt32.size) :
    (max x y - min x y + 1).toNat = max x.toNat y.toNat + 1 - min x.toNat y.toNat := by
  have hmin := toNat_min x y
  have hmax := toNat_max x y
  have hle : (min x y).toNat ≤ (max x y).toNat := by omega
  have hsize : UInt32.size = 4294967296 := rfl
  rw [toNat_count hle (Nat.le_refl _) (by omega), hmin, hmax]
  omega

theorem cells_spanning {a b : Address} (ha : a.HasNext) (hb : b.HasNext) :
    (spanning a b).cells = cellsBetween a b := by
  have hfirst : (spanning a b).first.column.toNat = min a.column.toNat b.column.toNat := toNat_min ..
  have hlast : (spanning a b).last.column.toNat = max a.column.toNat b.column.toNat := toNat_max ..
  have htop : (spanning a b).first.row = UInt32.ofNat (min a.row.toNat b.row.toNat) := by
    rw [← toNat_min, UInt32.ofNat_toNat]
    rfl
  have hrows : (spanning a b).rowCount.toNat = max a.row.toNat b.row.toNat + 1 - min a.row.toNat b.row.toNat :=
    toNat_extent ha.1 hb.1
  have hcolumns : (spanning a b).columnCount.toNat =
      (spanning a b).last.column.toNat + 1 - (spanning a b).first.column.toNat := by
    rw [hfirst, hlast]
    exact toNat_extent ha.2 hb.2
  have hinner : (spanning a b).last.column.toNat + 1 < UInt32.size := by
    have := ha.2
    have := hb.2
    omega
  rw [cells, size, hrows, hcolumns, htop, cellsFrom_rows hinner (by omega), hfirst, hlast, cellsBetween, wordsBetween,
    wordsBetween, List.flatMap_map]
  simp only [List.map_map]
  rfl

end Rect

end Spreadsheet.Grid
