import Spreadsheet.Proofs.Grid.Blocks

/-! # Walks through a block

A walk keeps the place of its next cell and the number of cells that are left. Both are told by the number of steps: after `k` steps
through a block of some width, `k / width` rows lie behind, and `k % width` cells of the next one.

* `IsAfter`: where a walk is after some steps. `IsAfter.step` is one step, `isAfter_take` all of them.
* `take_eq`: the steps of a walk are the cells of its block.
* `mem_cells_spanning`, `pairwise_cells_spanning`: which cells these are, and in which order.
* `isEnumerated_spanning`: all this of the block with two opposite corners, however they are named. -/

set_option autoImplicit false

namespace Spreadsheet.Grid.Rect

variable {r : Rect} {k : Nat} {w : Walk}

/-! ## The cells that are left -/

theorem length_cellsFrom (r : Rect) (count : Nat) (row column : UInt32) : (r.cellsFrom count row column).length = count := by
  induction count generalizing row column with
  | zero => rfl
  | succ count ih => rw [cellsFrom, List.length_cons, ih]

theorem length_cells (r : Rect) : r.cells.length = r.size := length_cellsFrom ..

def Walk.rest (w : Walk) : List Address := w.block.cellsFrom w.left w.row w.column

theorem Walk.rest_walk (r : Rect) : r.walk.rest = r.cells := rfl

theorem Walk.length_rest (w : Walk) : w.rest.length = w.left := length_cellsFrom ..

theorem Walk.step?_eq (w : Walk) :
    (w.step? = none ∧ w.rest = [] ∧ w.left = 0) ∨
      ∃ a w', w.step? = some (a, w') ∧ w.rest = a :: w'.rest ∧ w.left = w'.left + 1 := by
  rw [step?, rest]
  cases hleft : w.left with
  | zero => exact .inl ⟨rfl, rfl, rfl⟩
  | succ n => exact .inr ⟨_, _, rfl, rfl, rfl⟩

theorem Walk.take_eq (w : Walk) (k : Nat) :
    (w.take k).1 = w.rest.take k ∧ (w.take k).2.rest = w.rest.drop k ∧ (w.take k).2.left = w.left - k := by
  induction k generalizing w with
  | zero => exact ⟨rfl, rfl, rfl⟩
  | succ k ih =>
    rw [take]
    obtain ⟨hstep, hrest, hleft⟩ | ⟨a, w', hstep, hrest, hleft⟩ := w.step?_eq
    · rw [hstep, hrest, hleft, List.drop_nil, Nat.zero_sub]
      exact ⟨rfl, rfl, rfl⟩
    · obtain ⟨htake, hdrop, hcount⟩ := ih w'
      rw [hstep, hrest]
      refine ⟨?_, hdrop, ?_⟩
      · rw [List.take_succ_cons, ← htake]
      · rw [hleft, Nat.add_sub_add_right]
        exact hcount

/-! ## The place of a walk -/

def width (r : Rect) : Nat := r.last.column.toNat - r.first.column.toNat + 1

def height (r : Rect) : Nat := r.last.row.toNat - r.first.row.toNat + 1

/-- A block whose corners stand in order, and whose last row and column are followed by others that are words. -/
structure IsRegular (r : Rect) : Prop where
  rows : r.first.row.toNat ≤ r.last.row.toNat
  columns : r.first.column.toNat ≤ r.last.column.toNat
  hasNext : r.last.HasNext

theorem IsRegular.toNat_rowCount (h : r.IsRegular) : r.rowCount.toNat = r.height :=
  toNat_count h.rows (Nat.le_refl _) (Nat.lt_of_succ_lt_succ h.hasNext.1)

theorem IsRegular.toNat_columnCount (h : r.IsRegular) : r.columnCount.toNat = r.width :=
  toNat_count h.columns (Nat.le_refl _) (Nat.lt_of_succ_lt_succ h.hasNext.2)

theorem IsRegular.size (h : r.IsRegular) : r.size = r.height * r.width := by
  rw [Rect.size, h.toNat_rowCount, h.toNat_columnCount]

/-- A walk through a block after `k` steps: the rows behind it are full, and the rest of the steps lie in its row. -/
structure IsAfter (r : Rect) (k : Nat) (w : Walk) : Prop where
  block : w.block = r
  row : w.row.toNat = r.first.row.toNat + k / r.width
  column : w.column.toNat = r.first.column.toNat + k % r.width
  left : w.left = r.size - k

theorem isAfter_walk (r : Rect) : IsAfter r 0 r.walk := by
  refine ⟨rfl, ?_, ?_, rfl⟩
  · rw [Nat.zero_div]
    rfl
  · rw [Nat.zero_mod]
    rfl

/-- While cells are left, a walk has not left its block, so the place to its right and the one below are words. -/
theorem IsAfter.inside (hr : r.IsRegular) (h : IsAfter r k w) (hk : k < r.size) :
    w.row.toNat ≤ r.last.row.toNat ∧ w.column.toNat ≤ r.last.column.toNat := by
  have hwidth : 0 < r.width := Nat.succ_pos _
  have hrow : k / r.width < r.height := by
    rw [Nat.div_lt_iff_lt_mul hwidth, ← hr.size]
    exact hk
  have hcolumn : k % r.width < r.width := Nat.mod_lt _ hwidth
  have hrows := hr.rows
  have hcolumns := hr.columns
  rw [h.row, h.column]
  rw [height] at hrow
  have hcolumn' : k % r.width ≤ r.last.column.toNat - r.first.column.toNat := Nat.le_of_lt_succ hcolumn
  omega

/-- The place to the right, or at the end of a row the beginning of the next one. -/
theorem IsRegular.toNat_next (hr : r.IsRegular) {row column : UInt32} (hrow : row.toNat ≤ r.last.row.toNat)
    (hcolumn : column.toNat ≤ r.last.column.toNat) :
    ((r.next row column).1.toNat, (r.next row column).2.toNat) =
      if column.toNat = r.last.column.toNat then (row.toNat + 1, r.first.column.toNat) else (row.toNat, column.toNat + 1) := by
  have hrowSucc : (row + 1).toNat = row.toNat + 1 := toNat_succ _ hrow (Nat.lt_of_succ_lt_succ hr.hasNext.1)
  have hcolumnSucc : (column + 1).toNat = column.toNat + 1 :=
    toNat_succ _ hcolumn (Nat.lt_of_succ_lt_succ hr.hasNext.2)
  rw [Rect.next]
  simp only [gt_iff_lt, UInt32.lt_iff_toNat_lt, hcolumnSucc]
  by_cases hend : column.toNat = r.last.column.toNat
  · rw [if_pos (by omega), if_pos hend, hrowSucc]
  · rw [if_neg (by omega), if_neg hend, hcolumnSucc]

theorem succ_div_mod_of_full {k n : Nat} (h : k % n + 1 = n) : (k + 1) / n = k / n + 1 ∧ (k + 1) % n = 0 := by
  have hn : 0 < n := h ▸ Nat.succ_pos _
  have hsplit : k + 1 = n * (k / n + 1) := by
    have hdiv := Nat.div_add_mod k n
    rw [Nat.mul_add_one]
    omega
  rw [hsplit]
  exact ⟨Nat.mul_div_cancel_left _ hn, Nat.mul_mod_right ..⟩

theorem succ_div_mod_of_inside {k n : Nat} (h : k % n + 1 < n) : (k + 1) / n = k / n ∧ (k + 1) % n = k % n + 1 := by
  have hsplit : k + 1 = n * (k / n) + (k % n + 1) := by rw [← Nat.add_assoc, Nat.div_add_mod]
  rw [hsplit, Nat.mul_add_div (by omega), Nat.mul_add_mod, Nat.div_eq_of_lt h, Nat.mod_eq_of_lt h]
  exact ⟨rfl, rfl⟩

theorem IsAfter.step (hr : r.IsRegular) (h : IsAfter r k w) (hk : k < r.size) :
    ∃ w', w.step? = some (.plain w.row w.column, w') ∧ IsAfter r (k + 1) w' := by
  obtain ⟨hrow, hcolumn⟩ := h.inside hr hk
  have hnext := hr.toNat_next hrow hcolumn
  have hcolumns := hr.columns
  have hmod : k % r.width < r.width := Nat.mod_lt _ (Nat.succ_pos _)
  have hwidth : r.first.column.toNat + r.width = r.last.column.toNat + 1 := by
    rw [width]
    omega
  have hplace : (r.next w.row w.column).1.toNat = r.first.row.toNat + (k + 1) / r.width ∧
      (r.next w.row w.column).2.toNat = r.first.column.toNat + (k + 1) % r.width := by
    rw [h.column, h.row] at hnext
    by_cases hfull : k % r.width + 1 = r.width
    · obtain ⟨hdiv, hrest⟩ := succ_div_mod_of_full hfull
      rw [if_pos (by omega)] at hnext
      rw [hdiv, hrest]
      exact ⟨congrArg Prod.fst hnext, congrArg Prod.snd hnext⟩
    · obtain ⟨hdiv, hrest⟩ := succ_div_mod_of_inside (k := k) (n := r.width) (by omega)
      rw [if_neg (by omega)] at hnext
      rw [hdiv, hrest]
      exact ⟨congrArg Prod.fst hnext, congrArg Prod.snd hnext⟩
  have hleft : w.left ≠ 0 := by
    rw [h.left]
    omega
  have hleft' : w.left - 1 = r.size - (k + 1) := by
    rw [h.left]
    omega
  rw [Walk.step?, if_neg hleft, h.block]
  exact ⟨_, rfl, rfl, hplace.1, hplace.2, hleft'⟩

theorem isAfter_take (hr : r.IsRegular) {n : Nat} (h : IsAfter r n w) (hk : n + k ≤ r.size) : IsAfter r (n + k) (w.take k).2 := by
  induction k generalizing n w with
  | zero => exact h
  | succ k ih =>
    obtain ⟨w', hstep, hw'⟩ := h.step hr (by omega)
    rw [Walk.take, hstep, Nat.add_comm k 1, ← Nat.add_assoc]
    exact ih hw' (by omega)

/-! ## The cells between two corners -/

theorem mem_wordsBetween {x y v : UInt32} :
    v ∈ wordsBetween x y ↔ min x.toNat y.toNat ≤ v.toNat ∧ v.toNat ≤ max x.toNat y.toNat := by
  have hx := x.toNat_lt_size
  have hy := y.toNat_lt_size
  rw [wordsBetween, List.mem_map]
  constructor
  · rintro ⟨n, hn, rfl⟩
    rw [List.mem_range'_1] at hn
    rw [UInt32.toNat_ofNat_of_lt' (by omega)]
    omega
  · intro hv
    exact ⟨v.toNat, List.mem_range'_1.mpr (by omega), UInt32.ofNat_toNat⟩

theorem pairwise_wordsBetween (x y : UInt32) : (wordsBetween x y).Pairwise fun v v' => v.toNat < v'.toNat := by
  have hx := x.toNat_lt_size
  have hy := y.toNat_lt_size
  rw [wordsBetween, List.pairwise_map]
  refine List.Pairwise.imp_of_mem (fun hn hn' hlt => ?_) List.pairwise_lt_range'
  rw [List.mem_range'_1] at hn hn'
  rw [UInt32.toNat_ofNat_of_lt' (by omega), UInt32.toNat_ofNat_of_lt' (by omega)]
  exact hlt

/-- Whether a cell comes before another one, row by row and from left to right. -/
def Precedes (x y : Address) : Prop := x.row < y.row ∨ x.row = y.row ∧ x.column < y.column

theorem mem_cellsBetween {a b x : Address} : x ∈ cellsBetween a b ↔ x.unanchored = x ∧ (spanning a b).contains x = true := by
  simp only [cellsBetween, List.mem_flatMap, List.mem_map, mem_wordsBetween, contains, spanning, Address.plain, Bool.and_eq_true,
    decide_eq_true_eq, UInt32.le_iff_toNat_le, toNat_min, toNat_max]
  constructor
  · rintro ⟨row, hrow, column, hcolumn, rfl⟩
    exact ⟨rfl, ⟨⟨hrow.1, hrow.2⟩, hcolumn.1⟩, hcolumn.2⟩
  · rintro ⟨hfree, ⟨⟨hlow, hhigh⟩, hleft⟩, hright⟩
    exact ⟨x.row, ⟨hlow, hhigh⟩, x.column, ⟨hleft, hright⟩, hfree⟩

theorem pairwise_cellsBetween (a b : Address) : (cellsBetween a b).Pairwise Precedes := by
  rw [cellsBetween, List.pairwise_flatMap]
  constructor
  · intro row _
    rw [List.pairwise_map]
    exact (pairwise_wordsBetween _ _).imp fun h => .inr ⟨rfl, UInt32.lt_iff_toNat_lt.mpr h⟩
  · refine (pairwise_wordsBetween _ _).imp fun {row row'} hlt x hx y hy => ?_
    obtain ⟨_, -, rfl⟩ := List.mem_map.mp hx
    obtain ⟨_, -, rfl⟩ := List.mem_map.mp hy
    exact .inl (UInt32.lt_iff_toNat_lt.mpr hlt)

theorem isRegular_spanning {a b : Address} (ha : a.HasNext) (hb : b.HasNext) : (spanning a b).IsRegular := by
  obtain ⟨harow, hacolumn⟩ := ha
  obtain ⟨hbrow, hbcolumn⟩ := hb
  constructor
  · simp only [spanning, Address.plain, toNat_min, toNat_max]
    omega
  · simp only [spanning, Address.plain, toNat_min, toNat_max]
    omega
  · simp only [spanning, Address.plain, Address.HasNext, toNat_max]
    omega

/-- What a walk through a block visits, and how it counts. -/
structure IsEnumerated (r : Rect) : Prop where
  /-- The rows, the columns and the cells are counted in words, and none of the numbers is too large for one. -/
  counts : r.rowCount.toNat = r.last.row.toNat - r.first.row.toNat + 1 ∧
    r.columnCount.toNat = r.last.column.toNat - r.first.column.toNat + 1 ∧ r.first.row.toNat ≤ r.last.row.toNat ∧
    r.first.column.toNat ≤ r.last.column.toNat ∧ r.size = r.rowCount.toNat * r.columnCount.toNat ∧ r.size < UInt64.size
  /-- After any number of steps, the walk has visited as many cells of the list, and it knows how many are left. -/
  steps : ∀ k, (r.walk.take k).1 = r.cells.take k ∧
    (r.walk.take k).2.sizeHint = ((r.cells.drop k).length, some (r.cells.drop k).length)
  /-- While cells are left, the next row and the next column are words. -/
  words : ∀ k < r.size, (r.walk.take k).2.row.toNat + 1 < UInt32.size ∧ (r.walk.take k).2.column.toNat + 1 < UInt32.size
  length : r.cells.length = r.size
  unanchored : ∀ x ∈ r.cells, x.unanchored = x
  mem : ∀ x, x.unanchored = x → (x ∈ r.cells ↔ r.contains x = true)
  pairwise : r.cells.Pairwise Precedes

/-- Two pairs of corners of one block: each coordinate of one pair is a coordinate of the other. -/
def SameCorners (a b c d : Address) : Prop :=
  (c.row = a.row ∧ d.row = b.row ∨ c.row = b.row ∧ d.row = a.row) ∧
    (c.column = a.column ∧ d.column = b.column ∨ c.column = b.column ∧ d.column = a.column)

theorem SameCorners.spanning_eq {a b c d : Address} (h : SameCorners a b c d) : spanning c d = spanning a b := by
  have hcomm : ∀ x y : UInt32, min x y = min y x ∧ max x y = max y x := by
    intro x y
    simp only [← UInt32.toNat_inj, toNat_min, toNat_max]
    omega
  obtain ⟨⟨hc, hd⟩ | ⟨hc, hd⟩, ⟨hc', hd'⟩ | ⟨hc', hd'⟩⟩ := h
  all_goals
    rw [spanning, spanning, hc, hd, hc', hd']
  · rw [(hcomm b.column a.column).1, (hcomm b.column a.column).2]
  · rw [(hcomm b.row a.row).1, (hcomm b.row a.row).2]
  · rw [(hcomm b.row a.row).1, (hcomm b.row a.row).2, (hcomm b.column a.column).1, (hcomm b.column a.column).2]

theorem IsRegular.size_lt (hr : r.IsRegular) : r.size < UInt64.size := by
  obtain ⟨hrow, hcolumn⟩ := hr.hasNext
  have hheight : r.height < UInt32.size := by
    rw [height]
    omega
  have hwidth : r.width < UInt32.size := by
    rw [width]
    omega
  calc r.size = r.height * r.width := hr.size
    _ < UInt32.size * UInt32.size := Nat.mul_lt_mul'' hheight hwidth
    _ = UInt64.size := rfl

/-- A walk through the block with two opposite corners visits the cells that lie in it, each of them once, row by row and from
left to right. It is the same walk for all pairs of opposite corners of the block, with or without anchors. -/
theorem isEnumerated_spanning {a b : Address} (ha : a.HasNext) (hb : b.HasNext) :
    (spanning a b).IsEnumerated ∧ ∀ c d, SameCorners a b c d → (spanning c d).walk = (spanning a b).walk := by
  have hr := isRegular_spanning ha hb
  have hcells := cells_spanning ha hb
  refine ⟨⟨⟨hr.toNat_rowCount, hr.toNat_columnCount, hr.rows, hr.columns, rfl, hr.size_lt⟩, fun k => ?_, fun k hk => ?_,
    length_cells _, fun x hx => ?_, fun x hx => ?_, ?_⟩, fun c d h => by rw [h.spanning_eq]⟩
  · obtain ⟨htake, hdrop, -⟩ := Walk.take_eq (spanning a b).walk k
    rw [Walk.rest_walk] at htake hdrop
    rw [Walk.sizeHint, ← hdrop, Walk.length_rest]
    exact ⟨htake, rfl⟩
  · have hafter := isAfter_take hr (isAfter_walk _) (k := k) (by omega)
    rw [Nat.zero_add] at hafter
    obtain ⟨hrow, hcolumn⟩ := hafter.inside hr hk
    obtain ⟨hrowNext, hcolumnNext⟩ := hr.hasNext
    omega
  · rw [hcells] at hx
    exact (mem_cellsBetween.mp hx).1
  · rw [hcells, mem_cellsBetween, and_iff_right hx]
  · rw [hcells]
    exact pairwise_cellsBetween a b

/-- Two opposite corners of a block of three rows and two columns at the greatest coordinates. -/
def farCorners : Address × Address := (⟨4294967294, 4294967293, true, false⟩, ⟨4294967292, 4294967294, false, true⟩)

def farCornersCrossed : Address × Address := (⟨4294967292, 4294967293, false, false⟩, ⟨4294967294, 4294967294, true, true⟩)

theorem isEnumerated_spanning_farCorners :
    farCorners.1.HasNext ∧ farCorners.2.HasNext ∧
      SameCorners farCorners.1 farCorners.2 farCornersCrossed.1 farCornersCrossed.2 ∧
      (spanning farCorners.1 farCorners.2).IsEnumerated ∧
      (spanning farCornersCrossed.1 farCornersCrossed.2).walk = (spanning farCorners.1 farCorners.2).walk := by
  have hfirst : farCorners.1.HasNext := by decide
  have hsecond : farCorners.2.HasNext := by decide
  have hcorners : SameCorners farCorners.1 farCorners.2 farCornersCrossed.1 farCornersCrossed.2 := by
    rw [SameCorners]
    decide
  obtain ⟨henumerated, hwalk⟩ := isEnumerated_spanning hfirst hsecond
  exact ⟨hfirst, hsecond, hcorners, henumerated, hwalk _ _ hcorners⟩

example : ((spanning farCorners.1 farCorners.2).walk.take 4).2.sizeHint = (2, some 2) := by decide

end Spreadsheet.Grid.Rect
