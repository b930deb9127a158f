import Mathlib.Data.List.Induction
import Std.Data.HashMap.Lemmas
import Spreadsheet.Proofs.Book.Cells

/-! # The cells that an index holds

A row that does not say its number comes after the last row that has one, and a cell that does not say its address stands
right of the last cell that was placed. Here each row and each cell looks back at the results for everything before it; the
index goes through the part once and keeps what it needs.

* `numberOf`, `placeOf`: the number of a row and the place of a cell, given the results for those before it.
* `assigned`: all cells of a part with their places, in the order of the part.
* `map_view_allCells`: the cells that are found on the way through the part are those that have a place.
* `Register`: a map from addresses to cells, and the addresses in the order in which they came first.
* `isRegisterOf_register`: which cells a part's register holds, and that a sheet finds its cells in it. -/

set_option autoImplicit false

namespace Spreadsheet.Book.Sheet

open Markup Grid Text

/-! ## Places -/

/-- The elements of a list, each with the result that it has after the results for those before it. -/
def withHistory {α β : Type} (f : List β → α → β) (before : List β) : List α → List (α × β)
  | [] => []
  | x :: rest => (x, f before x) :: withHistory f (before ++ [f before x]) rest

def last? {β : Type} (results : List (Option β)) : Option β := (results.filterMap id).getLast?

/-- The elements of a name among children, with the positions that lead to them. -/
def elementsAt (name : String) (path : List Nat) (children : List (Node × Nat)) : List (Node × List Nat) :=
  (children.filter fun c => c.1.isElement name).map fun c => (c.1, path ++ [c.2])

/-- The rows of a part: those in the first element for them below the root. -/
def rowsOf (part : Node) : List (Node × List Nat) :=
  match locate? (fun n => n.tag?.isSome) part with
  | none => []
  | some (root, i) =>
    match locate? (fun n => n.isElement "sheetData") root with
    | none => []
    | some (data, j) => elementsAt "row" [i, j] data.children.zipIdx

/-- The number of a row: what it says, or one more than the last row that has a number. The grid must have it. -/
def numberOf (before : List (Option Nat)) (row : Node × List Nat) : Option Nat :=
  (match row.1.attribute? "r" with
    | some r => Numeral.readDigits? (Numeral.dropPlus r.toList)
    | none => some ((last? before).getD 0 + 1)).filter fun n => 1 ≤ n && n ≤ maxRows

/-- The place of a cell in a row: the address that it says, or in the row the column after the last cell that was placed. The
grid must have it. -/
def placeOf (row : Option Nat) (before : List (Option Address)) (c : Node × List Nat) : Option Address :=
  match (c.1.attribute? "r").bind Address.read? with
  | some a => some a.unanchored
  | none =>
    let column := ((last? before).map fun a => a.column.toNat + 1).getD 0
    if column < maxColumns then row.map fun n => .plain (UInt32.ofNat n) (UInt32.ofNat column) else none

def placed (rows : List ((Node × List Nat) × Option Nat)) : List ((Node × List Nat) × Option Address) :=
  rows.flatMap fun (row, number) => withHistory (placeOf number) [] (elementsAt "c" row.2 row.1.children.zipIdx)

/-- The cells of a part in its order, each with its place if it has one. -/
def assigned (part : Node) : List ((Node × List Nat) × Option Address) := placed (withHistory numberOf [] (rowsOf part))

def lastAssigned? (part : Node) (a : Address) : Option (Node × List Nat) :=
  ((assigned part).reverse.find? fun p => p.2 == some a).map (·.1)

theorem elementsAt_cons (name : String) (path : List Nat) (n : Node) (i : Nat) (rest : List (Node × Nat)) :
    elementsAt name path ((n, i) :: rest) =
      if n.isElement name then (n, path ++ [i]) :: elementsAt name path rest else elementsAt name path rest := by
  rw [elementsAt, List.filter_cons]
  split <;> rfl

theorem last?_concat {β : Type} (results : List (Option β)) (r : Option β) :
    last? (results ++ [r]) = r.or (last? results) := by
  rw [last?, last?, List.filterMap_append]
  cases r with
  | none => rw [List.filterMap_cons_none rfl, List.filterMap_nil, List.append_nil, Option.none_or]
  | some b => exact List.getLast?_concat

/-- The grid has fewer rows than there are words, so that the size of a word plays no part. -/
theorem rowNumber?_eq (before : List (Option Nat)) (row : Node × List Nat) :
    rowNumber? ((last? before).getD 0) row.1 = numberOf before row := by
  unfold rowNumber? numberOf
  cases row.1.attribute? "r" with
  | none => rfl
  | some r =>
    have hfits : ∀ n, (1 ≤ n && n ≤ maxRows) = true → n < Nat.pow 2 32 := by
      intro n hn
      have hle : n ≤ maxRows := of_decide_eq_true (Bool.and_eq_true_iff.mp hn).2
      exact Nat.lt_of_le_of_lt hle (by decide)
    change Option.filter _ (Numeral.readWord? 32 r.toList) = Option.filter _ _
    rw [Numeral.readWord?, Option.filter_filter]
    congr 1
    funext n
    cases hn : (1 ≤ n && n ≤ maxRows) with
    | false => rw [Bool.and_false]
    | true => rw [Bool.and_true, decide_eq_true (hfits n hn)]

theorem placeOf?_eq (row : Option Nat) (before : List (Option Address)) (c : Node × List Nat) :
    placeOf? row ((last? before).map fun a => a.column.toNat) c.1 = placeOf row before c := by
  unfold placeOf? placeOf
  cases (c.1.attribute? "r").bind Address.read? with
  | some a => rfl
  | none =>
    cases last? before with
    | none =>
      cases row with
      | none => rfl
      | some n => rfl
    | some a =>
      rw [Option.map_some, Option.map_some, nextColumn?, Option.getD_some]
      by_cases hroom : a.column.toNat + 1 < maxColumns
      · simp only [if_pos hroom]
        cases row <;> rfl
      · simp only [if_neg hroom]

/-! ## One way through the part -/

def view (c : Cell) : (Node × List Nat) × Option Address := ((c.node, c.path), some c.address)

theorem isElement_element (tag : Tag) (children : List Node) (name : String) :
    (Node.element tag children).isElement name = (tag.name == name) := rfl

theorem map_view_cellsOfRow (row : Option Nat) (path : List Nat) (before : List (Option Address))
    (children : List (Node × Nat)) :
    (cellsOfRow row path ((last? before).map fun a => a.column.toNat) children).map view =
      (withHistory (placeOf row) before (elementsAt "c" path children)).filter (·.2.isSome) := by
  induction children generalizing before with
  | nil => rfl
  | cons child rest ih =>
    obtain ⟨n, i⟩ := child
    rw [elementsAt_cons]
    cases n with
    | element tag children =>
      rw [cellsOfRow]
      by_cases hname : tag.name = "c"
      · have hplace := placeOf?_eq row before (.element tag children, path ++ [i])
        have hnamed : (Node.element tag children).isElement "c" = true := by rw [isElement_element, hname]; rfl
        rw [if_pos hname, if_pos hnamed, withHistory, hplace]
        have hlater := ih (before ++ [placeOf row before (.element tag children, path ++ [i])])
        rw [last?_concat] at hlater
        cases hassigned : placeOf row before (.element tag children, path ++ [i]) with
        | none =>
          rw [hassigned] at hlater
          rw [List.filter_cons_of_neg (by simp)]
          exact hlater
        | some a =>
          rw [hassigned] at hlater
          rw [List.filter_cons_of_pos (by simp)]
          exact congrArg _ hlater
      · have hother : ¬(Node.element tag children).isElement "c" = true := by
          rw [isElement_element, beq_iff_eq]
          exact hname
        rw [if_neg hname, if_neg hother]
        exact ih before
    | _ => exact ih before

theorem map_view_cellsOfRows (path : List Nat) (before : List (Option Nat)) (children : List (Node × Nat)) :
    (cellsOfRows path ((last? before).getD 0) children).map view =
      (placed (withHistory numberOf before (elementsAt "row" path children))).filter (·.2.isSome) := by
  induction children generalizing before with
  | nil => rfl
  | cons child rest ih =>
    obtain ⟨row, i⟩ := child
    rw [cellsOfRows, elementsAt_cons]
    cases row.isElement "row" with
    | false =>
      rw [if_neg Bool.false_ne_true, if_neg Bool.false_ne_true]
      exact ih before
    | true =>
      have hnumber := rowNumber?_eq before (row, path ++ [i])
      have hlater := ih (before ++ [numberOf before (row, path ++ [i])])
      -- A row without a number leaves the last number as it is.
      have hlast : (last? (before ++ [numberOf before (row, path ++ [i])])).getD 0 =
          (numberOf before (row, path ++ [i])).getD ((last? before).getD 0) := by
        rw [last?_concat]
        cases numberOf before (row, path ++ [i]) <;> rfl
      have hcells := map_view_cellsOfRow (numberOf before (row, path ++ [i])) (path ++ [i]) [] row.children.zipIdx
      rw [hlast] at hlater
      rw [if_pos rfl, if_pos rfl, withHistory, placed, List.flatMap_cons, List.filter_append, ← placed, ← hlater, hnumber,
        List.map_append]
      exact congrArg (· ++ _) hcells

theorem map_view_allCells (part : Node) : (allCells part).map view = (assigned part).filter (·.2.isSome) := by
  unfold allCells assigned rowsOf
  cases locate? (fun n => n.tag?.isSome) part with
  | none => rfl
  | some found =>
    obtain ⟨root, i⟩ := found
    dsimp only
    cases locate? (fun n => n.isElement "sheetData") root with
    | none => rfl
    | some found => exact map_view_cellsOfRows [i, found.2] [] found.1.children.zipIdx

-- A row that says it is row 0 is not on the grid and has no number; an address in another row still moves the column on.
example :
    let rows := [
      .element ((Tag.named "row").set "r" "5")
        [.element (.named "c") [], .element ((Tag.named "c").set "r" "Z9") [], .element (.named "c") []],
      .element ((Tag.named "row").set "r" "0") [.element (.named "c") []],
      .element (.named "row") [.element (.named "c") []]]
    (assigned (.document [.element (.named "worksheet") [.element (.named "sheetData") rows]])).map (·.2) =
      [some (.plain 5 0), some (.plain 9 25), some (.plain 5 26), none, some (.plain 6 0)] := by decide +kernel

theorem map_address_allCells (part : Node) : (allCells part).map (·.address) = (assigned part).filterMap (·.2) := by
  have hplaces : (allCells part).map (·.address) = ((allCells part).map view).filterMap (·.2) := by
    rw [List.filterMap_map, ← List.filterMap_eq_map]
    rfl
  rw [hplaces, map_view_allCells, List.filterMap_filter]
  congr 1
  funext p
  cases p.2 <;> rfl

theorem map_find?_allCells (part : Node) (a : Address) :
    ((allCells part).reverse.find? fun c => c.address == a).map (fun c => (c.node, c.path)) = lastAssigned? part a := by
  have hview : ((allCells part).reverse.find? fun c => c.address == a).map view =
      ((allCells part).map view).reverse.find? fun p => p.2 == some a := by
    rw [← List.map_reverse, List.find?_map]
    rfl
  have hfind : ((assigned part).filter (·.2.isSome)).reverse.find? (fun p => p.2 == some a) =
      (assigned part).reverse.find? fun p => p.2 == some a := by
    rw [← List.filter_reverse, List.find?_filter]
    congr 1
    funext p
    cases hp : p.2 with
    | none => rfl
    | some b => simp only [Option.isSome_some, true_and, Bool.decide_eq_true]
  rw [lastAssigned?, ← hfind, ← map_view_allCells, ← hview, Option.map_map]
  rfl

/-! ## Cells by address -/

instance : Hashable Address := ⟨fun a => mixHash (hash a.row) (hash a.column)⟩

/-- A map from addresses to cells, and the addresses in the order in which they came first. -/
structure Register where
  cells : Std.HashMap Address Cell
  order : List Address

/-- The register with one more cell. It takes the place of another one at its address. -/
def Register.add (r : Register) (c : Cell) : Register :=
  ⟨r.cells.insert c.address c, if r.cells.contains c.address then r.order else r.order ++ [c.address]⟩

def registered (cells : List Cell) : Register := cells.foldl Register.add ⟨∅, []⟩

theorem registered_concat (cells : List Cell) (c : Cell) : registered (cells ++ [c]) = (registered cells).add c :=
  List.foldl_concat ..

theorem getElem?_registered (cells : List Cell) (a : Address) :
    (registered cells).cells[a]? = cells.reverse.find? fun c => c.address == a := by
  induction cells using List.reverseRecOn with
  | nil => exact Std.HashMap.getElem?_empty
  | append_singleton cells c ih =>
    rw [registered_concat, Register.add, Std.HashMap.getElem?_insert, ih, List.reverse_concat, List.find?_cons]
    cases c.address == a <;> rfl

theorem mem_registered_iff (cells : List Cell) (a : Address) :
    a ∈ (registered cells).cells ↔ a ∈ cells.map (·.address) := by
  rw [Std.HashMap.mem_iff_isSome_getElem?, getElem?_registered, List.find?_isSome, List.mem_map]
  simp

theorem eraseDups_concat (l : List Address) (a : Address) :
    (l ++ [a]).eraseDups = if l.contains a then l.eraseDups else l.eraseDups ++ [a] := by
  rw [List.eraseDups_append, List.removeAll, List.filter_cons, List.filter_nil, List.elem_eq_contains]
  cases l.contains a with
  | false => rfl
  | true => exact List.append_nil _

theorem order_registered (cells : List Cell) : (registered cells).order = (cells.map (·.address)).eraseDups := by
  induction cells using List.reverseRecOn with
  | nil => rfl
  | append_singleton cells c ih =>
    have hcontains : (registered cells).cells.contains c.address = (cells.map (·.address)).contains c.address := by
      rw [Bool.eq_iff_iff, Std.HashMap.contains_iff_mem, mem_registered_iff, List.contains_iff_mem]
    rw [registered_concat, Register.add, hcontains, ih, List.map_append, List.map_singleton, eraseDups_concat]

/-! ## The index in two containers -/

def register (part : Node) : Register := registered (allCells part)

/-- The cells of an index, the last one first, while it is built. -/
def inserted (cells : List Cell) : List Cell := cells.foldl (fun cells c => insert c cells) []

theorem inserted_concat (cells : List Cell) (c : Cell) : inserted (cells ++ [c]) = insert c (inserted cells) :=
  List.foldl_concat ..

theorem map_address_inserted (cells : List Cell) :
    (inserted cells).map (·.address) = (registered cells).order.reverse := by
  rw [order_registered]
  induction cells using List.reverseRecOn with
  | nil => rfl
  | append_singleton cells c ih =>
    have hcontains : ((cells.map (·.address)).eraseDups.reverse.contains c.address) =
        (cells.map (·.address)).contains c.address := by
      rw [Bool.eq_iff_iff, List.contains_iff_mem, List.contains_iff_mem, List.mem_reverse, List.mem_eraseDups]
    rw [inserted_concat, map_address_insert, ih, hcontains, List.map_append, List.map_singleton, eraseDups_concat]
    split
    · rfl
    · exact List.reverse_concat.symm

theorem map_address_index (part : Node) : (index part).map (·.address) = (register part).order := by
  have hcells := map_address_inserted (allCells part)
  rw [index, List.map_reverse, ← inserted, hcells, List.reverse_reverse, register]

theorem cell?_ofTree (name path : String) (part : Node) (notes : Notes) (a : Address) :
    (ofTree name path part notes).cell? a = (register part).cells[a.unanchored]? := by
  rw [cell?, ofTree]
  cases hfind : (index part).find? fun c => c.address == a.unanchored with
  | none =>
    have hnew : a.unanchored ∉ (register part).cells := by
      rw [register, mem_registered_iff, ← List.mem_eraseDups, ← order_registered, ← register, ← map_address_index,
        List.mem_map]
      rintro ⟨c, hc, haddress⟩
      exact List.find?_eq_none.mp hfind c hc (beq_iff_eq.mpr haddress)
    exact (Std.HashMap.getElem?_eq_none hnew).symm
  | some c =>
    have haddress : c.address = a.unanchored := eq_of_beq (List.find?_some (p := fun c : Cell => c.address == a.unanchored) hfind)
    obtain ⟨before, after, hall, hafter⟩ := mem_index_iff.mp (List.mem_of_find?_eq_some hfind)
    rw [register, getElem?_registered, eq_comm, List.find?_eq_some_iff_append]
    refine ⟨beq_iff_eq.mpr haddress, after.reverse, before.reverse, ?_, fun d hd => ?_⟩
    · rw [hall, List.reverse_append, List.reverse_cons, List.append_assoc]
      rfl
    · have hne := hafter d (List.mem_reverse.mp hd)
      rw [haddress] at hne
      rw [beq_eq_false_iff_ne.mpr hne]
      rfl

/-- What a register of a part's cells says. -/
structure Register.IsRegisterOf (r : Register) (part : Node) : Prop where
  nodup : r.order.Nodup
  keys : ∀ a, a ∈ r.order ↔ a ∈ r.cells
  /-- A cell knows its address, which is a place on the grid without anchors. -/
  place : ∀ a c, r.cells[a]? = some c → c.address = a ∧ IsPlace a
  /-- The cell of a place is the last one that is assigned it. -/
  last : ∀ a, r.cells[a]?.map (fun c => (c.node, c.path)) = lastAssigned? part a
  order : r.order = ((assigned part).filterMap (·.2)).eraseDups

/-- The cells of a part that a place is assigned to are registered under their places, the last one of each, and a sheet
has the cells of the register in its order. -/
theorem isRegisterOf_register (part : Node) :
    (register part).IsRegisterOf part ∧
      ∀ (name path : String) (notes : Notes),
        (ofTree name path part notes).cells.map (·.address) = (register part).order ∧
          ∀ a, (ofTree name path part notes).cell? a = (register part).cells[a.unanchored]? := by
  refine ⟨{ nodup := ?_, keys := fun a => ?_, place := fun a c hc => ?_, last := fun a => ?_, order := ?_ },
    fun name path notes => ⟨map_address_index part, cell?_ofTree name path part notes⟩⟩
  · rw [← map_address_index]
    exact nodup_address_index part
  · rw [register, order_registered, List.mem_eraseDups, mem_registered_iff]
  · rw [register, getElem?_registered] at hc
    have haddress : c.address = a := eq_of_beq (List.find?_some (p := fun c : Cell => c.address == a) hc)
    exact ⟨haddress, haddress ▸ isPlace_of_mem_allCells (List.mem_reverse.mp (List.mem_of_find?_eq_some hc))⟩
  · rw [register, getElem?_registered, map_find?_allCells]
  · rw [register, order_registered, map_address_allCells]

end Spreadsheet.Book.Sheet
