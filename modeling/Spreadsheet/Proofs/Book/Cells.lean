import Spreadsheet.Markup.Edit
import Spreadsheet.Proofs.Book.Places
import Spreadsheet.Proofs.Book.Storing
import Mathlib.Data.List.Nodup

/-! # The cells of a part whose elements are replaced

The positions of a cell lead to its element. Another element in its place changes that cell and nothing else, so the
cells of a changed part are those of the part, in the same order and at the same addresses.

* `nodup_allCells`: two cells of a part have different positions.
* `Cell.Replaces`: a cell that may stand in place of another one.
* `allCells_replaceAt`: one cell is changed.
* `allCells_replaceCells`: several cells are changed. -/

set_option autoImplicit false

namespace Spreadsheet.Book

open Markup Grid

theorem map_eq_self {α : Type} {f : α → α} {l : List α} (h : ∀ x ∈ l, f x = x) : l.map f = l := by
  have hid := List.map_congr_left (g := fun x => x) h
  rw [hid, List.map_id']

/-! ## Changing a child -/

def changedAt (f : Node → Node) (i : Nat) (p : Node × Nat) : Node × Nat := if p.2 = i then (f p.1, p.2) else p

theorem zipIdx_modifyAt (f : Node → Node) (i : Nat) (ns : List Node) (start : Nat) :
    (Node.modifyAt f i ns).zipIdx start = (ns.zipIdx start).map (changedAt f (i + start)) := by
  induction ns generalizing i start with
  | nil => cases i <;> rfl
  | cons n ns ih =>
    cases i with
    | zero =>
      have hlater : (ns.zipIdx (start + 1)).map (changedAt f (0 + start)) = ns.zipIdx (start + 1) := by
        refine map_eq_self fun p hp => ?_
        have hle := List.le_snd_of_mem_zipIdx hp
        rw [changedAt, if_neg (by omega)]
      rw [Node.modifyAt, List.zipIdx_cons, List.zipIdx_cons, List.map_cons, hlater, changedAt,
        if_pos (Nat.zero_add start).symm]
    | succ i =>
      rw [Node.modifyAt, List.zipIdx_cons, List.zipIdx_cons, List.map_cons, ih, changedAt, if_neg (by simp)]
      have hplace : i + (start + 1) = i + 1 + start := by omega
      rw [hplace]

theorem zipIdx_modifyAt_zero (f : Node → Node) (i : Nat) (ns : List Node) :
    (Node.modifyAt f i ns).zipIdx = ns.zipIdx.map (changedAt f i) := zipIdx_modifyAt f i ns 0

theorem tag?_withChildren (n : Node) (cs : List Node) : (n.withChildren cs).tag? = n.tag? := by
  cases n <;> rfl

theorem isElement_withChildren (n : Node) (cs : List Node) (name : String) :
    (n.withChildren cs).isElement name = n.isElement name := by
  rw [Node.isElement, Node.isElement, Node.name?, Node.name?, tag?_withChildren]

theorem attribute?_withChildren (n : Node) (cs : List Node) (key : String) :
    (n.withChildren cs).attribute? key = n.attribute? key := by
  rw [Node.attribute?, Node.attribute?, tag?_withChildren]

theorem children_withChildren {n : Node} (h : n.children ≠ []) (cs : List Node) : (n.withChildren cs).children = cs := by
  cases n with
  | document ds => rfl
  | element t ds => rfl
  | _ => exact absurd rfl h

theorem replaceAt_cons (new : Node) (i : Nat) (path : List Nat) (n : Node) :
    Node.replaceAt new (i :: path) n = n.withChildren (Node.modifyAt (Node.replaceAt new path) i n.children) := rfl

/-- A child is found at its place after a child has been changed, if its tag stays the same. -/
theorem locate?_replaceAt {p : Node → Bool} (hp : ∀ n m : Node, m.tag? = n.tag? → p m = p n) (new : Node) {i j : Nat}
    (path : List Nat) {n child : Node} (h : Sheet.locate? p n = some (child, i)) :
    Sheet.locate? p (Node.replaceAt new (i :: j :: path) n) = some (Node.replaceAt new (j :: path) child, i) := by
  have hne : n.children ≠ [] := by
    intro hnil
    rw [Sheet.locate?, hnil] at h
    cases h
  have hsame : ∀ q, p (changedAt (Node.replaceAt new (j :: path)) i q).1 = p q.1 := by
    intro q
    rw [changedAt]
    split
    · exact hp _ _ (tag?_withChildren _ _)
    · rfl
  rw [Sheet.locate?] at h
  rw [Sheet.locate?, replaceAt_cons, children_withChildren hne, zipIdx_modifyAt_zero, List.find?_map]
  have hpredicate : ((fun c : Node × Nat => p c.1) ∘ changedAt (Node.replaceAt new (j :: path)) i) = fun c => p c.1 :=
    funext hsame
  rw [hpredicate, h, Option.map_some, changedAt, if_pos rfl]

/-! ## Positions -/

namespace Sheet

theorem sublist_path_cellsOfRow (row : Option Nat) (path : List Nat) (last : Option Nat) (l : List (Node × Nat)) :
    ((cellsOfRow row path last l).map (·.path)).Sublist (l.map fun p => path ++ [p.2]) := by
  induction l generalizing last with
  | nil => exact List.Sublist.refl _
  | cons p l ih =>
    obtain ⟨n, i⟩ := p
    cases n with
    | element tag children =>
      rw [cellsOfRow]
      split
      · split
        · exact (ih _).cons_cons _
        · exact (ih _).cons _
      · exact (ih _).cons _
    | _ => exact (ih _).cons _

theorem path_of_mem_cellsOfRow {row : Option Nat} {path : List Nat} {last : Option Nat} {l : List (Node × Nat)} {c : Cell}
    (h : c ∈ cellsOfRow row path last l) :
    ∃ i, c.path = path ++ [i] ∧ (.element c.tag c.children, i) ∈ l ∧ c.tag.name = "c" := by
  induction l generalizing last with
  | nil => cases h
  | cons p l ih =>
    obtain ⟨n, i⟩ := p
    have hlater : ∀ {last}, c ∈ cellsOfRow row path last l →
        ∃ j, c.path = path ++ [j] ∧ (.element c.tag c.children, j) ∈ (n, i) :: l ∧ c.tag.name = "c" := by
      intro last hc
      obtain ⟨j, hpath, hmem, hname⟩ := ih hc
      exact ⟨j, hpath, List.mem_cons_of_mem _ hmem, hname⟩
    cases n with
    | element tag children =>
      rw [cellsOfRow] at h
      split at h
      next hname =>
        split at h
        · obtain rfl | h := List.mem_cons.mp h
          · exact ⟨i, rfl, List.mem_cons_self .., hname⟩
          · exact hlater h
        · exact hlater h
      next => exact hlater h
    | _ => exact hlater h

theorem path_of_mem_cellsOfRows {path : List Nat} {last : Nat} {l : List (Node × Nat)} {c : Cell}
    (h : c ∈ cellsOfRows path last l) :
    ∃ row i j, c.path = path ++ [i, j] ∧ (row, i) ∈ l ∧ row.isElement "row" = true ∧
      (.element c.tag c.children, j) ∈ row.children.zipIdx ∧ c.tag.name = "c" := by
  induction l generalizing last with
  | nil => cases h
  | cons p l ih =>
    obtain ⟨row, i⟩ := p
    have hlater : ∀ {last}, c ∈ cellsOfRows path last l → ∃ row' i' j, c.path = path ++ [i', j] ∧
        (row', i') ∈ (row, i) :: l ∧ row'.isElement "row" = true ∧
          (.element c.tag c.children, j) ∈ row'.children.zipIdx ∧ c.tag.name = "c" := by
      intro last hc
      obtain ⟨row', i', j, hpath, hmem, hrest⟩ := ih hc
      exact ⟨row', i', j, hpath, List.mem_cons_of_mem _ hmem, hrest⟩
    rw [cellsOfRows] at h
    split at h
    next hrow =>
      obtain h | h := List.mem_append.mp h
      · obtain ⟨j, hpath, hmem, hname⟩ := path_of_mem_cellsOfRow h
        exact ⟨row, i, j, by rw [hpath, List.append_assoc]; rfl, List.mem_cons_self .., hrow, hmem, hname⟩
      · exact hlater h
    next => exact hlater h

theorem allCells_eq {part root data : Node} {i j : Nat} (hroot : locate? (fun n => n.tag?.isSome) part = some (root, i))
    (hdata : locate? (fun n => n.isElement "sheetData") root = some (data, j)) :
    allCells part = cellsOfRows [i, j] 0 data.children.zipIdx := by
  rw [allCells, hroot]
  dsimp only
  rw [hdata]

/-- A cell stands in a row of the data of the root element. -/
theorem path_of_mem_allCells {part : Node} {c : Cell} (h : c ∈ allCells part) :
    ∃ root data row i j k l, c.path = [i, j, k, l] ∧ locate? (fun n => n.tag?.isSome) part = some (root, i) ∧
      locate? (fun n => n.isElement "sheetData") root = some (data, j) ∧ (row, k) ∈ data.children.zipIdx ∧
        (c.node, l) ∈ row.children.zipIdx ∧ c.tag.name = "c" := by
  cases hroot : locate? (fun n => n.tag?.isSome) part with
  | none =>
    rw [allCells, hroot] at h
    cases h
  | some found =>
    obtain ⟨root, i⟩ := found
    cases hdata : locate? (fun n => n.isElement "sheetData") root with
    | none =>
      rw [allCells, hroot] at h
      dsimp only at h
      rw [hdata] at h
      cases h
    | some found =>
      obtain ⟨data, j⟩ := found
      rw [allCells_eq hroot hdata] at h
      obtain ⟨row, k, l, hpath, hrow, -, hcell, hname⟩ := path_of_mem_cellsOfRows h
      exact ⟨root, data, row, i, j, k, l, hpath, rfl, hdata, hrow, hcell, hname⟩

theorem nodup_zipIdx_snd (ns : List Node) (start : Nat) : ((ns.zipIdx start).map (·.2)).Nodup := by
  rw [List.zipIdx_map_snd]
  exact List.nodup_range'

theorem nodup_cellsOfRows (path : List Nat) (last : Nat) {l : List (Node × Nat)} (h : (l.map (·.2)).Nodup) :
    ((cellsOfRows path last l).map (·.path)).Nodup := by
  induction l generalizing last with
  | nil => exact List.nodup_nil
  | cons p l ih =>
    obtain ⟨row, i⟩ := p
    rw [List.map_cons, List.nodup_cons] at h
    rw [cellsOfRows]
    split
    next =>
      rw [List.map_append]
      refine List.nodup_append.mpr ⟨?_, ih _ h.2, fun x hx y hy heq => ?_⟩
      · refine (sublist_path_cellsOfRow _ _ _ _).nodup ?_
        have hmap : (row.children.zipIdx.map fun p => path ++ [i] ++ [p.2]) =
            (row.children.zipIdx.map (·.2)).map fun j => path ++ [i] ++ [j] := by
          rw [List.map_map]
          rfl
        rw [hmap]
        exact List.Pairwise.map _ (fun a b hne heq => hne (by simpa using heq)) (nodup_zipIdx_snd _ 0)
      · obtain ⟨c, hc, rfl⟩ := List.mem_map.mp hx
        obtain ⟨d, hd, rfl⟩ := List.mem_map.mp hy
        obtain ⟨j, hcpath, -⟩ := path_of_mem_cellsOfRow hc
        obtain ⟨row', i', j', hdpath, hmem, -⟩ := path_of_mem_cellsOfRows hd
        rw [hcpath, hdpath, List.append_assoc, List.append_cancel_left_eq] at heq
        have hi : i = i' := (List.cons.inj heq).1
        exact h.1 (List.mem_map.mpr ⟨(row', i'), hmem, hi.symm⟩)
    next => exact ih _ h.2

theorem nodup_allCells (part : Node) : ((allCells part).map (·.path)).Nodup := by
  unfold allCells
  split
  next => exact List.nodup_nil
  next =>
    split
    next => exact List.nodup_nil
    next => exact nodup_cellsOfRows _ _ (nodup_zipIdx_snd _ 0)

theorem eq_of_path {part : Node} {c d : Cell} (hc : c ∈ allCells part) (hd : d ∈ allCells part) (h : c.path = d.path) :
    c = d := List.inj_on_of_nodup_map (nodup_allCells part) hc hd h

end Sheet

/-! ## Another cell in place of one -/

namespace Cell

/-- A cell that may stand in place of another one: it says the same address. -/
structure Replaces (e c : Cell) : Prop where
  address : e.address = c.address
  path : e.path = c.path
  name : e.tag.name = "c"
  place : e.tag.get? "r" = c.tag.get? "r"

def swapped (e d : Cell) : Cell := if d.path = e.path then { d with tag := e.tag, children := e.children } else d

theorem path_swapped (e d : Cell) : (swapped e d).path = d.path := by
  rw [swapped]
  split <;> rfl

theorem swapped_of_ne {e d : Cell} (h : d.path ≠ e.path) : swapped e d = d := if_neg h

end Cell

namespace Sheet

open Cell

theorem placeOf?_congr {n m : Node} (h : m.attribute? "r" = n.attribute? "r") (row last : Option Nat) :
    placeOf? row last m = placeOf? row last n := by
  unfold placeOf?
  rw [h]

theorem cellsOfRow_changedAt {e : Cell} {path : List Nat} {i : Nat} (hpath : e.path = path ++ [i])
    (hname : e.tag.name = "c") {l : List (Node × Nat)}
    (hl : ∀ p ∈ l, p.2 = i → ∃ t cs, p.1 = .element t cs ∧ t.name = "c" ∧ e.tag.get? "r" = t.get? "r")
    (row last : Option Nat) :
    cellsOfRow row path last (l.map (changedAt (fun _ => e.node) i)) = (cellsOfRow row path last l).map (swapped e) := by
  induction l generalizing last with
  | nil => rfl
  | cons p l ih =>
    obtain ⟨n, j⟩ := p
    have hlater := ih fun q hq => hl q (List.mem_cons_of_mem _ hq)
    rw [List.map_cons]
    by_cases hj : j = i
    · obtain ⟨t, cs, hn, ht, hplace⟩ := hl (n, j) (List.mem_cons_self ..) hj
      have hn : n = .element t cs := hn
      subst hn
      have hsame : placeOf? row last (.element e.tag e.children) = placeOf? row last (.element t cs) :=
        placeOf?_congr (n := .element t cs) (m := .element e.tag e.children) hplace row last
      have hchanged : changedAt (fun _ => e.node) i (.element t cs, j) = (.element e.tag e.children, j) := if_pos hj
      rw [hchanged, cellsOfRow, cellsOfRow, if_pos hname, if_pos ht, hsame]
      cases placeOf? row last (.element t cs) with
      | none => exact hlater last
      | some a =>
        dsimp only
        rw [List.map_cons, hlater, swapped, if_pos (by rw [hpath, hj])]
    · have hne : ∀ (a : Address) (t : Tag) (cs : List Node), swapped e ⟨a, path ++ [j], t, cs⟩ = ⟨a, path ++ [j], t, cs⟩ := by
        intro a t cs
        refine swapped_of_ne ?_
        rw [hpath]
        intro heq
        exact hj (by simpa using heq)
      rw [changedAt, if_neg hj]
      cases n with
      | element t cs =>
        rw [cellsOfRow, cellsOfRow]
        split
        · cases placeOf? row last (.element t cs) with
          | none => exact hlater last
          | some a =>
            dsimp only
            rw [List.map_cons, hlater, hne]
        · exact hlater last
      | _ => exact hlater last

theorem cellsOfRows_changedAt {e : Cell} {path : List Nat} {i j : Nat} (hpath : e.path = path ++ [i, j])
    (hname : e.tag.name = "c") {l : List (Node × Nat)}
    (hl : ∀ p ∈ l, p.2 = i → ∀ q ∈ p.1.children.zipIdx, q.2 = j →
      ∃ t cs, q.1 = .element t cs ∧ t.name = "c" ∧ e.tag.get? "r" = t.get? "r") (last : Nat) :
    cellsOfRows path last (l.map (changedAt (Node.replaceAt e.node [j]) i)) =
      (cellsOfRows path last l).map (swapped e) := by
  induction l generalizing last with
  | nil => rfl
  | cons p l ih =>
    obtain ⟨row, k⟩ := p
    have hlater := ih fun q hq => hl q (List.mem_cons_of_mem _ hq)
    rw [List.map_cons]
    by_cases hk : k = i
    · have hrow : (Node.replaceAt e.node [j] row).isElement "row" = row.isElement "row" := isElement_withChildren _ _ _
      rw [changedAt, if_pos hk, cellsOfRows, cellsOfRows, hrow]
      cases hisRow : row.isElement "row" with
      | false =>
        simp only [Bool.false_eq_true, if_false]
        exact hlater last
      | true =>
        have hnumber : rowNumber? last (Node.replaceAt e.node [j] row) = rowNumber? last row := by
          rw [rowNumber?, rowNumber?]
          congr 2
          exact attribute?_withChildren _ _ _
        have hchildren : (Node.replaceAt e.node [j] row).children.zipIdx =
            row.children.zipIdx.map (changedAt (fun _ => e.node) j) := by
          have helement : ∃ t cs, row = .element t cs := by
            cases row with
            | element t cs => exact ⟨t, cs, rfl⟩
            | _ => cases hisRow
          obtain ⟨t, cs, rfl⟩ := helement
          exact zipIdx_modifyAt_zero (fun _ => e.node) j cs
        have hat : e.path = (path ++ [k]) ++ [j] := by rw [hpath, hk, List.append_assoc]; rfl
        have hcells := cellsOfRow_changedAt hat hname
          (hl (row, k) (List.mem_cons_self ..) hk)
        simp only [if_true, hnumber, hchildren]
        rw [hcells, hlater, List.map_append]
    · have hsame : ∀ last, (cellsOfRow last (path ++ [k]) none row.children.zipIdx).map (swapped e) =
          cellsOfRow last (path ++ [k]) none row.children.zipIdx := by
        intro last
        refine map_eq_self fun d hd => swapped_of_ne ?_
        obtain ⟨m, hd, -⟩ := path_of_mem_cellsOfRow hd
        rw [hd, hpath, List.append_assoc]
        intro heq
        exact hk (List.cons.inj (List.append_cancel_left heq)).1
      rw [changedAt, if_neg hk, cellsOfRows, cellsOfRows]
      split
      · dsimp only
        rw [List.map_append, hsame, hlater]
      · exact hlater last

theorem eq_of_mem_zipIdx {α : Type} {l : List α} {x y : α} {i : Nat} (hx : (x, i) ∈ l.zipIdx) (hy : (y, i) ∈ l.zipIdx) :
    x = y := by
  rw [List.mem_zipIdx_iff_getElem?] at hx hy
  exact Option.some.inj (hx.symm.trans hy)

theorem allCells_replaceAt {part : Node} {c e : Cell} (hc : c ∈ allCells part) (he : e.Replaces c) :
    allCells (Node.replaceAt e.node c.path part) = (allCells part).map (swapped e) := by
  obtain ⟨root, data, row, i, j, k, l, hpath, hroot, hdata, hrow, hcell, hname⟩ := path_of_mem_allCells hc
  -- The root element and its data are found where they were.
  have hroot' : locate? (fun n => n.tag?.isSome) (Node.replaceAt e.node [i, j, k, l] part) =
      some (Node.replaceAt e.node [j, k, l] root, i) :=
    locate?_replaceAt (fun n m h => congrArg Option.isSome h) e.node [k, l] hroot
  have hdata' : locate? (fun n => n.isElement "sheetData") (Node.replaceAt e.node [j, k, l] root) =
      some (Node.replaceAt e.node [k, l] data, j) :=
    locate?_replaceAt (fun n m h => by rw [Node.isElement, Node.isElement, Node.name?, Node.name?, h]) e.node [l] hdata
  have hchildren : (Node.replaceAt e.node [k, l] data).children.zipIdx =
      data.children.zipIdx.map (changedAt (Node.replaceAt e.node [l]) k) := by
    have hne : data.children ≠ [] := List.ne_nil_of_mem (List.fst_mem_of_mem_zipIdx hrow)
    rw [replaceAt_cons, children_withChildren hne, zipIdx_modifyAt_zero]
  rw [hpath, allCells_eq hroot' hdata', allCells_eq hroot hdata, hchildren]
  refine cellsOfRows_changedAt (by rw [he.path, hpath]; rfl) he.name (fun p hp hk q hq hl => ?_) 0
  obtain ⟨p, k'⟩ := p
  obtain ⟨q, l'⟩ := q
  obtain rfl : k' = k := hk
  obtain rfl : l' = l := hl
  obtain rfl := eq_of_mem_zipIdx hp hrow
  exact ⟨c.tag, c.children, eq_of_mem_zipIdx hq hcell, hname, he.place⟩

theorem mem_allCells_replaceAt {part : Node} {c e d : Cell} (hc : c ∈ allCells part) (he : e.Replaces c)
    (hd : d ∈ allCells part) (hne : d.path ≠ c.path) : d ∈ allCells (Node.replaceAt e.node c.path part) := by
  rw [allCells_replaceAt hc he]
  refine List.mem_map.mpr ⟨d, hd, Cell.swapped_of_ne ?_⟩
  rw [he.path]
  exact hne

/-! ## Other cells in place of several -/

theorem eq_of_replaces {e c : Cell} (h : e.Replaces c) : swapped e c = e := by
  rw [swapped, if_pos h.path.symm, ← h.address, ← h.path]

theorem allCells_replaceCells {part : Node} {cs : List Cell} (hcs : ∀ c ∈ cs, c ∈ allCells part)
    (hnodup : (cs.map (·.path)).Nodup) {u : Cell → Cell} (hu : ∀ c ∈ cs, (u c).Replaces c) :
    allCells (replaceCells part (cs.map fun c => (c, (u c).node))) =
      (allCells part).map fun d => if d.path ∈ cs.map (·.path) then u d else d := by
  induction cs generalizing part with
  | nil => exact (map_eq_self fun d _ => if_neg List.not_mem_nil).symm
  | cons c cs ih =>
    rw [List.map_cons, List.nodup_cons] at hnodup
    have hc := hcs c (List.mem_cons_self ..)
    have hfirst := hu c (List.mem_cons_self ..)
    have hstep := allCells_replaceAt hc hfirst
    have hrest : ∀ d ∈ cs, d ∈ allCells (Node.replaceAt (u c).node c.path part) := by
      intro d hd
      refine mem_allCells_replaceAt hc hfirst (hcs d (List.mem_cons_of_mem _ hd)) fun heq => ?_
      exact hnodup.1 (List.mem_map.mpr ⟨d, hd, heq⟩)
    have hlater := ih hrest hnodup.2 fun d hd => hu d (List.mem_cons_of_mem _ hd)
    have hfold : replaceCells part ((c :: cs).map fun c => (c, (u c).node)) =
        replaceCells (Node.replaceAt (u c).node c.path part) (cs.map fun c => (c, (u c).node)) := rfl
    rw [hfold, hlater, hstep, List.map_map]
    refine List.map_congr_left fun d hd => ?_
    rw [Function.comp_apply, path_swapped, List.map_cons]
    by_cases hpath : d.path = c.path
    · have hdc : d = c := eq_of_path hd hc hpath
      subst hdc
      rw [if_neg hnodup.1, if_pos (List.mem_cons_self ..), eq_of_replaces hfirst]
    · rw [swapped_of_ne (by rw [hfirst.path]; exact hpath)]
      by_cases hmem : d.path ∈ cs.map (·.path)
      · rw [if_pos hmem, if_pos (List.mem_cons_of_mem _ hmem)]
      · rw [if_neg hmem, if_neg (by simpa [hpath] using hmem)]

/-! ## Cells by address -/

theorem insert_map {f : Cell → Cell} (hf : ∀ c, (f c).address = c.address) (c : Cell) (cells : List Cell) :
    insert (f c) (cells.map f) = (insert c cells).map f := by
  have hany : ((cells.map f).any fun d => d.address == (f c).address) = cells.any fun d => d.address == c.address := by
    rw [List.any_map, hf]
    congr 1
    funext d
    rw [Function.comp_apply, hf]
  rw [insert, insert, hany]
  split
  · rw [List.map_map, List.map_map]
    refine List.map_congr_left fun d _ => ?_
    rw [Function.comp_apply, Function.comp_apply, hf, hf]
    split <;> rfl
  · rfl

theorem index_eq_map {part part' : Node} {f : Cell → Cell} (hf : ∀ c, (f c).address = c.address)
    (h : allCells part' = (allCells part).map f) : index part' = (index part).map f := by
  have hfold : ∀ l cells : List Cell, (l.map f).foldl (fun cells c => insert c cells) (cells.map f) =
      (l.foldl (fun cells c => insert c cells) cells).map f := by
    intro l
    induction l with
    | nil => exact fun cells => rfl
    | cons c l ih =>
      intro cells
      rw [List.map_cons, List.foldl_cons, List.foldl_cons, insert_map hf, ih]
  have hcells := hfold (allCells part) []
  rw [List.map_nil] at hcells
  rw [index, index, h, hcells, List.map_reverse]

theorem map_address_insert (c : Cell) (cells : List Cell) :
    (insert c cells).map (·.address) =
      if (cells.map (·.address)).contains c.address then cells.map (·.address) else c.address :: cells.map (·.address) := by
  have hany : (cells.map (·.address)).contains c.address = cells.any fun d => d.address == c.address := by
    rw [Bool.eq_iff_iff, List.contains_iff_mem, List.any_eq_true, List.mem_map]
    exact exists_congr fun d => and_congr_right fun _ => beq_iff_eq.symm
  rw [insert, hany]
  split
  next =>
    rw [List.map_map]
    refine List.map_congr_left fun d _ => ?_
    rw [Function.comp_apply]
    split
    next heq => exact heq.symm
    next => rfl
  next => rfl

theorem nodup_insert {c : Cell} {cells : List Cell} (h : (cells.map (·.address)).Nodup) :
    ((insert c cells).map (·.address)).Nodup := by
  rw [map_address_insert]
  split
  next => exact h
  next hnew => exact List.nodup_cons.mpr ⟨fun hmem => hnew (List.contains_iff_mem.mpr hmem), h⟩

theorem nodup_address_index (part : Node) : ((index part).map (·.address)).Nodup := by
  have hfold : ∀ l cells : List Cell, (cells.map (·.address)).Nodup →
      ((l.foldl (fun cells c => insert c cells) cells).map (·.address)).Nodup := by
    intro l
    induction l with
    | nil => exact fun cells hcells => hcells
    | cons c l ih => exact fun cells hcells => ih _ (nodup_insert hcells)
  have hnodup := hfold (allCells part) [] List.nodup_nil
  rw [index, List.map_reverse]
  exact List.pairwise_reverse.mpr (hnodup.imp Ne.symm)

theorem nodup_path_index (part : Node) : ((index part).map (·.path)).Nodup := by
  have hpairwise : (index part).Pairwise fun c d => c.address ≠ d.address :=
    List.pairwise_map.mp (nodup_address_index part)
  refine List.pairwise_map.mpr (hpairwise.imp_of_mem fun hc hd hne heq => hne ?_)
  rw [eq_of_path (mem_allCells_of_mem_index hc) (mem_allCells_of_mem_index hd) heq]

end Sheet

end Spreadsheet.Book
