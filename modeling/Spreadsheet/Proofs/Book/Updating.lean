import Spreadsheet.Proofs.Book.Cells
import Spreadsheet.Proofs.Book.Tables

/-! # Sheets whose values are stored

* `Cell.face`: what can be seen of a cell, its position in the part aside.
* `map_face_index_merged`: a part that is written and read again has cells with the same faces.
* `Sheet.stored`: a cell with its kept value stored in it.
* `Sheet.Between`, `Sheet.Threads`: the tables of texts that the cells find one after the other.
* `Threads.parse_updated`, `Threads.cells_commit`: what becomes of a sheet whose kept values are stored. -/

set_option autoImplicit false

namespace Spreadsheet.Book

open Markup Grid

/-! ## Faces of cells -/

namespace Cell

/-- What can be seen of a cell besides its address. -/
structure Face where
  formula : Option FormulaSource
  style : Option Nat
  literal : Option Value

def face (strings : StringTable) (c : Cell) : Address × Face :=
  (c.address, ⟨c.formulaSource?, c.style?, c.literal strings⟩)

/-- A view of cells that sees neither their positions nor the bounds between texts. -/
def IsBlurred {α : Type} (view : Cell → α) : Prop :=
  ∀ a path path' tag children, view ⟨a, path, tag, Node.mergedAll children⟩ = view ⟨a, path', tag, children⟩

theorem content_child?_merged (t : Tag) (children : List Node) (name : String) :
    ((Node.element t (Node.mergedAll children)).child? name).map Node.content =
      ((Node.element t children).child? name).map Node.content := by
  have hchild := Node.child?_merged (.element t children) name
  rw [Node.merged] at hchild
  rw [hchild, Option.map_map]
  congr 1
  funext n
  exact Node.content_merged n

theorem isBlurred_raw? : IsBlurred raw? := fun _ _ _ tag children => content_child?_merged tag children "v"

theorem isBlurred_inlineText? : IsBlurred inlineText? := by
  intro a path path' tag children
  have hchild := Node.child?_merged (.element tag children) "is"
  rw [Node.merged] at hchild
  unfold inlineText?
  rw [node, node, hchild, isBlurred_raw? a path path' tag children]
  cases (Node.element tag children).child? "is" with
  | none => rfl
  | some item => exact congrArg (fun s => some (Value.text s)) (itemText_merged item)

theorem isBlurred_literal (strings : StringTable) : IsBlurred fun c => c.literal strings := by
  intro a path path' tag children
  have hraw := isBlurred_raw? a path path' tag children
  have hinline := isBlurred_inlineText? a path path' tag children
  have htype : (Cell.mk a path tag (Node.mergedAll children)).type? = (Cell.mk a path' tag children).type? := rfl
  dsimp only [literal]
  rw [htype, hraw, hinline]

theorem isBlurred_formulaSource? : IsBlurred formulaSource? := by
  intro a path path' tag children
  have hchild := Node.child?_merged (.element tag children) "f"
  rw [Node.merged] at hchild
  rw [formulaSource?, formulaSource?, node, node, hchild]
  cases (Node.element tag children).child? "f" with
  | none => rfl
  | some f =>
    rw [Option.map_some, Option.bind_some, Option.bind_some, Node.attribute?_merged, Node.attribute?_merged,
      Node.content_merged]

theorem isBlurred_face (strings : StringTable) : IsBlurred (face strings) := by
  intro a path path' tag children
  have hliteral := isBlurred_literal strings a path path' tag children
  dsimp only at hliteral
  rw [face, face, isBlurred_formulaSource? a path path', hliteral]
  rfl

end Cell

/-! ## Cells of a part that is read again -/

namespace Sheet

open Cell

theorem cellsOfRow_text (row : Option Nat) (path : List Nat) (last : Option Nat) (s : String) (i : Nat)
    (l : List (Node × Nat)) : cellsOfRow row path last ((.text s, i) :: l) = cellsOfRow row path last l := rfl

theorem cellsOfRows_text (path : List Nat) (last : Nat) (s : String) (i : Nat) (l : List (Node × Nat)) :
    cellsOfRows path last ((.text s, i) :: l) = cellsOfRows path last l := rfl

theorem zipIdx_text_followedBy {α : Type} {cells : List (Node × Nat) → α}
    (htext : ∀ s i l, cells ((.text s, i) :: l) = cells l) (s : String) (ns : List Node) (i : Nat) :
    ∃ j, cells (((Node.text s).followedBy ns).zipIdx i) = cells (ns.zipIdx j) := by
  unfold Node.followedBy
  split
  next t rest _ =>
    refine ⟨i, ?_⟩
    rw [List.zipIdx_cons, List.zipIdx_cons, htext, htext]
  next =>
    split
    · exact ⟨i, rfl⟩
    · exact ⟨i + 1, by rw [List.zipIdx_cons, htext]⟩
  next hne _ => exact absurd rfl (hne s)

variable {α : Type} {view : Cell → α}

theorem map_cellsOfRow_merged (hview : IsBlurred view) (row : Option Nat) (path path' : List Nat) (last : Option Nat)
    (cs : List Node) (i j : Nat) :
    (cellsOfRow row path last ((Node.mergedAll cs).zipIdx i)).map view =
      (cellsOfRow row path' last (cs.zipIdx j)).map view := by
  induction cs generalizing last i j with
  | nil => rfl
  | cons n cs ih =>
    rw [Node.mergedAll, List.zipIdx_cons]
    cases n with
    | text s =>
      obtain ⟨k, hk⟩ := zipIdx_text_followedBy (cellsOfRow_text row path last) s (Node.mergedAll cs) i
      rw [Node.merged, hk, cellsOfRow_text]
      exact ih last k (j + 1)
    | element t children =>
      have hplace : placeOf? row last (.element t (Node.mergedAll children)) = placeOf? row last (.element t children) :=
        placeOf?_congr (n := .element t children) (m := .element t (Node.mergedAll children)) rfl row last
      rw [Node.merged, Node.followedBy_of_ne_text (fun s h => by cases h), List.zipIdx_cons, cellsOfRow, cellsOfRow,
        hplace]
      split
      · cases placeOf? row last (.element t children) with
        | none => exact ih last (i + 1) (j + 1)
        | some a =>
          dsimp only
          rw [List.map_cons, List.map_cons, ih _ (i + 1) (j + 1), hview a (path ++ [i]) (path' ++ [j]) t children]
      · exact ih last (i + 1) (j + 1)
    | _ => exact ih last (i + 1) (j + 1)

theorem rowNumber?_merged (last : Nat) (row : Node) : rowNumber? last row.merged = rowNumber? last row := by
  rw [rowNumber?, rowNumber?, Node.attribute?_merged]

theorem map_cellsOfRows_merged (hview : IsBlurred view) (path path' : List Nat) (last : Nat) (cs : List Node) (i j : Nat) :
    (cellsOfRows path last ((Node.mergedAll cs).zipIdx i)).map view =
      (cellsOfRows path' last (cs.zipIdx j)).map view := by
  induction cs generalizing last i j with
  | nil => rfl
  | cons n cs ih =>
    rw [Node.mergedAll, List.zipIdx_cons]
    by_cases htext : ∃ s, n = .text s
    · obtain ⟨s, rfl⟩ := htext
      obtain ⟨k, hk⟩ := zipIdx_text_followedBy (cellsOfRows_text path last) s (Node.mergedAll cs) i
      rw [Node.merged, hk, cellsOfRows_text]
      exact ih last k (j + 1)
    · rw [Node.followedBy_of_ne_text (Node.merged_ne_text fun s hs => htext ⟨s, hs⟩), List.zipIdx_cons, cellsOfRows,
        cellsOfRows, Node.isElement_merged, rowNumber?_merged, Node.children_merged]
      split
      · dsimp only
        rw [List.map_append, List.map_append, ih _ (i + 1) (j + 1),
          map_cellsOfRow_merged hview _ (path ++ [i]) (path' ++ [j]) none n.children 0 0]
      · exact ih last (i + 1) (j + 1)

theorem find?_zipIdx_fst (p : Node → Bool) (ns : List Node) (i : Nat) :
    ((ns.zipIdx i).find? fun q => p q.1).map (·.1) = ns.find? p := by
  induction ns generalizing i with
  | nil => rfl
  | cons n ns ih =>
    rw [List.zipIdx_cons, List.find?_cons, List.find?_cons]
    cases p n with
    | true => rfl
    | false => exact ih (i + 1)

theorem locate?_merged {p : Node → Bool} (htext : ∀ s, p (.text s) = false) (hmerged : ∀ n : Node, p n.merged = p n)
    (n : Node) : (locate? p n.merged).map (·.1) = (locate? p n).map fun c => c.1.merged := by
  have hsame : p ∘ Node.merged = p := funext hmerged
  rw [locate?, find?_zipIdx_fst, Node.children_merged, Node.find?_mergedAll htext, List.find?_map, hsame, locate?,
    ← find?_zipIdx_fst p n.children 0, Option.map_map]
  rfl

theorem map_allCells_merged (hview : IsBlurred view) (part : Node) :
    (allCells part.merged).map view = (allCells part).map view := by
  have hroot := locate?_merged (p := fun n => n.tag?.isSome) (fun s => rfl)
    (fun n => congrArg Option.isSome (Node.tag?_merged n)) part
  unfold allCells
  cases h : locate? (fun n => n.tag?.isSome) part with
  | none =>
    rw [h, Option.map_none, Option.map_eq_none_iff] at hroot
    rw [hroot]
  | some found =>
    obtain ⟨root, i⟩ := found
    rw [h, Option.map_some, Option.map_eq_some_iff] at hroot
    obtain ⟨⟨root', i'⟩, hroot', rfl⟩ := hroot
    rw [hroot']
    dsimp only
    have hdata := locate?_merged (p := fun n => n.isElement "sheetData") (fun s => rfl)
      (fun n => Node.isElement_merged n "sheetData") root
    cases h : locate? (fun n => n.isElement "sheetData") root with
    | none =>
      rw [h, Option.map_none, Option.map_eq_none_iff] at hdata
      rw [hdata]
    | some found =>
      obtain ⟨data, j⟩ := found
      rw [h, Option.map_some, Option.map_eq_some_iff] at hdata
      obtain ⟨⟨data', j'⟩, hdata', rfl⟩ := hdata
      rw [hdata']
      dsimp only
      rw [Node.children_merged]
      exact map_cellsOfRows_merged hview [i', j'] [i, j] 0 data.children 0 0

/-- Things by address, the last one first, with one more; it takes the place of another one at the same address. -/
def insertFace {α : Type} (x : Address × α) (l : List (Address × α)) : List (Address × α) :=
  if l.any fun y => y.1 == x.1 then l.map fun y => if y.1 = x.1 then x else y else x :: l

theorem map_insert {α : Type} {view : Cell → Address × α} (hview : ∀ c, (view c).1 = c.address) (c : Cell)
    (cells : List Cell) : (insert c cells).map view = insertFace (view c) (cells.map view) := by
  have hany : ((cells.map view).any fun y => y.1 == (view c).1) = cells.any fun d => d.address == c.address := by
    rw [List.any_map, hview]
    congr 1
    funext d
    rw [Function.comp_apply, hview]
  rw [insert, insertFace, hany]
  split
  · rw [List.map_map, List.map_map]
    refine List.map_congr_left fun d _ => ?_
    rw [Function.comp_apply, Function.comp_apply, hview, hview]
    split <;> rfl
  · rfl

/-- A part that is written and read again has cells that look the same at the same addresses. -/
theorem map_index_merged {α : Type} {view : Cell → Address × α} (haddress : ∀ c, (view c).1 = c.address)
    (hview : IsBlurred view) (part : Node) : (index part.merged).map view = (index part).map view := by
  have hfold : ∀ l cells : List Cell, (l.foldl (fun cells c => insert c cells) cells).map view =
      (l.map view).foldl (fun faces x => insertFace x faces) (cells.map view) := by
    intro l
    induction l with
    | nil => exact fun cells => rfl
    | cons c l ih =>
      intro cells
      rw [List.foldl_cons, ih, map_insert haddress, List.map_cons, List.foldl_cons]
  rw [index, index, List.map_reverse, List.map_reverse, hfold, hfold, map_allCells_merged hview]

theorem map_face_index_merged (strings : StringTable) (part : Node) :
    (index part.merged).map (face strings) = (index part).map (face strings) :=
  map_index_merged (fun _ => rfl) (isBlurred_face strings) part

/-! ## Storing the kept values of a sheet -/

/-- A cell with its kept value stored in it, unless it is there already, given the table that each cell finds when its turn
comes. -/
def stored (s : Sheet) (tables : Address → StringTable) (shares : Bool) (c : Cell) : Cell :=
  match s.pending? (tables c.address) c with
  | some v => c.afterStoring (storedValue v c.hasFormula (tables c.address) shares).1
  | none => c

def changing (s : Sheet) (tables : Address → StringTable) (cells : List Cell) : List Cell :=
  cells.filter fun c => (s.pending? (tables c.address) c).isSome

theorem pending?_eq_some {s : Sheet} {strings : StringTable} {c : Cell} {v : Value} (h : s.pending? strings c = some v) :
    s.cached? c.address = some v ∧ ((c.literal strings).getD .blank).same v = false := by
  obtain ⟨hcached, hdiffers⟩ := Option.filter_eq_some_iff.mp h
  exact ⟨hcached, by simpa using hdiffers⟩

theorem stored_congr {s : Sheet} {tables tables' : Address → StringTable} {c : Cell}
    (h : tables' c.address = tables c.address) (shares : Bool) : s.stored tables' shares c = s.stored tables shares c := by
  rw [stored, stored, h]

/-- The tables that the cells find lie between two others: `tables` is what each cell finds when its turn comes. -/
structure Between (s : Sheet) (shares : Bool) (first : StringTable) (cells : List Cell) (tables : Address → StringTable)
    (last : StringTable) : Prop where
  before : ∀ c ∈ cells, first.Grows (tables c.address)
  after : ∀ c ∈ cells, (tables c.address).Grows last
  /-- A text that is stored for a cell is still there in the end. -/
  stored : ∀ c ∈ cells, ∀ v, s.pending? (tables c.address) c = some v →
    (storedValue v c.hasFormula (tables c.address) shares).2.Grows last

theorem Between.mono {s : Sheet} {shares : Bool} {first first' last last' : StringTable} {cells : List Cell}
    {tables : Address → StringTable} (h : s.Between shares first cells tables last) (hfirst : first'.Grows first)
    (hlast : last.Grows last') : s.Between shares first' cells tables last' where
  before c hc := hfirst.trans (h.before c hc)
  after c hc := (h.after c hc).trans hlast
  stored c hc v hv := (h.stored c hc v hv).trans hlast

theorem Between.grows_storedText {s : Sheet} {shares : Bool} {first last : StringTable} {cells : List Cell}
    {tables : Address → StringTable} (h : s.Between shares first cells tables last) {c : Cell} (hc : c ∈ cells)
    (hformula : c.hasFormula = false) {x : String} (hx : x.isEmpty = false)
    (hpending : s.pending? (tables c.address) c = some (.text x)) :
    (storedText x (tables c.address) shares).2.Grows last := by
  have hgrows := h.stored c hc (.text x) hpending
  rw [storedValue_text hx, hformula, if_neg Bool.false_ne_true] at hgrows
  exact hgrows

/-- The table grows from cell to cell: the first cell begins with `first`, and `last` is left in the end. -/
structure Threads (s : Sheet) (shares : Bool) (first : StringTable) (cells : List Cell)
    (tables : Address → StringTable) (last : StringTable) : Prop extends s.Between shares first cells tables last where
  changes : s.changes shares first cells =
    ((s.changing tables cells).map fun c => (c, (s.stored tables shares c).node), last)

/-- The table after a cell has stored its kept value, unless it is there already. -/
def tableAfter (s : Sheet) (shares : Bool) (table : StringTable) (c : Cell) : StringTable :=
  match s.pending? table c with
  | some v => (storedValue v c.hasFormula table shares).2
  | none => table

theorem tableAfter_of_pending {s : Sheet} (shares : Bool) {table : StringTable} {c : Cell} {v : Value}
    (h : s.pending? table c = some v) : s.tableAfter shares table c = (storedValue v c.hasFormula table shares).2 := by
  rw [tableAfter, h]

theorem grows_tableAfter (s : Sheet) (shares : Bool) (table : StringTable) (c : Cell) :
    table.Grows (s.tableAfter shares table c) := by
  unfold tableAfter
  split
  · exact grows_storedValue _ _ _ _
  · exact .refl table

theorem changes_cons (s : Sheet) (shares : Bool) (table : StringTable) (c : Cell) (cells : List Cell) :
    s.changes shares table (c :: cells) =
      (((s.pending? table c).map fun v => (c, c.storing (storedValue v c.hasFormula table shares).1)).toList ++
        (s.changes shares (s.tableAfter shares table c) cells).1, (s.changes shares (s.tableAfter shares table c) cells).2) := by
  rw [changes, tableAfter]
  cases s.pending? table c <;> rfl

section Cons

variable {s : Sheet} {shares : Bool} {first last : StringTable} {c : Cell} {cells : List Cell}
  {tables tables' : Address → StringTable}

theorem Between.cons (h : s.Between shares (s.tableAfter shares first c) cells tables last)
    (hlast : (s.tableAfter shares first c).Grows last) (hhead : tables' c.address = first)
    (htail : ∀ d ∈ cells, tables' d.address = tables d.address) : s.Between shares first (c :: cells) tables' last := by
  have hgrows := s.grows_tableAfter shares first c
  refine ⟨fun d hd => ?_, fun d hd => ?_, fun d hd v hv => ?_⟩
  · obtain rfl | hd := List.mem_cons.mp hd
    · rw [hhead]
      exact .refl first
    · rw [htail d hd]
      exact hgrows.trans (h.before d hd)
  · obtain rfl | hd := List.mem_cons.mp hd
    · rw [hhead]
      exact hgrows.trans hlast
    · rw [htail d hd]
      exact h.after d hd
  · obtain rfl | hd := List.mem_cons.mp hd
    · rw [hhead] at hv ⊢
      rw [← tableAfter_of_pending shares hv]
      exact hlast
    · rw [htail d hd] at hv ⊢
      exact h.stored d hd v hv

/-- The first cell changes given the first table, the others given the table that it leaves. -/
theorem Threads.cons (h : s.Threads shares (s.tableAfter shares first c) cells tables last) (hhead : tables' c.address = first)
    (htail : ∀ d ∈ cells, tables' d.address = tables d.address) : s.Threads shares first (c :: cells) tables' last := by
  have hlast : (s.tableAfter shares first c).Grows last := by
    have hchanges := grows_changes s shares cells (s.tableAfter shares first c)
    rw [h.changes] at hchanges
    exact hchanges
  refine ⟨h.toBetween.cons hlast hhead htail, ?_⟩
  have hrest : (s.changing tables' cells).map (fun d => (d, (s.stored tables' shares d).node)) =
      (s.changing tables cells).map fun d => (d, (s.stored tables shares d).node) := by
    have hfilter : s.changing tables' cells = s.changing tables cells :=
      List.filter_congr fun d hd => by rw [htail d hd]
    rw [hfilter]
    exact List.map_congr_left fun d hd => by rw [stored_congr (htail d (List.mem_filter.mp hd).1)]
  have hchanging : s.changing tables' (c :: cells) =
      if (s.pending? first c).isSome then c :: s.changing tables' cells else s.changing tables' cells := by
    rw [← hhead]
    exact List.filter_cons
  rw [changes_cons, h.changes, hchanging]
  cases hpending : s.pending? first c with
  | none =>
    rw [if_neg (by simp)]
    exact Prod.ext hrest.symm rfl
  | some v =>
    rw [if_pos (by simp), List.map_cons, hrest, stored, hhead, hpending]
    rfl

end Cons

theorem exists_threads (s : Sheet) (shares : Bool) {cells : List Cell} (hnodup : (cells.map (·.address)).Nodup)
    (first : StringTable) : ∃ tables last, s.Threads shares first cells tables last := by
  induction cells generalizing first with
  | nil => exact ⟨fun _ => first, first, ⟨by simp, by simp, by simp⟩, rfl⟩
  | cons c cells ih =>
    rw [List.map_cons, List.nodup_cons] at hnodup
    obtain ⟨hnew, hnodup⟩ := hnodup
    obtain ⟨tables, last, h⟩ := ih hnodup (s.tableAfter shares first c)
    -- No later cell has the address, so each finds the table that it found before.
    refine ⟨fun a => if a = c.address then first else tables a, last, h.cons (if_pos rfl) fun d hd => if_neg ?_⟩
    exact fun heq => hnew (List.mem_map.mpr ⟨d, hd, heq⟩)

theorem address_stored (s : Sheet) (tables : Address → StringTable) (shares : Bool) (c : Cell) :
    (s.stored tables shares c).address = c.address := by
  rw [stored]
  split <;> rfl

theorem stored_replaces (s : Sheet) (tables : Address → StringTable) (shares : Bool) {c : Cell}
    (hc : c ∈ allCells s.part) : (s.stored tables shares c).Replaces c := by
  obtain ⟨-, -, -, -, -, -, -, -, -, -, -, -, hname⟩ := path_of_mem_allCells hc
  unfold stored
  split
  next v _ => exact ⟨rfl, rfl, (name_tagWith c _).trans hname, get?_tagWith_of_ne (by decide) c _⟩
  next => exact ⟨rfl, rfl, hname, rfl⟩

section Changes

variable {s : Sheet} (hcells : s.cells = index s.part) (tables : Address → StringTable)

include hcells

theorem nodup_address_of_index : (s.cells.map (·.address)).Nodup := by
  rw [hcells]
  exact nodup_address_index s.part

theorem mem_allCells_of_changing : ∀ c ∈ s.changing tables s.cells, c ∈ allCells s.part := by
  intro c hc
  have hindex := (List.mem_filter.mp hc).1
  rw [hcells] at hindex
  exact mem_allCells_of_mem_index hindex

theorem nodup_path_of_changing : ((s.changing tables s.cells).map (·.path)).Nodup := by
  have hpaths := nodup_path_index s.part
  rw [← hcells] at hpaths
  exact (List.filter_sublist.map _).nodup hpaths

theorem index_of_changed (shares : Bool) :
    index (replaceCells s.part ((s.changing tables s.cells).map fun c => (c, (s.stored tables shares c).node))) =
      s.cells.map (s.stored tables shares) := by
  have hmem := mem_allCells_of_changing hcells tables
  have hall := allCells_replaceCells hmem (nodup_path_of_changing hcells tables)
    fun c hc => stored_replaces s tables shares (hmem c hc)
  have hindex := index_eq_map (fun c => by split <;> first | exact address_stored s tables shares c | rfl) hall
  rw [hindex, hcells]
  refine List.map_congr_left fun c hc => ?_
  split
  next => rfl
  next hno =>
    -- A cell whose value is there already is not among those that change.
    have hpending : s.pending? (tables c.address) c = none := by
      cases hpending : s.pending? (tables c.address) c with
      | none => rfl
      | some v =>
        refine absurd (List.mem_map.mpr ⟨c, List.mem_filter.mpr ⟨hcells ▸ hc, ?_⟩, rfl⟩) hno
        rw [hpending]
        rfl
    rw [stored, hpending]

end Changes

end Sheet

/-! ## Changed parts are read back -/

theorem mem_modifyAt {f : Node → Node} {i : Nat} {ns : List Node} {n : Node} (h : n ∈ Node.modifyAt f i ns) :
    n ∈ ns ∨ ∃ m ∈ ns, n = f m := by
  induction ns generalizing i with
  | nil => cases i <;> cases h
  | cons m ns ih =>
    cases i with
    | zero =>
      obtain rfl | h := List.mem_cons.mp h
      · exact .inr ⟨m, List.mem_cons_self .., rfl⟩
      · exact .inl (List.mem_cons_of_mem _ h)
    | succ i =>
      obtain rfl | h := List.mem_cons.mp h
      · exact .inl (List.mem_cons_self ..)
      · obtain h | ⟨k, hk, heq⟩ := ih h
        · exact .inl (List.mem_cons_of_mem _ h)
        · exact .inr ⟨k, List.mem_cons_of_mem _ hk, heq⟩

theorem allWritable_modifyAt {f : Node → Node} (hf : ∀ n : Node, n.IsWritable → (f n).IsWritable) {ns : List Node}
    (h : Node.AllWritable ns) (i : Nat) : Node.AllWritable (Node.modifyAt f i ns) := by
  have hall := Node.allWritable_iff.mp h
  refine Node.allWritable_iff.mpr fun n hn => ?_
  obtain hn | ⟨m, hm, rfl⟩ := mem_modifyAt hn
  · exact hall n hn
  · exact hf m (hall m hm)

theorem isWritable_replaceAt {new : Node} (hnew : new.IsWritable) (path : List Nat) {n : Node} (h : n.IsWritable) :
    (Node.replaceAt new path n).IsWritable := by
  induction path generalizing n with
  | nil => exact hnew
  | cons i path ih =>
    cases n with
    | document cs => exact h.elim
    | element t cs => exact ⟨h.1, allWritable_modifyAt (fun m hm => ih hm) h.2 i⟩
    | _ => exact h

theorem eq_text_of_withChildren {n : Node} {cs : List Node} {s : String} (h : n.withChildren cs = .text s) :
    n = .text s := by
  cases n with
  | document ds => cases h
  | element t ds => cases h
  | _ => exact h

theorem isWritablePart_replaceAt {new : Node} (hnew : new.IsWritable) (i j : Nat) (path : List Nat) {part : Node}
    (h : part.IsWritablePart) : (Node.replaceAt new (i :: j :: path) part).IsWritablePart := by
  obtain ⟨cs, rfl⟩ : ∃ cs, part = .document cs := ⟨_, h.whole⟩
  refine ⟨rfl, allWritable_modifyAt (fun n hn => isWritable_replaceAt hnew (j :: path) hn) h.nodes i, fun s hs => ?_⟩
  obtain hs | ⟨m, hm, heq⟩ := mem_modifyAt hs
  · exact h.unmarked s hs
  · rw [eq_text_of_withChildren heq.symm] at hm
    exact h.unmarked s hm

theorem isWritablePart_replaceCells {changed : List (Cell × Node)}
    (hchanged : ∀ p ∈ changed, p.2.IsWritable ∧ ∃ i j path, p.1.path = i :: j :: path) {part : Node}
    (h : part.IsWritablePart) : (Sheet.replaceCells part changed).IsWritablePart := by
  induction changed generalizing part with
  | nil => exact h
  | cons p changed ih =>
    obtain ⟨hnew, i, j, path, hpath⟩ := hchanged p (List.mem_cons_self ..)
    refine ih (fun q hq => hchanged q (List.mem_cons_of_mem _ hq)) ?_
    dsimp only
    rw [hpath]
    exact isWritablePart_replaceAt hnew i j path h

namespace Sheet

open Cell

theorem mem_children_of_locate? {p : Node → Bool} {n m : Node} {i : Nat} (h : locate? p n = some (m, i)) :
    m ∈ n.children := List.fst_mem_of_mem_zipIdx (List.mem_of_find?_eq_some h)

theorem isWritable_of_mem_children {n m : Node} (hn : n.IsWritable) (hm : m ∈ n.children) : m.IsWritable := by
  cases n with
  | document cs => exact hn.elim
  | element t cs => exact Node.allWritable_iff.mp hn.2 m hm
  | _ => cases hm

theorem isWritable_of_mem_allCells {part : Node} (hpart : part.IsWritablePart) {c : Cell} (h : c ∈ allCells part) :
    c.node.IsWritable := by
  obtain ⟨root, data, row, i, j, k, l, -, hroot, hdata, hrow, hcell, -⟩ := path_of_mem_allCells h
  have hrootWritable := Node.allWritable_iff.mp hpart.nodes root (mem_children_of_locate? hroot)
  have hdataWritable := isWritable_of_mem_children hrootWritable (mem_children_of_locate? hdata)
  have hrowWritable := isWritable_of_mem_children hdataWritable (List.fst_mem_of_mem_zipIdx hrow)
  exact isWritable_of_mem_children hrowWritable (List.fst_mem_of_mem_zipIdx hcell)

theorem isWritable_stored (s : Sheet) (tables : Address → StringTable) (shares : Bool) {c : Cell}
    (hc : c.node.IsWritable) : (s.stored tables shares c).node.IsWritable := by
  unfold stored
  split
  next v _ => exact isWritable_storing hc _
  next => exact hc

section Updates

variable {s : Sheet} {shares : Bool} {first last : StringTable} {tables : Address → StringTable}

theorem Threads.update_snd (h : s.Threads shares first s.cells tables last) : (s.update first shares).2 = last := by
  rw [Sheet.update_snd, h.changes]

theorem Threads.update_eq_none_iff (h : s.Threads shares first s.cells tables last) :
    (s.update first shares).1 = none ↔ s.changing tables s.cells = [] := by
  rw [update, h.changes]
  cases s.changing tables s.cells with
  | nil => exact ⟨fun _ => rfl, fun _ => rfl⟩
  | cons c cells => exact ⟨fun hnone => (nomatch hnone), fun hnil => (nomatch hnil)⟩

theorem Threads.update_eq_none (h : s.Threads shares first s.cells tables last) (hnone : (s.update first shares).1 = none) :
    s.cells.map (s.stored tables shares) = s.cells := by
  refine map_eq_self fun c hc => ?_
  have hno := List.filter_eq_nil_iff.mp (h.update_eq_none_iff.mp hnone) c hc
  rw [Sheet.stored, Option.not_isSome_iff_eq_none.mp hno]

theorem Threads.update_eq_some (h : s.Threads shares first s.cells tables last) {part : Node}
    (hpart : (s.update first shares).1 = some part) :
    part = replaceCells s.part ((s.changing tables s.cells).map fun c => (c, (s.stored tables shares c).node)) := by
  rw [update, h.changes] at hpart
  split at hpart
  next => cases hpart
  next heq =>
    obtain ⟨rfl, -⟩ := Prod.mk.inj heq
    exact (Option.some.inj hpart).symm

theorem Threads.parse_updated (h : s.Threads shares first s.cells tables last) (hcells : s.cells = index s.part)
    (hwritable : s.part.IsWritablePart) {part : Node} (hpart : (s.update first shares).1 = some part)
    (strings : StringTable) :
    Markup.parse part.bytes = .ok part.merged ∧
      (index part.merged).map (face strings) = s.cells.map fun c => face strings (s.stored tables shares c) := by
  obtain rfl := h.update_eq_some hpart
  have hchanged : ∀ p ∈ (s.changing tables s.cells).map fun c => (c, (s.stored tables shares c).node),
      p.2.IsWritable ∧ ∃ i j path, p.1.path = i :: j :: path := by
    intro p hp
    obtain ⟨c, hc, rfl⟩ := List.mem_map.mp hp
    have hmem := mem_allCells_of_changing hcells tables c hc
    obtain ⟨-, -, -, i, j, k, l, hpath, -⟩ := path_of_mem_allCells hmem
    exact ⟨isWritable_stored s tables shares (isWritable_of_mem_allCells hwritable hmem), i, j, [k, l], hpath⟩
  refine ⟨parse_bytes (isWritablePart_replaceCells hchanged hwritable), ?_⟩
  rw [map_face_index_merged, index_of_changed hcells, List.map_map]
  rfl

theorem Threads.cells_commit (h : s.Threads shares first s.cells tables last) (hcells : s.cells = index s.part)
    {part : Node} (hpart : (s.update first shares).1 = some part) :
    (s.commit part).cells = s.cells.map (s.stored tables shares) := by
  obtain rfl := h.update_eq_some hpart
  exact index_of_changed hcells tables shares

end Updates

/-! ## Values that need no texts -/

/-- Cells give back all kept values as they are, and none of them is a text. -/
def KeepsStorable (s : Sheet) : Prop := ∀ a v, s.cached? a = some v → v.IsStorable

theorem storedValue_strings {v : Value} (hv : v.IsStorable) (hasFormula : Bool) (strings : StringTable) (shares : Bool) :
    (storedValue v hasFormula strings shares).2 = strings := by
  cases v with
  | text s => exact hv.elim
  | _ => rfl

end Sheet

end Spreadsheet.Book
