import Spreadsheet.Book.Basic
import Spreadsheet.Proofs.Book.Updating

/-! # Parts of a book that are the parts of sheets as well

Nothing keeps a package from listing one of its other parts as a sheet, or as the table of shared texts. When values are
stored in its cells, or texts are added to it, what the other readers find in it has to stay: only the list of cells and
the items of texts change.

* `Surrounds`: two parts that differ in nothing but the list of cells and the items of texts.
* `surrounds_replaceCells`, `surrounds_inNode`, `looksLike_merged`: so does a part whose kept values are stored, and the
  part of the table with new texts, and they look the same when they are read again.
* `BytesLook`, `ArchivesLook`: parts and packages in which every reader finds the same. -/

set_option autoImplicit false

namespace Spreadsheet.Book

open Markup Sheet

/-! ## Around cells and texts -/

/-- The names of children that no save changes. -/
def IsSurrounding (name : String) : Prop := name ≠ "sheetData" ∧ name ≠ "si"

/-- Two root elements that differ in nothing but attributes, the list of cells and the items of texts. -/
structure RootsAgree (root root' : Node) : Prop where
  name : root'.name? = root.name?
  children : ∀ name, IsSurrounding name → root'.childrenNamed name = root.childrenNamed name

/-- Two parts that differ in nothing but the list of cells and the items of texts. -/
def Surrounds (part part' : Node) : Prop :=
  (part.root? = none ∧ part'.root? = none) ∨
    ∃ root root', part.root? = some root ∧ part'.root? = some root' ∧ RootsAgree root root'

theorem Surrounds.refl (part : Node) : Surrounds part part := by
  cases h : part.root? with
  | none => exact .inl ⟨h, h⟩
  | some root => exact .inr ⟨root, root, h, h, rfl, fun _ _ => rfl⟩

theorem Surrounds.trans {part part' part'' : Node} (h : Surrounds part part') (h' : Surrounds part' part'') :
    Surrounds part part'' := by
  obtain ⟨hnone, hnone'⟩ | ⟨root, root', hroot, hroot', hagree⟩ := h
  · obtain ⟨-, hnone''⟩ | ⟨r, r', hr, -, -⟩ := h'
    · exact .inl ⟨hnone, hnone''⟩
    · rw [hnone'] at hr
      cases hr
  · obtain ⟨hnone', -⟩ | ⟨r, r', hr, hr', hagree'⟩ := h'
    · rw [hnone'] at hroot'
      cases hroot'
    · rw [hroot'] at hr
      obtain rfl := Option.some.inj hr
      exact .inr ⟨root, r', hroot, hr', hagree'.name.trans hagree.name, fun name hname =>
        (hagree'.children name hname).trans (hagree.children name hname)⟩

theorem filter_modifyAt {p : Node → Bool} {f : Node → Node} {ns : List Node} {i : Nat}
    (h : ∀ n, ns[i]? = some n → p n = false ∧ p (f n) = false) : (Node.modifyAt f i ns).filter p = ns.filter p := by
  induction ns generalizing i with
  | nil => cases i <;> rfl
  | cons n ns ih =>
    cases i with
    | zero =>
      obtain ⟨hn, hfn⟩ := h n rfl
      rw [Node.modifyAt, List.filter_cons, List.filter_cons, hn, hfn]
      rfl
    | succ i => rw [Node.modifyAt, List.filter_cons, List.filter_cons, ih h]

theorem root?_eq_locate? (part : Node) : part.root? = (locate? (fun n => n.tag?.isSome) part).map (·.1) :=
  (find?_zipIdx_fst _ part.children 0).symm

theorem surrounds_replaceAt {part : Node} {c : Cell} (hc : c ∈ allCells part) (new : Node) :
    Surrounds part (Node.replaceAt new c.path part) := by
  obtain ⟨root, data, row, i, j, k, l, hpath, hroot, hdata, -, -⟩ := path_of_mem_allCells hc
  have hroot' : locate? (fun n => n.tag?.isSome) (Node.replaceAt new [i, j, k, l] part) =
      some (Node.replaceAt new [j, k, l] root, i) :=
    locate?_replaceAt (fun n m h => congrArg Option.isSome h) new [k, l] hroot
  refine .inr ⟨root, Node.replaceAt new [j, k, l] root, ?_, ?_, congrArg (Option.map Tag.name) (tag?_withChildren _ _),
    fun name hname => ?_⟩
  · rw [root?_eq_locate?, hroot]
    rfl
  · rw [root?_eq_locate?, hpath, hroot']
    rfl
  · have hisData : data.isElement "sheetData" = true := by
      have hfound := List.find?_some hdata
      exact hfound
    have hat : root.children[j]? = some data := List.mem_zipIdx_iff_getElem?.mp (List.mem_of_find?_eq_some hdata)
    have hne : root.children ≠ [] := by
      intro hnil
      rw [hnil] at hat
      cases hat
    rw [Node.childrenNamed, Node.childrenNamed, replaceAt_cons, children_withChildren hne]
    refine filter_modifyAt fun n hn => ?_
    rw [hat] at hn
    obtain rfl := Option.some.inj hn
    have hother : data.isElement name = false := by
      rw [Cell.eq_of_isElement hisData]
      exact decide_eq_false (Ne.symm hname.1)
    exact ⟨hother, (isElement_withChildren _ _ name).trans hother⟩

theorem surrounds_replaceCells {part : Node} {cs : List Cell} (hcs : ∀ c ∈ cs, c ∈ allCells part)
    (hnodup : (cs.map (·.path)).Nodup) {u : Cell → Cell} (hu : ∀ c ∈ cs, (u c).Replaces c) :
    Surrounds part (replaceCells part (cs.map fun c => (c, (u c).node))) := by
  induction cs generalizing part with
  | nil => exact Surrounds.refl part
  | cons c cs ih =>
    rw [List.map_cons, List.nodup_cons] at hnodup
    have hc := hcs c (List.mem_cons_self ..)
    refine (surrounds_replaceAt hc (u c).node).trans (ih (fun d hd => ?_) hnodup.2
      fun d hd => hu d (List.mem_cons_of_mem _ hd))
    refine mem_allCells_replaceAt hc (hu c (List.mem_cons_self ..)) (hcs d (List.mem_cons_of_mem _ hd)) fun heq => ?_
    exact hnodup.1 (List.mem_map.mpr ⟨d, hd, heq⟩)

theorem surrounds_inNode (t : StringTable) {part : Node} (h : StringTable.IsTablePart part) :
    Surrounds part (t.inNode part) := by
  obtain ⟨tag, cs, hroot, hname⟩ := h.root
  refine .inr ⟨.element tag cs, t.extend tag cs, hroot, ?_, rfl, fun name hother => ?_⟩
  · rw [StringTable.root?_inNode t part h.writable.whole, hroot, Option.map_some, StringTable.inNode, if_pos hname]
  · rw [StringTable.childrenNamed_extend, if_neg hother.2, List.append_nil]
    rfl

/-! ## Parts that look the same -/

/-- Two root elements in which the readers of other parts find the same. -/
structure RootsLook (root root' : Node) : Prop where
  name : root'.name? = root.name?
  children : ∀ name, IsSurrounding name → root'.childrenNamed name = (root.childrenNamed name).map Node.merged

/-- Two parts in which the readers of other parts find the same. -/
def LooksLike (part part' : Node) : Prop :=
  (part.root? = none ∧ part'.root? = none) ∨
    ∃ root root', part.root? = some root ∧ part'.root? = some root' ∧ RootsLook root root'

theorem Surrounds.looksLike_merged {part part' : Node} (h : Surrounds part part') : LooksLike part part'.merged := by
  obtain ⟨hnone, hnone'⟩ | ⟨root, root', hroot, hroot', hagree⟩ := h
  · refine .inl ⟨hnone, ?_⟩
    rw [Node.root?_merged, hnone', Option.map_none]
  · refine .inr ⟨root, root'.merged, hroot, ?_, ?_, fun name hname => ?_⟩
    · rw [Node.root?_merged, hroot', Option.map_some]
    · rw [Node.name?, Node.tag?_merged]
      exact hagree.name
    · rw [Node.childrenNamed_merged, hagree.children name hname]

theorem RootsLook.isElement {root root' : Node} (h : RootsLook root root') (name : String) :
    root'.isElement name = root.isElement name := by
  rw [Node.isElement, Node.isElement, h.name]

theorem RootsLook.child? {root root' : Node} (h : RootsLook root root') {name : String} (hname : IsSurrounding name) :
    root'.child? name = (root.child? name).map Node.merged := by
  have hhead : ∀ m : Node, m.child? name = (m.childrenNamed name).head? := fun m => List.head?_filter.symm
  rw [hhead, hhead, h.children name hname, List.head?_map]

theorem filterMap_map_merged {α : Type} {f : Node → Option α} (hf : ∀ n : Node, f n.merged = f n) (ns : List Node) :
    (ns.map Node.merged).filterMap f = ns.filterMap f := by
  rw [List.filterMap_map]
  congr 1
  funext n
  exact hf n

theorem map_map_merged {α : Type} {f : Node → α} (hf : ∀ n : Node, f n.merged = f n) (ns : List Node) :
    (ns.map Node.merged).map f = ns.map f := by
  rw [List.map_map]
  congr 1
  funext n
  exact hf n

theorem relationships_looksLike {part part' : Node} (h : LooksLike part part') :
    Relationship.ofTree part' = Relationship.ofTree part := by
  have hnode : ∀ n : Node, Relationship.ofNode? n.merged = Relationship.ofNode? n := by
    intro n
    simp only [Relationship.ofNode?, Node.attribute?_merged]
  unfold Relationship.ofTree
  obtain ⟨hnone, hnone'⟩ | ⟨root, root', hroot, hroot', hlook⟩ := h
  · rw [hnone, hnone']
  · rw [hroot, hroot']
    dsimp only
    rw [hlook.isElement, hlook.children "Relationship" ⟨by decide, by decide⟩, filterMap_map_merged hnode]

theorem listed_looksLike {root root' : Node} (h : RootsLook root root') {list : String} (hlist : IsSurrounding list)
    (name : String) : Formats.listed root' list name = (Formats.listed root list name).map Node.merged := by
  rw [Formats.listed, Formats.listed, h.child? hlist]
  cases root.child? list with
  | none => rfl
  | some l => exact Node.childrenNamed_merged l name

theorem formats_looksLike {part part' : Node} (h : LooksLike part part') : Formats.ofTree part' = Formats.ofTree part := by
  have hnumber : ∀ (n : Node) (key : String), Formats.numberIn? n.merged key = Formats.numberIn? n key := by
    intro n key
    rw [Formats.numberIn?, Formats.numberIn?, Node.attribute?_merged]
  have hcode : ∀ n : Node, Formats.code? n.merged = Formats.code? n := by
    intro n
    simp only [Formats.code?, hnumber, Node.attribute?_merged]
  have hrecord : ∀ n : Node, Formats.recordOf n.merged = Formats.recordOf n := by
    intro n
    simp only [Formats.recordOf, hnumber]
  unfold Formats.ofTree
  obtain ⟨hnone, hnone'⟩ | ⟨root, root', hroot, hroot', hlook⟩ := h
  · rw [hnone, hnone']
  · rw [hroot, hroot']
    dsimp only
    rw [listed_looksLike hlook ⟨by decide, by decide⟩, listed_looksLike hlook ⟨by decide, by decide⟩,
      listed_looksLike hlook ⟨by decide, by decide⟩, filterMap_map_merged hcode, map_map_merged hrecord, map_map_merged hrecord]

theorem notes_looksLike {part part' : Node} (h : LooksLike part part') : Notes.ofTree part' = Notes.ofTree part := by
  have htext : ∀ n : Node, Notes.textOf n.merged = Notes.textOf n := by
    intro n
    unfold Notes.textOf
    rw [Node.child?_merged]
    cases n.child? "text" with
    | none => exact Node.content_merged n
    | some item => exact itemText_merged item
  have hnote : ∀ (names : List String) (n : Node), Notes.note? names n.merged = Notes.note? names n := by
    intro names n
    simp only [Notes.note?, Notes.author?, Node.attribute?_merged, htext]
  unfold Notes.ofTree
  obtain ⟨hnone, hnone'⟩ | ⟨root, root', hroot, hroot', hlook⟩ := h
  · rw [hnone, hnone']
  · have hauthors : Notes.authors root' = Notes.authors root := by
      rw [Notes.authors, Notes.authors, hlook.child? ⟨by decide, by decide⟩]
      cases root.child? "authors" with
      | none => rfl
      | some list =>
        rw [Option.map_some, Option.map_some, Option.map_some, Node.childrenNamed_merged,
          map_map_merged Node.content_merged]
    rw [hroot, hroot']
    dsimp only
    rw [hauthors, hlook.child? ⟨by decide, by decide⟩]
    cases root.child? "commentList" with
    | none => rfl
    | some list =>
      rw [Option.map_some]
      dsimp only
      rw [Node.childrenNamed_merged, filterMap_map_merged (hnote _)]

theorem catalog_looksLike {root root' : Node} (h : RootsLook root root') (rs : List Relationship) :
    Catalog.ofRoot root' rs = Catalog.ofRoot root rs := by
  have hsheet : ∀ n : Node, Catalog.sheetOf? rs n.merged = Catalog.sheetOf? rs n := by
    intro n
    simp only [Catalog.sheetOf?, Node.attribute?_merged]
  rw [Catalog.ofRoot, Catalog.ofRoot, h.child? ⟨by decide, by decide⟩]
  cases root.child? "sheets" with
  | none => rfl
  | some list =>
    rw [Option.map_some]
    dsimp only
    rw [Node.childrenNamed_merged, filterMap_map_merged hsheet]

/-- What surrounds the cells of a sheet looks the same after its kept values have been stored. -/
theorem looksLike_updated {s : Sheet} {shares : Bool} {first last : StringTable} {tables : Grid.Address → StringTable}
    (h : s.Threads shares first s.cells tables last) (hcells : s.cells = index s.part) {part : Node}
    (hpart : (s.update first shares).1 = some part) : LooksLike s.part part.merged := by
  obtain rfl := h.update_eq_some hpart
  have hmem := mem_allCells_of_changing hcells tables
  exact (surrounds_replaceCells hmem (nodup_path_of_changing hcells tables)
    fun c hc => stored_replaces s tables shares (hmem c hc)).looksLike_merged

/-! ## Packages that look the same -/

/-- The bytes of two parts in which the readers of other parts find the same. -/
def BytesLook (bytes bytes' : Bytes) : Prop :=
  bytes' = bytes ∨ ∃ part part', Markup.parse bytes = .ok part ∧ Markup.parse bytes' = .ok part' ∧ LooksLike part part'

theorem BytesLook.map_parse {α : Type} {f : Node → α} (hf : ∀ {part part'}, LooksLike part part' → f part' = f part)
    {bytes bytes' : Bytes} (h : BytesLook bytes bytes') {x : α} (hx : (Markup.parse bytes).map f = .ok x) :
    (Markup.parse bytes').map f = .ok x := by
  obtain rfl | ⟨part, part', hparse, hparse', hlook⟩ := h
  · exact hx
  · rw [hparse] at hx
    rw [hparse', ← hx]
    exact congrArg Except.ok (hf hlook)

theorem catalog_bytesLook {workbook workbook' relationships relationships' : Bytes} (hw : BytesLook workbook workbook')
    (hr : BytesLook relationships relationships') {c : Catalog} (h : Catalog.read workbook relationships = .ok c) :
    Catalog.read workbook' relationships' = .ok c := by
  simp only [Catalog.read, bind_eq_ok, mapError_eq_ok] at h
  obtain ⟨part, hpart, h⟩ := h
  cases hroot : part.root?.filter (fun root => root.isElement "workbook") with
  | none =>
    rw [hroot] at h
    cases h
  | some root =>
    rw [hroot] at h
    simp only [bind_eq_ok, mapError_eq_ok, pure_eq_ok] at h
    obtain ⟨rs, hrs, rfl⟩ := h
    have hrs' : Relationship.readAll relationships' = .ok rs := hr.map_parse relationships_looksLike hrs
    have hfound : ∃ part' root', Markup.parse workbook' = .ok part' ∧
        part'.root?.filter (fun root => root.isElement "workbook") = some root' ∧
          Catalog.ofRoot root' rs = Catalog.ofRoot root rs := by
      obtain rfl | ⟨old, part', hold, hpart', hlook⟩ := hw
      · exact ⟨part, root, hpart, hroot, rfl⟩
      · rw [hold] at hpart
        obtain rfl := Except.ok.inj hpart
        obtain ⟨hsome, hworkbook⟩ := Option.filter_eq_some_iff.mp hroot
        obtain ⟨hnone, -⟩ | ⟨r, root', hr, hroot', hlook⟩ := hlook
        · rw [hnone] at hsome
          cases hsome
        · rw [hr] at hsome
          obtain rfl := Option.some.inj hsome
          refine ⟨part', root', hpart', ?_, catalog_looksLike hlook rs⟩
          rw [hroot', Option.filter_some, if_pos]
          rw [hlook.isElement]
          exact hworkbook
    obtain ⟨part', root', hpart', hroot', hcatalog⟩ := hfound
    simp only [Catalog.read, bind_eq_ok, mapError_eq_ok]
    refine ⟨part', hpart', ?_⟩
    rw [hroot', hrs', ← hcatalog]
    rfl

/-- Two packages with the same parts, in which the readers of parts other than sheets find the same. -/
structure ArchivesLook (a a' : Archive) : Prop where
  contains : ∀ name, a'.contains name = a.contains name
  read : ∀ {name bytes}, a.read name = .ok bytes → ∃ bytes', a'.read name = .ok bytes' ∧ BytesLook bytes bytes'

theorem ArchivesLook.requiredPart {a a' : Archive} (h : ArchivesLook a a') {path : String} {bytes : Bytes}
    (hpart : Book.requiredPart a path = .ok bytes) :
    ∃ bytes', Book.requiredPart a' path = .ok bytes' ∧ BytesLook bytes bytes' := by
  rw [Book.requiredPart] at hpart
  split at hpart
  next hcontains =>
    obtain ⟨bytes', hread, hlook⟩ := h.read (mapError_eq_ok.mp hpart)
    refine ⟨bytes', ?_, hlook⟩
    rw [Book.requiredPart, h.contains, if_pos hcontains, hread]
    rfl
  next => cases hpart

theorem ArchivesLook.optionalPart {a a' : Archive} (h : ArchivesLook a a') {path : Option String} {part : Option Bytes}
    (hpart : Book.optionalPart a path = .ok part) : ∃ part', Book.optionalPart a' path = .ok part' ∧
      ((part = none ∧ part' = none) ∨ ∃ bytes bytes', part = some bytes ∧ part' = some bytes' ∧ BytesLook bytes bytes') := by
  have hsame : path.filter a'.contains = path.filter a.contains := by
    congr 1
    exact funext h.contains
  rw [Book.optionalPart] at hpart
  rw [Book.optionalPart, hsame]
  cases hfilter : path.filter a.contains with
  | none =>
    rw [hfilter] at hpart
    cases hpart
    exact ⟨none, rfl, .inl ⟨rfl, rfl⟩⟩
  | some path =>
    rw [hfilter] at hpart
    obtain ⟨bytes, hbytes, rfl⟩ := map_eq_ok.mp hpart
    obtain ⟨bytes', hread, hlook⟩ := h.read (mapError_eq_ok.mp hbytes)
    refine ⟨some bytes', ?_, .inr ⟨bytes, bytes', rfl, rfl, hlook⟩⟩
    dsimp only
    rw [hread]
    rfl

theorem ArchivesLook.readFormats {a a' : Archive} (h : ArchivesLook a a') {c : Catalog} {f : Formats}
    (hf : Book.readFormats a c = .ok f) : Book.readFormats a' c = .ok f := by
  simp only [Book.readFormats, bind_eq_ok] at hf ⊢
  obtain ⟨part, hpart, hf⟩ := hf
  obtain ⟨part', hpart', ⟨rfl, rfl⟩ | ⟨bytes, bytes', rfl, rfl, hlook⟩⟩ := h.optionalPart hpart
  · exact ⟨none, hpart', hf⟩
  · exact ⟨some bytes', hpart', mapError_eq_ok.mpr (hlook.map_parse formats_looksLike (mapError_eq_ok.mp hf))⟩

theorem ArchivesLook.notesPart {a a' : Archive} (h : ArchivesLook a a') {path : String} {part : Option Bytes}
    (hpart : Book.notesPart a path = .ok part) : ∃ part', Book.notesPart a' path = .ok part' ∧
      ((part = none ∧ part' = none) ∨ ∃ bytes bytes', part = some bytes ∧ part' = some bytes' ∧ BytesLook bytes bytes') := by
  simp only [Book.notesPart, bind_eq_ok] at hpart
  obtain ⟨relationships, hrelationships, hpart⟩ := hpart
  obtain ⟨relationships', hrelationships', hlook⟩ := h.optionalPart hrelationships
  obtain ⟨rfl, rfl⟩ | ⟨bytes, bytes', rfl, rfl, hlook⟩ := hlook
  · cases pure_eq_ok.mp hpart
    refine ⟨none, ?_, .inl ⟨rfl, rfl⟩⟩
    rw [Book.notesPart, hrelationships']
    rfl
  · simp only [bind_eq_ok, mapError_eq_ok] at hpart
    obtain ⟨rs, hrs, hpart⟩ := hpart
    obtain ⟨part', hpart', hparts⟩ := h.optionalPart hpart
    have hrs' : Relationship.readAll bytes' = .ok rs := hlook.map_parse relationships_looksLike hrs
    refine ⟨part', ?_, hparts⟩
    rw [Book.notesPart, hrelationships', ok_bind]
    dsimp only
    rw [hrs']
    exact hpart'

/-- A package that looks like one with a book is one with the same book, but for the table of shared texts. -/
theorem ArchivesLook.ofArchive {a a' : Archive} (h : ArchivesLook a a') {options : Options} {b : Book}
    (hb : Book.ofArchive a options = .ok b) {strings : StringTable} (hstrings : readStrings a' b.catalog = .ok strings) :
    Book.ofArchive a' options = .ok { b with archive := a', strings } := by
  simp only [Book.ofArchive, bind_eq_ok, pure_eq_ok] at hb ⊢
  obtain ⟨workbook, hworkbook, relationships, hrelationships, catalog, hcatalog, old, -, formats, hformats, rfl⟩ := hb
  obtain ⟨workbook', hworkbook', hlook⟩ := h.requiredPart hworkbook
  obtain ⟨relationships', hrelationships', hlook'⟩ := h.requiredPart hrelationships
  exact ⟨workbook', hworkbook', relationships', hrelationships', catalog, catalog_bytesLook hlook hlook' hcatalog,
    strings, hstrings, formats, h.readFormats hformats, rfl⟩

end Spreadsheet.Book
