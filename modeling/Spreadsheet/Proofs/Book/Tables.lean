import Spreadsheet.Proofs.Book.Storing

/-! # Tables of texts that grow

While values are stored, texts are added at the end of the table of shared texts, so every number keeps its text. The part
is written afterwards, with an item for each new text.

* `StringTable.Grows`: a table to which texts have been added.
* `StringTable.Counts`: what one cell with the number of a text does to the table.
* `storedText_cases`, `storedValue_cases`: where a text is stored, and any value.
* `StringTable.inNode`: the part with the new items, as a function on trees.
* `read_updated`: the texts that are found in the part when it is read again. -/

set_option autoImplicit false

namespace Spreadsheet.Book

open Markup

/-! ## Texts of items -/

theorem itemRuns_followedBy (n : Node) (ns : List Node) : itemRuns (n.followedBy ns) = itemRuns (n :: ns) := by
  have htext : ∀ s ns, itemRuns (.text s :: ns) = itemRuns ns := fun s ns => by
    rw [itemRuns]
    exact String.empty_append
  unfold Node.followedBy
  split
  next s t rest => rw [htext, htext, htext]
  next s ns =>
    split
    · rw [htext]
    · rfl
  next => rfl

theorem itemRuns_mergedAll (cs : List Node) : itemRuns (Node.mergedAll cs) = itemRuns cs := by
  induction cs with
  | nil => rfl
  | cons n cs ih =>
    have hcontent : ((n.child? "t").map Node.merged).map Node.content = (n.child? "t").map Node.content := by
      rw [Option.map_map]
      congr 1
      funext c
      exact Node.content_merged c
    rw [Node.mergedAll, itemRuns_followedBy, itemRuns, itemRuns, ih, Node.isElement_merged,
      Node.isElement_merged, Node.content_merged, Node.child?_merged, hcontent]

theorem itemText_merged (n : Node) : itemText n.merged = itemText n := by
  rw [itemText, itemText, Node.children_merged, itemRuns_mergedAll]

theorem itemText_textElement (tag : Tag) (s : String) : itemText (.element tag [textElement s]) = decodeEscapes s := by
  have hcontent : (textElement s).content = s := by
    rw [textElement, Node.content, Node.contentOfAll, Node.contentOfAll, Node.content, String.append_empty]
  have hruns : itemRuns [textElement s] = s := by
    rw [itemRuns, itemRuns, if_pos (by rfl), hcontent, String.append_empty]
  rw [itemText]
  exact congrArg decodeEscapes hruns

theorem itemText_stringItem (s : String) : itemText (stringItem s) = decodeEscapes s :=
  itemText_textElement _ s

/-! ## Texts at the end -/

namespace StringTable

/-- A table to which texts have been added at the end, and references. One without a part gets no texts. -/
structure Grows (t t' : StringTable) : Prop where
  part : t'.part = t.part
  loaded : t'.loaded = t.loaded
  strings : t.strings <+: t'.strings
  references : t.references ≤ t'.references
  partless : t.part = none → t'.strings = t.strings

theorem Grows.refl (t : StringTable) : t.Grows t := ⟨rfl, rfl, List.prefix_rfl, Nat.le_refl _, fun _ => rfl⟩

theorem Grows.trans {t t' t'' : StringTable} (h : t.Grows t') (h' : t'.Grows t'') : t.Grows t'' where
  part := h'.part.trans h.part
  loaded := h'.loaded.trans h.loaded
  strings := h.strings.trans h'.strings
  references := Nat.le_trans h.references h'.references
  partless hnone := (h'.partless (h.part.trans hnone)).trans (h.partless hnone)

theorem Grows.get? {t t' : StringTable} (h : t.Grows t') {i : Nat} {s : String} (hs : t.get? i = some s) :
    t'.get? i = some s := by
  obtain ⟨added, hadded⟩ := h.strings
  obtain ⟨hi, -⟩ := List.getElem?_eq_some_iff.mp hs
  rw [StringTable.get?, ← hadded, List.getElem?_append_left hi]
  exact hs

theorem get?_of_position? {t : StringTable} {s : String} {i : Nat} (h : t.position? s = some i) : t.get? i = some s := by
  obtain ⟨hi, hfound, -⟩ := List.findIdx?_eq_some_iff_getElem.mp h
  rw [get?, List.getElem?_eq_getElem hi, eq_of_beq hfound]

theorem mem_of_position? {t : StringTable} {x : String} {i : Nat} (h : t.position? x = some i) : x ∈ t.strings :=
  List.mem_of_getElem? (get?_of_position? h)

theorem not_mem_of_position? {t : StringTable} {x : String} (h : t.position? x = none) : x ∉ t.strings := by
  intro hmem
  have hno := List.findIdx?_eq_none_iff.mp h x hmem
  rw [beq_self_eq_true] at hno
  cases hno

theorem reference_eq (t : StringTable) (x : String) : t.reference x = match t.position? x with
    | some i => (i, { t with references := t.references + 1 })
    | none => (t.strings.length, { t with strings := t.strings ++ [x], references := t.references + 1 }) := rfl

/-- A cell holds the number `i` of the text `x`: the text is in the table or has been added, and the cell is counted. -/
structure Counts (shares : Bool) (t : StringTable) (x : String) (i : Nat) (t' : StringTable) : Prop where
  text : t'.get? i = some x
  strings : t'.strings = if x ∈ t.strings then t.strings else t.strings ++ [x]
  /-- Only a table with a part gets new texts, and only if texts are shared. -/
  known : shares = false ∨ t.part = none → x ∈ t.strings
  references : t'.references = t.references + 1
  part : t'.part = t.part
  loaded : t'.loaded = t.loaded

theorem Counts.pos {shares : Bool} {t t' : StringTable} {x : String} {i : Nat} (h : t.Counts shares x i t') :
    0 < t'.references := by
  rw [h.references]
  exact Nat.succ_pos _

theorem Counts.grows {shares : Bool} {t t' : StringTable} {x : String} {i : Nat} (h : t.Counts shares x i t') :
    t.Grows t' where
  part := h.part
  loaded := h.loaded
  strings := by
    rw [h.strings]
    split
    · exact List.prefix_rfl
    · exact List.prefix_append _ _
  references := by
    rw [h.references]
    exact Nat.le_succ _
  partless hnone := h.strings.trans (if_pos (h.known (.inr hnone)))

end StringTable

namespace Sheet

theorem storedText_cases (x : String) (t : StringTable) (shares : Bool) :
    (∃ i, (storedText x t shares).1 = .sharedText i ∧ t.Counts shares x i (storedText x t shares).2) ∨
      storedText x t shares = (.inlineText x, t) := by
  unfold storedText
  cases hposition : t.position? x with
  | some i =>
    have hmem := StringTable.mem_of_position? hposition
    have hcounts : t.Counts shares x i { t with references := t.references + 1 } :=
      ⟨StringTable.get?_of_position? hposition, (if_pos hmem).symm, fun _ => hmem, rfl, rfl, rfl⟩
    left
    split
    · rw [StringTable.reference_eq, hposition]
      exact ⟨i, rfl, hcounts⟩
    · rw [StringTable.referenceExisting, hposition]
      exact ⟨i, rfl, hcounts⟩
  | none =>
    have hnew := StringTable.not_mem_of_position? hposition
    split
    next hshares =>
      rw [StringTable.reference_eq, hposition]
      refine .inl ⟨t.strings.length, rfl, List.getElem?_concat_length, (if_neg hnew).symm, ?_, rfl, rfl, rfl⟩
      rintro (hno | hno)
      · exact absurd hshares.1 (Bool.eq_false_iff.mp hno)
      · rw [hno] at hshares
        cases hshares.2
    next =>
      rw [StringTable.referenceExisting, hposition]
      exact .inr rfl

theorem storedValue_text {x : String} (hx : x.isEmpty = false) (hasFormula : Bool) (t : StringTable) (shares : Bool) :
    storedValue (.text x) hasFormula t shares = if hasFormula then (.formulaText x, t) else storedText x t shares := by
  rw [storedValue, if_neg (by rw [hx]; exact Bool.false_ne_true)]

theorem storedValue_cases (v : Value) (hasFormula : Bool) (t : StringTable) (shares : Bool) :
    (∃ x i, v = .text x ∧ hasFormula = false ∧ (storedValue v hasFormula t shares).1 = .sharedText i ∧
        t.Counts shares x i (storedValue v hasFormula t shares).2) ∨
      (∀ i, (storedValue v hasFormula t shares).1 ≠ .sharedText i) ∧ (storedValue v hasFormula t shares).2 = t := by
  cases v with
  | text x =>
    rw [storedValue]
    split
    next => exact .inr ⟨fun _ => Stored.noConfusion, rfl⟩
    split
    next => exact .inr ⟨fun _ => Stored.noConfusion, rfl⟩
    next hformula =>
      obtain ⟨i, hi, hcounts⟩ | hinline := storedText_cases x t shares
      · exact .inl ⟨x, i, rfl, Bool.eq_false_iff.mpr hformula, hi, hcounts⟩
      · rw [hinline]
        exact .inr ⟨fun _ => Stored.noConfusion, rfl⟩
  | number x =>
    refine .inr ⟨fun i h => ?_, rfl⟩
    rw [storedValue] at h
    dsimp only at h
    split at h
    · cases h
    · split at h <;> cases h
  | blank => exact .inr ⟨fun _ => Stored.noConfusion, rfl⟩
  | truth b => exact .inr ⟨fun _ => Stored.noConfusion, rfl⟩

theorem grows_storedValue (v : Value) (hasFormula : Bool) (t : StringTable) (shares : Bool) :
    t.Grows (storedValue v hasFormula t shares).2 := by
  obtain ⟨x, i, -, -, -, hcounts⟩ | ⟨-, hsame⟩ := storedValue_cases v hasFormula t shares
  · exact hcounts.grows
  · rw [hsame]
    exact .refl t

theorem update_snd (s : Sheet) (t : StringTable) (shares : Bool) :
    (s.update t shares).2 = (s.changes shares t s.cells).2 := by
  unfold update
  split
  next heq => rw [heq]
  next heq => rw [heq]

/-- What is kept when one value is stored is kept when the cells of a sheet change. -/
theorem keeps_changes {P : StringTable → Prop} {s : Sheet} {shares : Bool}
    (hP : ∀ {a v}, s.cached? a = some v → ∀ hasFormula {t}, P t → P (storedValue v hasFormula t shares).2)
    (cells : List Cell) {t : StringTable} (ht : P t) : P (s.changes shares t cells).2 := by
  induction cells generalizing t with
  | nil => exact ht
  | cons c cells ih =>
    rw [changes]
    split
    next => exact ih ht
    next v hv => exact ih (hP (Option.filter_eq_some_iff.mp hv).1 c.hasFormula ht)

theorem keeps_update {P : StringTable → Prop} {s : Sheet} {shares : Bool}
    (hP : ∀ {a v}, s.cached? a = some v → ∀ hasFormula {t}, P t → P (storedValue v hasFormula t shares).2)
    {t : StringTable} (ht : P t) : P (s.update t shares).2 := by
  rw [update_snd]
  exact keeps_changes hP s.cells ht

theorem grows_changes (s : Sheet) (shares : Bool) (cells : List Cell) (t : StringTable) :
    t.Grows (s.changes shares t cells).2 :=
  keeps_changes (fun _ hasFormula _ ht => ht.trans (grows_storedValue _ hasFormula _ shares)) cells (.refl t)

end Sheet

/-! ## The part of the table -/

namespace StringTable

mutual

def inNode (t : StringTable) : Node → Node
  | .document cs => .document (t.inNodes cs)
  | .element tag cs => if tag.name = "sst" then t.extend tag cs else .element tag (t.inNodes cs)
  | .text s => .text s
  | .comment s => .comment s
  | .cdata s => .cdata s
  | .declaration s => .declaration s
  | .instruction s => .instruction s
  | .doctype s => .doctype s

def inNodes (t : StringTable) : List Node → List Node
  | [] => []
  | n :: rest => t.inNode n :: t.inNodes rest

end

def visit (t : StringTable) (u : Unit) (n : Node) : Edit × Unit := (t.edit n, u)

mutual

theorem walk_visit (t : StringTable) : (n : Node) →
    ((n.walk t.visit ()).1 = .untouched ∧ t.inNode n = n) ∨ (n.walk t.visit ()).1 = .changed (t.inNode n)
  | .document cs => by
    have hkeep : t.edit (.document cs) = .keep := rfl
    have hall := walkAll_visit t cs
    rw [Node.walk, inNode, visit, hkeep]
    dsimp only
    cases hwalk : Node.walkAll t.visit () cs with
    | mk ds u =>
      rw [hwalk] at hall
      obtain ⟨hnone, hsame⟩ | hsome := hall
      · obtain rfl : ds = none := hnone
        exact .inl ⟨rfl, congrArg _ hsame⟩
      · obtain rfl : ds = some (t.inNodes cs) := hsome
        exact .inr rfl
  | .element tag cs => by
    rw [Node.walk, inNode, visit, edit]
    have hall := walkAll_visit t cs
    by_cases htag : tag.name = "sst"
    · rw [if_pos htag, if_pos htag]
      exact .inr rfl
    · rw [if_neg htag, if_neg htag]
      dsimp only
      cases hwalk : Node.walkAll t.visit () cs with
      | mk ds u =>
        rw [hwalk] at hall
        obtain ⟨hnone, hsame⟩ | hsome := hall
        · obtain rfl : ds = none := hnone
          exact .inl ⟨rfl, congrArg _ hsame⟩
        · obtain rfl : ds = some (t.inNodes cs) := hsome
          exact .inr rfl
  | .text s => .inl ⟨rfl, rfl⟩
  | .comment s => .inl ⟨rfl, rfl⟩
  | .cdata s => .inl ⟨rfl, rfl⟩
  | .declaration s => .inl ⟨rfl, rfl⟩
  | .instruction s => .inl ⟨rfl, rfl⟩
  | .doctype s => .inl ⟨rfl, rfl⟩

theorem walkAll_visit (t : StringTable) : (ns : List Node) →
    ((Node.walkAll t.visit () ns).1 = none ∧ t.inNodes ns = ns) ∨ (Node.walkAll t.visit () ns).1 = some (t.inNodes ns)
  | [] => .inl ⟨rfl, rfl⟩
  | n :: rest => by
    have hfirst := walk_visit t n
    have hrest := walkAll_visit t rest
    rw [Node.walkAll, inNodes]
    cases hwalk : n.walk t.visit () with
    | mk outcome u =>
      cases hwalkAll : Node.walkAll t.visit () rest with
      | mk ds u' =>
        rw [hwalk] at hfirst
        rw [hwalkAll] at hrest
        dsimp only at hfirst hrest ⊢
        obtain ⟨rfl, hsame⟩ | rfl := hfirst
        · obtain ⟨rfl, hall⟩ | rfl := hrest
          · exact .inl ⟨by rw [hwalkAll], by rw [hsame, hall]⟩
          · refine .inr ?_
            rw [hwalkAll, hsame]
        · obtain ⟨rfl, hall⟩ | rfl := hrest
          · refine .inr ?_
            rw [hwalkAll, hall]
            rfl
          · refine .inr ?_
            rw [hwalkAll]
            rfl

end

theorem inNodes_eq_map (t : StringTable) (ns : List Node) : t.inNodes ns = ns.map t.inNode := by
  induction ns with
  | nil => rfl
  | cons n ns ih => rw [inNodes, ih, List.map_cons]

theorem updated?_eq_some {t : StringTable} {new : Node} :
    t.updated? = some new ↔ t.isModified = true ∧ ∃ part, t.part = some part ∧ new = t.inNode part := by
  have hedited : ∀ part : Node, (part.edited (fun (_ : Unit) n => (t.edit n, ())) ()).1 = t.inNode part := by
    intro part
    have hwalk := walk_visit t part
    have hvisit : (fun (_ : Unit) n => (t.edit n, ())) = t.visit := rfl
    rw [Node.edited, hvisit]
    cases h : part.walk t.visit () with
    | mk outcome u =>
      rw [h] at hwalk
      dsimp only at hwalk
      obtain ⟨rfl, hsame⟩ | rfl := hwalk
      · exact hsame.symm
      · rfl
  rw [updated?]
  split
  next hmodified =>
    rw [Option.map_eq_some_iff]
    simp only [hedited, hmodified, true_and, eq_comm]
  next hmodified =>
    constructor
    · intro h
      cases h
    · rintro ⟨h, -⟩
      exact absurd h hmodified

/-! ### Reading it again -/

theorem tag?_isSome_inNode (t : StringTable) (n : Node) : (t.inNode n).tag?.isSome = n.tag?.isSome := by
  cases n with
  | element tag cs =>
    rw [inNode]
    split <;> rfl
  | _ => rfl

theorem root?_inNode (t : StringTable) (part : Node) (hpart : part = .document part.children) :
    (t.inNode part).root? = part.root?.map t.inNode := by
  rw [hpart, inNode, inNodes_eq_map, Node.root?, Node.root?]
  show List.find? _ (List.map _ _) = (List.find? _ part.children).map _
  rw [List.find?_map]
  congr 2
  funext n
  exact tag?_isSome_inNode t n

theorem isWritable_stringItem (s : String) : (stringItem s).IsWritable :=
  ⟨⟨by decide +kernel, List.nodup_nil⟩, Cell.isWritable_textElement s, trivial⟩

theorem isWritable_extend {tag : Tag} {cs : List Node} (t : StringTable) (h : (Node.element tag cs).IsWritable) :
    (t.extend tag cs).IsWritable := by
  refine ⟨(h.1.set (by decide +kernel) _).set (by decide +kernel) _, Node.allWritable_iff.mpr fun n hn => ?_⟩
  obtain hold | hnew := List.mem_append.mp hn
  · exact Node.allWritable_iff.mp h.2 n hold
  · obtain ⟨s, -, rfl⟩ := List.mem_map.mp hnew
    exact isWritable_stringItem s

mutual

theorem isWritable_inNode (t : StringTable) : (n : Node) → n.IsWritable → (t.inNode n).IsWritable
  | .document _, h => h.elim
  | .element tag cs, h => by
    rw [inNode]
    split
    · exact isWritable_extend t h
    · exact ⟨h.1, allWritable_inNodes t cs h.2⟩
  | .text _, h => h
  | .comment _, h => h
  | .cdata _, h => h
  | .declaration _, h => h
  | .instruction _, h => h
  | .doctype _, h => h

theorem allWritable_inNodes (t : StringTable) : (ns : List Node) → Node.AllWritable ns → Node.AllWritable (t.inNodes ns)
  | [], h => h
  | n :: rest, h => ⟨isWritable_inNode t n h.1, allWritable_inNodes t rest h.2⟩

end

theorem isWritablePart_inNode {t : StringTable} {part : Node} (h : part.IsWritablePart) :
    (t.inNode part).IsWritablePart := by
  obtain ⟨cs, rfl⟩ : ∃ cs, part = .document cs := ⟨_, h.whole⟩
  rw [inNode]
  refine ⟨rfl, allWritable_inNodes t cs h.nodes, fun s hs => ?_⟩
  have hs : Node.text s ∈ t.inNodes cs := hs
  rw [inNodes_eq_map] at hs
  obtain ⟨n, hn, heq⟩ := List.mem_map.mp hs
  have htext : n = .text s := by
    cases n with
    | text u => exact heq
    | element tag ds =>
      rw [inNode] at heq
      split at heq <;> cases heq
    | _ => cases heq
  exact h.unmarked s (htext ▸ hn)

/-- The root of a part is a list of texts. -/
def IsRooted (part : Node) : Prop := ∃ root ∈ part.root?, root.isElement "sst" = true

instance (part : Node) : Decidable (IsRooted part) :=
  inferInstanceAs (Decidable (∃ root ∈ part.root?, root.isElement "sst" = true))

theorem isRooted_iff {part : Node} : IsRooted part ↔ ∃ tag cs, part.root? = some (.element tag cs) ∧ tag.name = "sst" := by
  constructor
  · rintro ⟨root, hroot, hname⟩
    cases root with
    | element tag cs => exact ⟨tag, cs, hroot, Option.some.inj (eq_of_beq hname)⟩
    | _ => cases hname
  · rintro ⟨tag, cs, hroot, hname⟩
    exact ⟨.element tag cs, hroot, beq_iff_eq.mpr (congrArg some hname)⟩

/-- The part of a table, with the list of texts for its root. -/
structure IsTablePart (part : Node) : Prop where
  writable : part.IsWritablePart
  root : ∃ tag cs, part.root? = some (.element tag cs) ∧ tag.name = "sst"

theorem IsTablePart.isRooted {part : Node} (h : IsTablePart part) : IsRooted part := isRooted_iff.mpr h.root

theorem isElement_inNode (t : StringTable) (n : Node) (name : String) : (t.inNode n).isElement name = n.isElement name := by
  cases n with
  | element tag cs =>
    rw [inNode]
    split <;> rfl
  | _ => rfl

theorem whole_inNode {t : StringTable} {part : Node} (h : part = .document part.children) :
    t.inNode part = .document (t.inNode part).children := by
  rw [h]
  rfl

theorem isRooted_of_inNode {t : StringTable} {part : Node} (hwhole : part = .document part.children)
    (h : IsRooted (t.inNode part)) : IsRooted part := by
  obtain ⟨root, hroot, hname⟩ := h
  rw [root?_inNode t part hwhole] at hroot
  obtain ⟨old, hold, rfl⟩ := Option.map_eq_some_iff.mp hroot
  exact ⟨old, hold, by rw [← isElement_inNode t old]; exact hname⟩

theorem childrenNamed_extend (t : StringTable) (tag : Tag) (cs : List Node) (name : String) :
    (t.extend tag cs).childrenNamed name =
      cs.filter (fun n => n.isElement name) ++ if name = "si" then t.added.map stringItem else [] := by
  have hitems : (t.added.map stringItem).filter (fun n => n.isElement name) =
      if name = "si" then t.added.map stringItem else [] := by
    split
    next h =>
      rw [List.filter_eq_self]
      intro n hn
      obtain ⟨s, -, rfl⟩ := List.mem_map.mp hn
      rw [h]
      rfl
    next h =>
      rw [List.filter_eq_nil_iff]
      intro n hn hname
      obtain ⟨s, -, rfl⟩ := List.mem_map.mp hn
      exact h (Option.some.inj (eq_of_beq hname)).symm
  rw [← hitems, ← List.filter_append]
  rfl

/-- The texts of the part that is written: those that it had, and the new ones as they are read. -/
theorem stringsOf_inNode {t : StringTable} {part : Node} (hwhole : part = .document part.children) (h : IsRooted part) :
    stringsOf (t.inNode part) = stringsOf part ++ t.added.map decodeEscapes := by
  obtain ⟨tag, cs, hroot, hname⟩ := isRooted_iff.mp h
  have hroot' : (t.inNode part).root? = some (t.extend tag cs) := by
    rw [root?_inNode t part hwhole, hroot, Option.map_some, inNode, if_pos hname]
  have hread : itemText ∘ stringItem = decodeEscapes := funext itemText_stringItem
  rw [stringsOf, stringsOf, hroot', hroot]
  simp only [Option.map_some, Option.getD_some]
  rw [childrenNamed_extend, if_pos rfl, List.map_append, List.map_map, hread]
  rfl

theorem stringsOf_merged (part : Node) : stringsOf part.merged = stringsOf part := by
  rw [stringsOf, stringsOf, Node.root?_merged]
  cases part.root? with
  | none => rfl
  | some root =>
    simp only [Option.map_some, Option.getD_some]
    rw [Node.childrenNamed_merged, List.map_map]
    exact List.map_congr_left fun n _ => itemText_merged n

theorem read_updated {t : StringTable} {part new : Node} (hpart : t.part = some part) (h : IsTablePart part)
    (hnew : t.updated? = some new) :
    ∃ t', StringTable.read new.bytes = .ok t' ∧ t'.strings = stringsOf part ++ t.added.map decodeEscapes := by
  obtain ⟨-, part', hpart', rfl⟩ := updated?_eq_some.mp hnew
  rw [hpart] at hpart'
  obtain rfl := Option.some.inj hpart'
  refine ⟨ofTree (t.inNode part).merged, ?_, (stringsOf_merged _).trans (stringsOf_inNode h.writable.whole h.isRooted)⟩
  rw [StringTable.read, parse_bytes (isWritablePart_inNode h.writable)]
  rfl

/-! ### How many texts a part has -/

theorem length_le_encodeChars (s : List Char) : s.length ≤ (Text.Utf8.encodeChars s).length := by
  induction s with
  | nil => exact Nat.zero_le _
  | cons c s ih =>
    obtain ⟨lead, others, hencode, -⟩ := Text.Utf8.first_encodeChar c []
    rw [Text.Utf8.encodeChars, List.flatMap_cons, hencode, List.length_append, List.length_cons, List.length_cons]
    rw [Text.Utf8.encodeChars] at ih
    omega

theorem length_filter_le_charsOfAll (name : String) (ns : List Node) :
    (ns.filter fun n => n.isElement name).length ≤ (Node.charsOfAll ns).length := by
  induction ns with
  | nil => exact Nat.zero_le _
  | cons n ns ih =>
    rw [List.filter_cons, Node.charsOfAll, List.length_append]
    split
    next hname =>
      have hpos : 0 < n.chars.length := by
        cases n with
        | element tag cs => cases cs <;> simp [Node.chars]
        | _ => cases hname
      rw [List.length_cons]
      omega
    next => omega

theorem length_charsOfAll_le {n : Node} {ns : List Node} (h : n ∈ ns) :
    n.chars.length ≤ (Node.charsOfAll ns).length := by
  induction ns with
  | nil => cases h
  | cons m ns ih =>
    rw [Node.charsOfAll, List.length_append]
    obtain rfl | h := List.mem_cons.mp h
    · omega
    · have hle := ih h
      omega

theorem length_stringsOf_le {part : Node} (hwhole : part = .document part.children) :
    (stringsOf part).length ≤ part.bytes.length := by
  have hbytes : (Node.charsOfAll part.children).length ≤ part.bytes.length := by
    rw [Node.bytes_eq, hwhole, Node.chars]
    exact length_le_encodeChars _
  rw [stringsOf, List.length_map]
  cases hroot : part.root? with
  | none => exact Nat.zero_le _
  | some root =>
    refine Nat.le_trans ?_ hbytes
    have hmem : root ∈ part.children := List.mem_of_find?_eq_some hroot
    have hchildren : (Node.charsOfAll root.children).length ≤ root.chars.length := by
      cases root with
      | document cs => exact Nat.le_refl _
      | element tag cs =>
        cases cs with
        | nil => exact Nat.zero_le _
        | cons c cs =>
          simp only [Node.children, Node.charsOfAll, Node.chars, List.length_append, List.length_cons]
          omega
      | _ => exact Nat.zero_le _
    exact Nat.le_trans (length_filter_le_charsOfAll "si" root.children)
      (Nat.le_trans hchildren (length_charsOfAll_le hmem))

end StringTable

/-! ## Texts in cells -/

/-- What is read of a text that has been stored: the text, or the text without its escapes. -/
def IsReadAs (s x : String) : Prop := x = s ∨ x = decodeEscapes s

namespace Cell

theorem sharedText?_text {t : StringTable} {i : Nat} (hi : i < Nat.pow 2 64) {s : String} (h : t.get? i = some s) :
    sharedText? t (Text.Numeral.text i) = some (.text s) := by
  rw [sharedText?, Text.Numeral.text, String.toList_ofList, Text.Numeral.trimmed_ofNat, Text.Numeral.readWord?_ofNat hi,
    Option.bind_some, h]
  rfl

theorem literal_afterStoring_formulaText (c : Cell) (s : String) (t : StringTable) :
    (c.afterStoring (.formulaText s)).literal t = some (.text (decodeEscapes s)) := by
  have hraw : (c.afterStoring (.formulaText s)).raw? = some s := raw?_afterStoring c (.formulaText s) rfl
  have htype : (c.afterStoring (.formulaText s)).type? = some "str" := type?_afterStoring c (.formulaText s)
  rw [literal, htype, hraw]
  rfl

theorem literal_afterStoring_inlineText (c : Cell) (s : String) (t : StringTable) :
    (c.afterStoring (.inlineText s)).literal t = some (.text (decodeEscapes s)) := by
  have hchild : (c.afterStoring (.inlineText s)).node.child? "is" = some (.element (.named "is") [textElement s]) :=
    child?_afterStoring c (.inlineText s) (.inr rfl)
  have htype : (c.afterStoring (.inlineText s)).type? = some "inlineStr" := type?_afterStoring c (.inlineText s)
  rw [literal, htype]
  show (c.afterStoring (.inlineText s)).inlineText? = _
  rw [inlineText?, hchild]
  exact congrArg (fun x => some (Value.text x)) (itemText_textElement _ s)

theorem literal_afterStoring_sharedText (c : Cell) {i : Nat} (hi : i < Nat.pow 2 64) {t : StringTable} {s : String}
    (h : t.get? i = some s) : (c.afterStoring (.sharedText i)).literal t = some (.text s) := by
  have hraw : (c.afterStoring (.sharedText i)).raw? = some (Text.Numeral.text i) :=
    raw?_afterStoring c (.sharedText i) rfl
  have htype : (c.afterStoring (.sharedText i)).type? = some "s" := type?_afterStoring c (.sharedText i)
  rw [literal, htype, hraw]
  exact sharedText?_text hi h

/-- A text that has been stored is the literal of the cell, as far as escapes do not count: it stands in the cell itself, or
under its number in the table. -/
theorem literal_afterStoring_text {s : String} (hs : s.isEmpty = false) (c : Cell) {t t' : StringTable} {shares : Bool}
    (hread : ∀ i, c.hasFormula = false → (Sheet.storedText s t shares).1 = .sharedText i →
      i < Nat.pow 2 64 ∧ ∃ x, t'.get? i = some x ∧ IsReadAs s x) :
    ∃ x, IsReadAs s x ∧
      (c.afterStoring (Sheet.storedValue (.text s) c.hasFormula t shares).1).literal t' = some (.text x) := by
  rw [Sheet.storedValue_text hs]
  cases hformula : c.hasFormula with
  | true =>
    rw [if_pos rfl]
    exact ⟨decodeEscapes s, .inr rfl, literal_afterStoring_formulaText c s t'⟩
  | false =>
    rw [if_neg Bool.false_ne_true]
    obtain ⟨i, hshared, -⟩ | hinline := Sheet.storedText_cases s t shares
    · obtain ⟨hi, x, hx, hreads⟩ := hread i hformula hshared
      rw [hshared]
      exact ⟨x, hreads, literal_afterStoring_sharedText c hi hx⟩
    · rw [hinline]
      exact ⟨decodeEscapes s, .inr rfl, literal_afterStoring_inlineText c s t'⟩

end Cell

end Spreadsheet.Book
