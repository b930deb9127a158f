import Spreadsheet.Book.Sheet
import Spreadsheet.Proofs.Markup.RoundTrip
import Spreadsheet.Proofs.Number.Written

/-! # Values that are stored in a cell

* `Cell.afterStoring`: a cell after a value has been stored in its element.
* `Value.IsStorable`: the values that a cell gives back as they are: blanks, truth values and finite numbers.
* `literal_afterStoring`: such a value is the literal of the cell afterwards.
* `formulaSource?_afterStoring`, `style?_afterStoring`: the formula and the style stay as they are. -/

set_option autoImplicit false

namespace Spreadsheet

/-! ## Values -/

theorem Text.isBlank_of_isDigit {c : Char} (h : Numeral.isDigit c = true) : isBlank c = false := by
  rw [Numeral.isDigit] at h
  simp only [Bool.and_eq_true, decide_eq_true_eq, Char.le_def, UInt32.le_iff_toNat_le] at h
  have hlow : 48 ≤ c.toNat := h.1
  have hhigh : c.toNat ≤ 57 := h.2
  simp [isBlank]
  omega

theorem Text.trimmed_of_isBlank {s : List Char} (h : ∀ c ∈ s, isBlank c = false) : trimmed s = s :=
  trimmed_eq_self (fun c hc => h c (List.mem_of_head? hc))
    (fun c hc => h c (List.mem_reverse.mp (List.mem_of_head? hc)))

theorem Text.Numeral.trimmed_ofNat (n : Nat) : trimmed (ofNat n) = ofNat n :=
  trimmed_of_isBlank fun _ hc => isBlank_of_isDigit (isDigit_of_mem_ofNat hc)

namespace Number

theorem isBlank_write {x : Float} (h : isFinite x = true) : ∀ c ∈ write x, Text.isBlank c = false := by
  have hplain : ∀ c ∈ (magnitude x).write, Text.isBlank c = false := by
    intro c hc
    have hchar := isPlainChar_magnitude (magnitude x) c hc
    rw [isPlainChar, Bool.or_eq_true, beq_iff_eq] at hchar
    obtain hdigit | rfl := hchar
    · exact Text.isBlank_of_isDigit hdigit
    · decide
  rw [write_eq_of_isFinite h]
  split
  · intro c hc
    obtain rfl | hc := List.mem_cons.mp hc
    · decide
    · exact hplain c hc
  · exact hplain

theorem trimmed_write {x : Float} (h : isFinite x = true) : Text.trimmed (write x) = write x :=
  Text.trimmed_of_isBlank (isBlank_write h)

end Number

namespace Value

/-- A value that a cell gives back as it is. The text of a number has to say which number it is. -/
def IsStorable : Value → Prop
  | blank => True
  | truth _ => True
  | number x => Number.isFinite x = true ∧ Number.ReadsBack x
  | text _ => False

theorem IsStorable.same_self {v : Value} (h : v.IsStorable) : v.same v = true := by
  cases v with
  | blank => rfl
  | truth b => cases b <;> rfl
  | number x =>
    have horder : Number.order? x x = some .eq := by
      rw [Number.order?, Number.isNaN_eq_false h.1, Bool.or_self, if_neg Bool.false_ne_true, Number.orderInt,
        if_neg (Int.lt_irrefl _), if_pos rfl]
    rw [same, compare, horder]
    rfl
  | text s => exact h.elim

end Value

/-! ## Attributes -/

namespace Markup.Tag

theorem get?_set_self (t : Tag) (key value : String) : (t.set key value).get? key = some value := by
  have hin : ∀ l : List (String × String), ((setIn key value l).find? fun a => a.1 == key).map (·.2) = some value := by
    intro l
    induction l with
    | nil => simp [setIn]
    | cons a l ih =>
      rw [setIn]
      split
      next => simp
      next h => rw [List.find?_cons_of_neg (by simpa using h), ih]
  exact hin t.attributes

theorem get?_set_of_ne {key other : String} (h : other ≠ key) (t : Tag) (value : String) :
    (t.set key value).get? other = t.get? other := by
  have hin : ∀ l : List (String × String), ((setIn key value l).find? fun a => a.1 == other) =
      l.find? fun a => a.1 == other := by
    intro l
    induction l with
    | nil => simp [setIn, Ne.symm h]
    | cons a l ih =>
      rw [setIn]
      split
      next hkey =>
        rw [List.find?_cons_of_neg (by simpa using Ne.symm h),
          List.find?_cons_of_neg (by rw [hkey]; simpa using Ne.symm h)]
      next => rw [List.find?_cons, List.find?_cons, ih]
  exact congrArg (Option.map _) (hin t.attributes)

theorem get?_erase_self (t : Tag) (key : String) : (t.erase key).get? key = none := by
  have hnone : ((t.attributes.filter fun a => a.1 ≠ key).find? fun a => a.1 == key) = none := by
    rw [List.find?_eq_none]
    intro a ha
    simpa using (List.mem_filter.mp ha).2
  rw [get?, erase, hnone]
  rfl

theorem get?_erase_of_ne {key other : String} (h : other ≠ key) (t : Tag) : (t.erase key).get? other = t.get? other := by
  have hfind : ((t.attributes.filter fun a => a.1 ≠ key).find? fun a => a.1 == other) =
      t.attributes.find? fun a => a.1 == other := by
    rw [List.find?_filter]
    congr 1
    funext a
    by_cases ha : a.1 = other
    · simp [ha, h]
    · simp [ha]
  exact congrArg (Option.map _) hfind

theorem keys_setIn (key value : String) (l : List (String × String)) :
    (setIn key value l).map (·.1) = if key ∈ l.map (·.1) then l.map (·.1) else l.map (·.1) ++ [key] := by
  induction l with
  | nil => rfl
  | cons a l ih =>
    rw [setIn]
    by_cases ha : a.1 = key
    · rw [if_pos ha, List.map_cons, List.map_cons, ha, if_pos (List.mem_cons_self ..)]
    · rw [if_neg ha, List.map_cons, List.map_cons, ih]
      by_cases hmem : key ∈ l.map (·.1)
      · rw [if_pos hmem, if_pos (List.mem_cons_of_mem _ hmem)]
      · rw [if_neg hmem, if_neg (by simpa [Ne.symm ha] using hmem), List.cons_append]

theorem IsWritable.set {t : Tag} (h : t.IsWritable) {key : String} (hkey : isName key = true) (value : String) :
    (t.set key value).IsWritable := by
  have hkeys : (t.set key value).attributes.map (·.1) =
      if key ∈ t.attributes.map (·.1) then t.attributes.map (·.1) else t.attributes.map (·.1) ++ [key] :=
    keys_setIn key value t.attributes
  have hnamed := h.named
  rw [isNamed, Bool.and_eq_true, List.all_eq_true] at hnamed
  refine ⟨?_, ?_⟩
  · rw [isNamed, Bool.and_eq_true, List.all_eq_true]
    refine ⟨hnamed.1, fun a ha => ?_⟩
    have hmem : a.1 ∈ (t.set key value).attributes.map (·.1) := List.mem_map.mpr ⟨a, ha, rfl⟩
    have hcases : a.1 ∈ t.attributes.map (·.1) ∨ a.1 = key := by
      rw [hkeys] at hmem
      split at hmem
      · exact .inl hmem
      · simpa using hmem
    obtain hold | hnew := hcases
    · obtain ⟨b, hb, heq⟩ := List.mem_map.mp hold
      rw [← heq]
      exact hnamed.2 b hb
    · rw [hnew]
      exact hkey
  · rw [hkeys]
    split
    next => exact h.nodup
    next hnew =>
      refine List.nodup_append.mpr ⟨h.nodup, by simp, fun a ha b hb => ?_⟩
      rw [List.mem_singleton.mp hb]
      rintro rfl
      exact hnew ha

theorem IsWritable.erase {t : Tag} (h : t.IsWritable) (key : String) : (t.erase key).IsWritable := by
  have hnamed := h.named
  rw [isNamed, Bool.and_eq_true, List.all_eq_true] at hnamed
  refine ⟨?_, ?_⟩
  · rw [isNamed, Bool.and_eq_true, List.all_eq_true]
    exact ⟨hnamed.1, fun a ha => hnamed.2 a (List.mem_filter.mp ha).1⟩
  · exact h.nodup.sublist (List.Sublist.map _ List.filter_sublist)

end Markup.Tag

/-! ## Cells -/

namespace Book

open Markup

namespace Cell

def afterStoring (c : Cell) (value : Stored) : Cell :=
  { c with
    tag := c.tagWith (value.type? c.hasFormula)
    children := match value.element? with
      | some new => insertAfterFormula new c.keptChildren
      | none => c.keptChildren }

theorem filter_insertAfterFormula (p : Node → Bool) (new : Node) (children : List Node) :
    ∃ before after, children = before ++ after ∧
      (insertAfterFormula new children).filter p = before.filter p ++ [new].filter p ++ after.filter p := by
  unfold insertAfterFormula
  split
  next i _ =>
    refine ⟨children.take (i + 1), children.drop (i + 1), (List.take_append_drop ..).symm, ?_⟩
    rw [← List.singleton_append (x := new), List.filter_append, List.filter_append, List.append_assoc]
  next =>
    refine ⟨[], children, rfl, ?_⟩
    rw [← List.singleton_append (x := new), List.filter_append, List.filter_nil, List.nil_append]

theorem eq_of_isElement {n : Node} {name other : String} (h : n.isElement name = true) :
    n.isElement other = decide (name = other) := by
  have hname : n.name? = some name := eq_of_beq h
  rw [Node.isElement, hname]
  by_cases heq : name = other
  · simp [heq]
  · simp [heq]

theorem isElement_element? {value : Stored} {new : Node} (h : value.element? = some new) :
    new.isElement "v" = true ∨ new.isElement "is" = true := by
  cases value with
  | nothing => cases h
  | inlineText s =>
    cases h
    exact .inr rfl
  | _ =>
    cases h
    exact .inl rfl

theorem filter_afterStoring {p : Node → Bool} (hvalue : ∀ n, p n = true → n.isElement "v" = false)
    (hinline : ∀ n, p n = true → n.isElement "is" = false) (c : Cell) (value : Stored) :
    (c.afterStoring value).children.filter p = c.children.filter p := by
  have hkept : c.keptChildren.filter p = c.children.filter p := by
    rw [keptChildren, List.filter_filter]
    refine List.filter_congr fun n _ => ?_
    cases hp : p n with
    | false => rfl
    | true => rw [hvalue n hp, hinline n hp]; rfl
  unfold afterStoring
  dsimp only
  split
  next new hnew =>
    obtain ⟨before, after, hsplit, hfilter⟩ := filter_insertAfterFormula p new c.keptChildren
    have hnone : [new].filter p = [] := by
      rw [List.filter_cons_of_neg, List.filter_nil]
      intro hp
      obtain h | h := isElement_element? hnew
      · rw [hvalue new hp] at h
        cases h
      · rw [hinline new hp] at h
        cases h
    rw [hfilter, hnone, List.append_nil, ← List.filter_append, ← hsplit, hkept]
  next => exact hkept

theorem child?_node (c : Cell) (name : String) : c.node.child? name = (c.children.filter fun n => n.isElement name).head? :=
  List.head?_filter.symm

theorem formulaSource?_afterStoring (c : Cell) (value : Stored) :
    (c.afterStoring value).formulaSource? = c.formulaSource? := by
  have hchild : (c.afterStoring value).node.child? "f" = c.node.child? "f" := by
    rw [child?_node, child?_node, filter_afterStoring]
    · exact fun n hn => eq_of_isElement hn
    · exact fun n hn => eq_of_isElement hn
  rw [formulaSource?, formulaSource?, hchild]

theorem get?_tagWith_of_ne {key : String} (h : key ≠ "t") (c : Cell) (type : Option String) :
    (c.tagWith type).get? key = c.tag.get? key := by
  cases type with
  | none => exact Tag.get?_erase_of_ne h c.tag
  | some t => exact Tag.get?_set_of_ne h c.tag t

theorem get?_tagWith_type (c : Cell) (type : Option String) : (c.tagWith type).get? "t" = type := by
  cases type with
  | none => exact Tag.get?_erase_self c.tag "t"
  | some t => exact Tag.get?_set_self c.tag "t" t

theorem name_tagWith (c : Cell) (type : Option String) : (c.tagWith type).name = c.tag.name := by
  cases type <;> rfl

theorem style?_afterStoring (c : Cell) (value : Stored) : (c.afterStoring value).style? = c.style? := by
  have hget : (c.afterStoring value).tag.get? "s" = c.tag.get? "s" := get?_tagWith_of_ne (by decide) c _
  rw [style?, style?, hget]

theorem type?_afterStoring (c : Cell) (value : Stored) : (c.afterStoring value).type? = value.type? c.hasFormula :=
  get?_tagWith_type c _

theorem eq_sharedText_of_type? {value : Stored} {hasFormula : Bool} (h : value.type? hasFormula = some "s") :
    ∃ i, value = .sharedText i := by
  cases value with
  | sharedText i => exact ⟨i, rfl⟩
  | _ => simp [Stored.type?] at h

/-- The only element with a value in a cell is the one that has been stored. -/
theorem childrenNamed_afterStoring (c : Cell) (value : Stored) {name : String} (hname : name = "v" ∨ name = "is") :
    (c.afterStoring value).node.childrenNamed name = (value.element?.filter fun n => n.isElement name).toList := by
  have hkept : c.keptChildren.filter (fun n => n.isElement name) = [] := by
    rw [keptChildren, List.filter_filter, List.filter_eq_nil_iff]
    intro n _ hn
    simp only [Bool.and_eq_true, Bool.not_eq_true'] at hn
    obtain ⟨hn, hv, his⟩ := hn
    obtain rfl | rfl := hname
    · rw [hn] at hv
      cases hv
    · rw [hn] at his
      cases his
  unfold afterStoring
  cases hvalue : value.element? with
  | none => exact hkept
  | some new =>
    obtain ⟨before, after, hsplit, hfilter⟩ := filter_insertAfterFormula (fun n => n.isElement name) new c.keptChildren
    rw [hsplit, List.filter_append, List.append_eq_nil_iff] at hkept
    show (insertAfterFormula new c.keptChildren).filter _ = _
    rw [hfilter, hkept.1, hkept.2, List.nil_append, List.append_nil, Option.filter_some, List.filter_cons,
      List.filter_nil]
    cases new.isElement name <;> rfl

theorem child?_afterStoring (c : Cell) (value : Stored) {name : String} (hname : name = "v" ∨ name = "is") :
    (c.afterStoring value).node.child? name = value.element?.filter fun n => n.isElement name := by
  have hnamed : (c.afterStoring value).children.filter (fun n => n.isElement name) = _ :=
    childrenNamed_afterStoring c value hname
  rw [child?_node, hnamed, Option.head?_toList]

theorem content_valueElement (s : String) : (valueElement s).content = s := by
  rw [valueElement, Node.content, Node.contentOfAll, Node.contentOfAll, Node.content, String.append_empty]

theorem raw?_afterStoring (c : Cell) (value : Stored) {text : Option String}
    (h : value.element? = text.map valueElement) : (c.afterStoring value).raw? = text := by
  rw [raw?, child?_afterStoring c value (.inl rfl), h]
  cases text with
  | none => rfl
  | some s => exact congrArg some (content_valueElement s)

theorem numberIn?_write {x : Float} (hfinite : Number.isFinite x = true) (hreads : Number.ReadsBack x) :
    numberIn? (String.ofList (Number.write x)) = some x := by
  rw [numberIn?, String.toList_ofList, Number.trimmed_write hfinite]
  exact hreads

theorem literal_afterStoring {v : Value} (hv : v.IsStorable) (c : Cell) (strings strings' : StringTable)
    (shares : Bool) :
    ((c.afterStoring (Sheet.storedValue v c.hasFormula strings shares).1).literal strings').getD .blank = v := by
  cases v with
  | text s => exact hv.elim
  | blank =>
    have hraw : (c.afterStoring .nothing).raw? = none := raw?_afterStoring c .nothing rfl
    have htype : (c.afterStoring .nothing).type? = none := type?_afterStoring c .nothing
    change ((c.afterStoring .nothing).literal strings').getD .blank = .blank
    rw [literal, htype, hraw]
    rfl
  | truth b =>
    have hraw : (c.afterStoring (.truth b)).raw? = some (if b then "1" else "0") :=
      raw?_afterStoring c (.truth b) rfl
    have htype : (c.afterStoring (.truth b)).type? = some "b" := type?_afterStoring c (.truth b)
    change ((c.afterStoring (.truth b)).literal strings').getD .blank = .truth b
    rw [literal, htype, hraw]
    cases b <;> rfl
  | number x =>
    have hstored : (Sheet.storedValue (.number x) c.hasFormula strings shares).1 = .number x := by
      rw [Sheet.storedValue]
      dsimp only
      rw [if_pos hv.1]
    have hraw : (c.afterStoring (.number x)).raw? = some (String.ofList (Number.write x)) :=
      raw?_afterStoring c (.number x) rfl
    have htype : (c.afterStoring (.number x)).type? = if c.hasFormula then none else some "n" :=
      type?_afterStoring c (.number x)
    have hnumber := numberIn?_write hv.1 hv.2
    rw [hstored, literal, htype, hraw]
    cases c.hasFormula with
    | true =>
      change (plainValue (String.ofList (Number.write x))) = _
      rw [plainValue, hnumber]
    | false =>
      change ((numberIn? (String.ofList (Number.write x))).map Value.number).getD .blank = _
      rw [hnumber]
      rfl

/-! ## Written cells -/

theorem isWritable_tagWith {c : Cell} (h : c.tag.IsWritable) (type : Option String) : (c.tagWith type).IsWritable := by
  cases type with
  | none => exact h.erase "t"
  | some t => exact h.set (by decide +kernel) t

theorem isWritable_valueElement (s : String) : (valueElement s).IsWritable := by
  refine ⟨⟨by decide +kernel, List.nodup_nil⟩, ?_⟩
  exact ⟨trivial, trivial⟩

theorem mem_insertAfterFormula {new n : Node} {children : List Node} (h : n ∈ insertAfterFormula new children) :
    n = new ∨ n ∈ children := by
  unfold insertAfterFormula at h
  split at h
  · obtain h | h := List.mem_append.mp h
    · exact .inr (List.mem_of_mem_take h)
    · obtain rfl | h := List.mem_cons.mp h
      · exact .inl rfl
      · exact .inr (List.mem_of_mem_drop h)
  · exact List.mem_cons.mp h

theorem isWritable_textElement (s : String) : (textElement s).IsWritable := by
  refine ⟨?_, trivial, trivial⟩
  split
  · exact ⟨by decide +kernel, by decide⟩
  · exact ⟨by decide +kernel, by decide⟩

theorem isWritable_element? {value : Stored} {new : Node} (h : value.element? = some new) : new.IsWritable := by
  cases value with
  | nothing => cases h
  | inlineText s =>
    cases h
    exact ⟨⟨by decide +kernel, List.nodup_nil⟩, isWritable_textElement s, trivial⟩
  | _ =>
    cases h
    exact isWritable_valueElement _

theorem isWritable_storing {c : Cell} (h : c.node.IsWritable) (value : Stored) : (c.storing value).IsWritable := by
  have hchildren := Node.allWritable_iff.mp h.2
  have hkept : ∀ n ∈ c.keptChildren, n.IsWritable := fun n hn => hchildren n (List.mem_filter.mp hn).1
  rw [storing]
  refine ⟨isWritable_tagWith h.1 _, Node.allWritable_iff.mpr fun n hn => ?_⟩
  split at hn
  next new heq =>
    obtain rfl | hn := mem_insertAfterFormula hn
    · exact isWritable_element? heq
    · exact hkept n hn
  next => exact hkept n hn

end Cell

end Book

end Spreadsheet
