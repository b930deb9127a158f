import Spreadsheet.Proofs.Book.Numbering
import Spreadsheet.Proofs.Markup.Parsed

/-! # Texts that are added and items that are written

Cells ask the table for numbers one after the other; the part gets its items afterwards, all at once. So the items have
to be those of the texts that were added in the meantime.

* `Use`, `after`: a request for the number of a text, and the table after several of them.
* `newTexts`, `taken`: the texts and the references that the requests add.
* `after_eq`: the table after requests, by induction on the requests.
* `IsExtended`: a part whose root has got items for texts, with the numbers that belong to them.
* `items_updated`: the part that is written has an item for each new text if its root is a list of texts, and only then.
* `items_updated_otherRoot`: a part with another root gets none. -/

set_option autoImplicit false

namespace Spreadsheet.Book.StringTable

open Markup Text

/-! ## Requests -/

/-- A request for the number of a text. -/
inductive Use where
  | intern (s : String)
  | reference (s : String)
  | referenceExisting (s : String)

namespace Use

def apply (t : StringTable) : Use → StringTable
  | intern s => (t.intern s).2
  | reference s => (t.reference s).2
  | referenceExisting s => (t.referenceExisting s).2

def text? : Use → Option String
  | intern s => some s
  | reference s => some s
  | referenceExisting _ => none

/-- Whether a request is counted as a reference: a cell is to hold the number that it gives. -/
def isCounted (t : StringTable) : Use → Bool
  | intern _ => false
  | reference _ => true
  | referenceExisting s => s ∈ t.strings

end Use

def after (t : StringTable) (uses : List Use) : StringTable := uses.foldl Use.apply t

/-- The texts that requests add to a table: each one once, in the order of the first request for it. -/
def newTexts (t : StringTable) (uses : List Use) : List String :=
  ((uses.filterMap Use.text?).filter fun s => s ∉ t.strings).eraseDups

def taken (t : StringTable) : List Use → Nat
  | [] => 0
  | u :: rest => (if u.isCounted t then 1 else 0) + (u.apply t).taken rest

theorem intern_eq (t : StringTable) (s : String) :
    (t.intern s).2 = { t with strings := if s ∈ t.strings then t.strings else t.strings ++ [s] } := by
  rw [intern]
  cases hposition : t.position? s with
  | some i => rw [if_pos (mem_of_position? hposition)]
  | none => rw [if_neg (not_mem_of_position? hposition)]

theorem referenceExisting_eq (t : StringTable) (s : String) :
    (t.referenceExisting s).2 = { t with references := t.references + if s ∈ t.strings then 1 else 0 } := by
  unfold referenceExisting
  split
  next i hposition => rw [if_pos (mem_of_position? hposition)]
  next hposition => rw [if_neg (not_mem_of_position? hposition), Nat.add_zero]

theorem Use.apply_eq (t : StringTable) (u : Use) : u.apply t = { t with
    strings := match u.text? with
      | some s => if s ∈ t.strings then t.strings else t.strings ++ [s]
      | none => t.strings
    references := t.references + if u.isCounted t then 1 else 0 } := by
  cases u with
  | intern s => exact intern_eq t s
  | reference s => exact intern_eq { t with references := t.references + 1 } s
  | referenceExisting s => simp only [apply, referenceExisting_eq, text?, isCounted, decide_eq_true_eq]

theorem newTexts_cons (t : StringTable) (u : Use) (rest : List Use) :
    t.strings ++ t.newTexts (u :: rest) = (u.apply t).strings ++ (u.apply t).newTexts rest := by
  rw [newTexts, newTexts, u.apply_eq]
  cases htext : u.text? with
  | none => rw [List.filterMap_cons_none htext]
  | some s =>
    rw [List.filterMap_cons_some htext]
    exact Sheet.eraseDups_filter_cons

theorem after_eq (t : StringTable) (uses : List Use) : t.after uses = { t with
    strings := t.strings ++ t.newTexts uses
    references := t.references + t.taken uses } := by
  induction uses generalizing t with
  | nil => exact congrArg (fun l => { t with strings := l }) (List.append_nil t.strings).symm
  | cons u rest ih =>
    have hafter : t.after (u :: rest) = (u.apply t).after rest := rfl
    rw [hafter, ih, newTexts_cons, taken, ← Nat.add_assoc]
    rw [u.apply_eq]

/-! ## The part that is written -/

/-- The number of references that the root of a part says, if it says one; otherwise each text of the part counts once. -/
def statedCount (t : StringTable) (tag : Tag) : Nat :=
  ((tag.get? "count").bind fun s => Numeral.readWord? 64 s.toList).getD t.loaded

/-- A part with items for texts behind everything that its root had, and with the numbers of texts and references in the
root's tag. The number of references is stated as far as it is a word of 64 bits. -/
structure IsExtended (t : StringTable) (texts : List String) (references : Nat) (part new : Node) : Prop where
  root : ∃ tag tag' children, part.root? = some (.element tag children) ∧
    new.root? = some (.element tag' (children ++ texts.map stringItem)) ∧
    tag'.get? "uniqueCount" = some (Numeral.text (t.strings.length + texts.length)) ∧
    (t.statedCount tag + references < Nat.pow 2 64 →
      tag'.get? "count" = some (Numeral.text (t.statedCount tag + references)))
  strings : stringsOf new = t.strings ++ texts.map decodeEscapes

theorem root?_inNode_of_name {t : StringTable} {part : Node} (hwhole : part = .document part.children) {tag : Tag}
    {cs : List Node} (hroot : part.root? = some (.element tag cs)) (hname : tag.name = "sst") :
    (t.inNode part).root? = some (t.extend tag cs) := by
  rw [root?_inNode t part hwhole, hroot, Option.map_some, inNode, if_pos hname]

/-- The texts of a part whose root is no list of texts are as many as before: its root gets no items. -/
theorem length_stringsOf_inNode {t : StringTable} {part : Node} (hwhole : part = .document part.children)
    (h : ¬IsRooted part) : (stringsOf (t.inNode part)).length = (stringsOf part).length := by
  rw [stringsOf, stringsOf, root?_inNode t part hwhole]
  cases hroot : part.root? with
  | none => rfl
  | some root =>
    have hitems : (t.inNode root).childrenNamed "si" = (root.childrenNamed "si").map t.inNode := by
      cases root with
      | element tag cs =>
        have hname : tag.name ≠ "sst" := fun hname => h (isRooted_iff.mpr ⟨tag, cs, hroot, hname⟩)
        have hsame : (fun n : Node => n.isElement "si") ∘ t.inNode = fun n => n.isElement "si" :=
          funext fun n => isElement_inNode t n "si"
        rw [inNode, if_neg hname, Node.childrenNamed, Node.childrenNamed, Node.children, Node.children,
          inNodes_eq_map, List.filter_map, hsame]
      | document cs => cases List.find?_some hroot
      | _ => rfl
    simp only [Option.map_some, Option.getD_some, List.length_map, hitems]

section

variable {bytes : Bytes} {t : StringTable} (hread : StringTable.read bytes = .ok t)

include hread

theorem spec_of_read : ∃ part, t.part = some part ∧ part = .document part.children ∧ t.strings = stringsOf part ∧
    t.loaded = t.strings.length ∧ t.references = 0 := by
  obtain ⟨part, hpart, rfl⟩ := map_eq_ok.mp hread
  exact ⟨part, rfl, whole_of_parse hpart, rfl, rfl, rfl⟩

theorem added_after (uses : List Use) : (t.after uses).added = t.newTexts uses := by
  obtain ⟨part, -, -, -, hloaded, -⟩ := spec_of_read hread
  rw [after_eq, added]
  dsimp only
  rw [hloaded, List.drop_left]

theorem isModified_after (uses : List Use) :
    (t.after uses).isModified = true ↔ t.newTexts uses ≠ [] ∨ 0 < t.taken uses := by
  obtain ⟨part, -, -, -, hloaded, hreferences⟩ := spec_of_read hread
  rw [after_eq, isModified, Bool.or_eq_true, decide_eq_true_eq, decide_eq_true_eq]
  dsimp only
  rw [hloaded, hreferences, Nat.zero_add, List.length_append, Nat.lt_add_right_iff_pos, List.length_pos_iff]

theorem isExtended_updated (uses : List Use) {part : Node} (hpart : t.part = some part) (h : IsRooted part) :
    t.IsExtended (t.newTexts uses) (t.taken uses) part ((t.after uses).inNode part) := by
  obtain ⟨part', hpart', hwhole, hstrings, hloaded, hreferences⟩ := spec_of_read hread
  rw [hpart] at hpart'
  obtain rfl := Option.some.inj hpart'
  obtain ⟨tag, cs, hroot, hname⟩ := isRooted_iff.mp h
  have hadded := added_after hread uses
  refine ⟨⟨tag, (tag.set "count" ((t.after uses).countText tag)).set "uniqueCount"
    (Numeral.text (t.after uses).strings.length), cs, hroot, ?_, ?_, fun hfits => ?_⟩, ?_⟩
  · rw [root?_inNode_of_name hwhole hroot hname, extend, hadded]
  · rw [Tag.get?_set_self, after_eq, List.length_append]
  · have hcount : (t.after uses).countText tag = Numeral.text ((t.statedCount tag + t.taken uses) % Nat.pow 2 64) := by
      rw [after_eq, countText, statedCount]
      dsimp only
      rw [hreferences, Nat.zero_add]
    rw [Tag.get?_set_of_ne (by decide), Tag.get?_set_self, hcount, Nat.mod_eq_of_lt hfits]
  · rw [stringsOf_inNode hwhole h, hadded, hstrings]

/-- The part that is written after requests has an item for each text that they added, in the order in which they were added,
and states their numbers, if its root is a list of texts. It has as many texts as the table in no other case, unless no text
was added. -/
theorem items_updated {uses : List Use} (hadds : t.newTexts uses ≠ [] ∨ 0 < t.taken uses) :
    ∃ part new, t.part = some part ∧ (t.after uses).updated? = some new ∧
      (t.after uses).strings = t.strings ++ t.newTexts uses ∧
      (IsRooted part → t.IsExtended (t.newTexts uses) (t.taken uses) part new) ∧
      ((stringsOf new).length = (t.after uses).strings.length ↔ IsRooted part ∨ t.newTexts uses = []) := by
  obtain ⟨part, hpart, hwhole, hstrings, -, -⟩ := spec_of_read hread
  have hafter : (t.after uses).strings = t.strings ++ t.newTexts uses := by rw [after_eq]
  have hupdated : (t.after uses).updated? = some ((t.after uses).inNode part) := by
    refine updated?_eq_some.mpr ⟨(isModified_after hread uses).mpr hadds, part, ?_, rfl⟩
    rw [after_eq]
    exact hpart
  have hextended := isExtended_updated hread uses hpart
  refine ⟨part, _, hpart, hupdated, hafter, hextended, ?_⟩
  rw [hafter, List.length_append]
  by_cases hrooted : IsRooted part
  · have hlength : (stringsOf ((t.after uses).inNode part)).length = t.strings.length + (t.newTexts uses).length := by
      rw [(hextended hrooted).strings, List.length_append, List.length_map]
    exact iff_of_true hlength (.inl hrooted)
  · rw [length_stringsOf_inNode hwhole hrooted, ← hstrings, Nat.left_eq_add, List.length_eq_zero_iff]
    exact ⟨.inr, fun h => h.resolve_left hrooted⟩

end

def listedPart : Bytes := Utf8.encodeChars "<sst count=\"2\"><si><t>a</t></si></sst>".toList

/-- One text is new, though it is asked for twice, and two requests are references. -/
theorem items_updated_listedPart : ∃ t part new, StringTable.read listedPart = .ok t ∧
    t.newTexts [.intern "_x0041_", .referenceExisting "b", .reference "a", .reference "_x0041_"] = ["_x0041_"] ∧
      t.IsExtended ["_x0041_"] 2 part new ∧ stringsOf new = ["a", "A"] := by
  let uses : List Use := [.intern "_x0041_", .referenceExisting "b", .reference "a", .reference "_x0041_"]
  let t : StringTable := (StringTable.read listedPart).toOption.getD StringTable.empty
  have hread : StringTable.read listedPart = .ok t := eq_ok_getD StringTable.empty (by decide +kernel)
  have hstrings : t.strings = ["a"] := by decide +kernel
  have hnew : t.newTexts uses = ["_x0041_"] := by decide +kernel
  have htaken : t.taken uses = 2 := by decide +kernel
  have hrooted : ∀ part ∈ t.part, IsRooted part := by decide +kernel
  have hadds : t.newTexts uses ≠ [] ∨ 0 < t.taken uses := .inr (by rw [htaken]; decide)
  obtain ⟨part, new, hpart, -, -, hextended, -⟩ := items_updated hread hadds
  have hall := hextended (hrooted part hpart)
  rw [hnew, htaken] at hall
  refine ⟨t, part, new, hread, hnew, hall, ?_⟩
  rw [hall.strings, hstrings]
  decide +kernel

def unlistedPart : Bytes := Utf8.encodeChars "<a/>".toList

/-- The text has a number in the table, but no item in the part. -/
theorem items_updated_otherRoot : ∃ t new, StringTable.read unlistedPart = .ok t ∧ (t.reference "x").1 = 0 ∧
    (t.reference "x").2.updated? = some new ∧ (t.reference "x").2.strings = ["x"] ∧ stringsOf new = [] := by
  let t : StringTable := (StringTable.read unlistedPart).toOption.getD StringTable.empty
  have hread : StringTable.read unlistedPart = .ok t := eq_ok_getD StringTable.empty (by decide +kernel)
  have hnumber : (t.reference "x").1 = 0 := by decide +kernel
  have hstrings : (t.reference "x").2.strings = ["x"] := by decide +kernel
  have hupdated : (t.reference "x").2.updated?.map stringsOf = some [] := by decide +kernel
  obtain ⟨new, hnew, hnone⟩ := Option.map_eq_some_iff.mp hupdated
  exact ⟨t, new, hread, hnumber, hnew, hstrings, hnone⟩

end Spreadsheet.Book.StringTable
