import Spreadsheet.Proofs.Markup.Parsed

/-! # Trees that their markup determines

Markup has one way to show a tree, but some trees look alike in it: two texts side by side look like one, and a
comment that holds its own closing mark ends there. What is asked for here is stated on the tree alone.

* `Node.IsCanonical`: no node holds what would end it, and no text is empty or stands beside another one.
* `isReadable_comment_of_not_infix`, `isReadable_cdata_of_not_infix`, `isReadable_doctype_of_plain`: a construct is
  taken up to its own closing mark, whatever follows it.
* `IsCanonical.isWritable`, `IsCanonical.merged_eq_self`: such a tree is read back, and nothing in it is put together.
* `parse_bytes_eq_self`: a part of such nodes is read back as it was. -/

set_option autoImplicit false

namespace Spreadsheet.Markup

open Text

/-! ## Comments and sections -/

/-- A text ends at the closing mark after it when the mark does not stand in it. -/
theorem upToClosing?_written {twice : Char} (htwice : twice ≠ '>') {w : List Char} (hw : ¬ [twice, twice, '>'] <:+: w)
    (rest : Source) :
    upToClosing? twice (written w ++ .char twice :: .char twice :: .char '>' :: rest) = some (written w, rest) := by
  have hlast : isChar '>' (.char twice) = false := by
    rw [isChar_char]
    exact beq_eq_false_iff_ne.mpr htwice
  induction w with
  | nil => simp [upToClosing?, isChar_char]
  | cons c w ih =>
    have hrest := ih fun h => hw (h.trans (List.suffix_cons c w).isInfix)
    -- A mark that begins here would end in the text, or in the first two characters of the mark after it.
    have hopen : ∃ y z s, written w ++ .char twice :: .char twice :: .char '>' :: rest = y :: z :: s ∧
        ¬ (isChar twice (.char c) && isChar twice y && isChar '>' z) = true := by
      obtain _ | ⟨d, _ | ⟨e, w⟩⟩ := w
      · exact ⟨_, _, _, rfl, by simp [hlast]⟩
      · exact ⟨_, _, _, rfl, by simp [hlast]⟩
      · refine ⟨_, _, _, rfl, ?_⟩
        simp only [isChar_char, Bool.and_eq_true, beq_iff_eq]
        rintro ⟨⟨rfl, rfl⟩, rfl⟩
        exact hw ⟨[], w, rfl⟩
    obtain ⟨y, z, s, hs, hopen⟩ := hopen
    rw [written_cons, List.cons_append, hs, upToClosing?, if_neg hopen, ← hs, hrest]
    rfl

theorem isReadable_comment_of_not_infix {s : String} (hs : ¬ "-->".toList <:+: s.toList) :
    (Node.comment s).IsReadable :=
  isReadable_comment (upToClosing?_written (by decide) hs []) (decoded_written s)

theorem isReadable_cdata_of_not_infix {s : String} (hs : ¬ "]]>".toList <:+: s.toList) : (Node.cdata s).IsReadable :=
  isReadable_cdata (upToClosing?_written (by decide) hs []) (decoded_written s)

/-! ## Document types -/

theorem isReadable_doctype_of_plain {s : String} (hne : s ≠ "") (htrim : trim s = s) (hopen : '<' ∉ s.toList)
    (hclose : '>' ∉ s.toList) : (Node.doctype s).IsReadable := by
  have htrimmed : trimmed s.toList = s.toList := by
    have h := congrArg String.toList htrim
    rwa [trim, String.toList_ofList] at h
  have hplain : ∀ x ∈ written s.toList, IsPlain x := by
    intro x hx
    obtain ⟨c, hc, rfl⟩ := List.mem_map.mp hx
    rw [IsPlain, isChar_char, isChar_char, beq_eq_false_iff_ne, beq_eq_false_iff_ne]
    exact ⟨fun h => hopen (h ▸ hc), fun h => hclose (h ▸ hc)⟩
  have hcloses : Closes 0 (written s.toList ++ []) := (closes_append_left hplain).mpr (closes_nil.mpr rfl)
  rw [List.append_nil] at hcloses
  refine isReadable_doctype (fun h => hne (String.toList_eq_nil_iff.mp h)) ?_ ?_ hcloses
  · rw [← htrimmed]
    exact halts_trimmed _
  · rw [← htrimmed]
    exact halts_reverse_trimmed _

/-! ## Trees -/

namespace Node

/-- Whether a node is a text. -/
def isText : Node → Bool
  | text _ => true
  | _ => false

mutual

/-- A tree inside a part that its markup determines. -/
def IsCanonical : Node → Prop
  | document _ => False
  | element t cs => t.IsWritable ∧ AllCanonical cs
  | text s => s ≠ ""
  | comment s => ¬ "-->".toList <:+: s.toList
  | cdata s => ¬ "]]>".toList <:+: s.toList
  | declaration s => '>' ∉ s.toList ∧ isDeclaration s.toList = true
  | instruction s => s ≠ "" ∧ '>' ∉ s.toList ∧ isDeclaration s.toList = false
  | doctype s => s ≠ "" ∧ trim s = s ∧ '<' ∉ s.toList ∧ '>' ∉ s.toList

/-- Trees side by side that their markup determines: no text stands beside another one. -/
def AllCanonical : List Node → Prop
  | [] => True
  | n :: rest => n.IsCanonical ∧ AllCanonical rest ∧ (n.isText = true → rest.head?.all (!·.isText) = true)

end

instance (t : Tag) : Decidable t.IsWritable :=
  decidable_of_iff (t.isNamed = true ∧ (t.attributes.map (·.1)).Nodup) ⟨fun h => ⟨h.1, h.2⟩, fun h => ⟨h.1, h.2⟩⟩

mutual

instance decidableIsCanonical : (n : Node) → Decidable n.IsCanonical
  | document _ => inferInstanceAs (Decidable False)
  | element t cs =>
    have := decidableAllCanonical cs
    inferInstanceAs (Decidable (t.IsWritable ∧ AllCanonical cs))
  | text s => inferInstanceAs (Decidable (s ≠ ""))
  | comment s => inferInstanceAs (Decidable ¬ "-->".toList <:+: s.toList)
  | cdata s => inferInstanceAs (Decidable ¬ "]]>".toList <:+: s.toList)
  | declaration s => inferInstanceAs (Decidable ('>' ∉ s.toList ∧ isDeclaration s.toList = true))
  | instruction s => inferInstanceAs (Decidable (s ≠ "" ∧ '>' ∉ s.toList ∧ isDeclaration s.toList = false))
  | doctype s => inferInstanceAs (Decidable (s ≠ "" ∧ trim s = s ∧ '<' ∉ s.toList ∧ '>' ∉ s.toList))

instance decidableAllCanonical : (cs : List Node) → Decidable (AllCanonical cs)
  | [] => inferInstanceAs (Decidable True)
  | n :: rest =>
    have := decidableIsCanonical n
    have := decidableAllCanonical rest
    inferInstanceAs (Decidable (n.IsCanonical ∧ AllCanonical rest ∧
      (n.isText = true → rest.head?.all (!·.isText) = true)))

end

mutual

theorem IsCanonical.isWritable : {n : Node} → n.IsCanonical → n.IsWritable
  | document _, h => h
  | element _ _, h => ⟨h.1, h.2.allWritable⟩
  | text _, _ => trivial
  | comment _, h => isReadable_comment_of_not_infix h
  | cdata _, h => isReadable_cdata_of_not_infix h
  | declaration s, h => by
    have hne : s ≠ "" := by
      rintro rfl
      exact absurd h.2 (by decide)
    have hnode : questionNode s = declaration s := if_pos h.2
    exact hnode ▸ isWritable_questionNode hne h.1
  | instruction s, h => by
    have hnode : questionNode s = instruction s := by rw [questionNode, h.2.2]; rfl
    exact hnode ▸ isWritable_questionNode h.1 h.2.1
  | doctype _, h => isReadable_doctype_of_plain h.1 h.2.1 h.2.2.1 h.2.2.2

theorem AllCanonical.allWritable : {cs : List Node} → AllCanonical cs → AllWritable cs
  | [], _ => trivial
  | _ :: _, h => ⟨h.1.isWritable, h.2.1.allWritable⟩

end

theorem ne_text_of_isText {n : Node} (h : n.isText = false) (s : String) : n ≠ text s := by
  rintro rfl
  cases h

mutual

theorem IsCanonical.merged_eq_self : {n : Node} → n.IsCanonical → n.merged = n
  | document _, h => h.elim
  | element _ _, h => by rw [merged, h.2.mergedAll_eq_self]
  | text _, _ => by rw [merged]
  | comment _, _ => by rw [merged]
  | cdata _, _ => by rw [merged]
  | declaration _, _ => by rw [merged]
  | instruction _, _ => by rw [merged]
  | doctype _, _ => by rw [merged]

theorem AllCanonical.mergedAll_eq_self : {cs : List Node} → AllCanonical cs → mergedAll cs = cs
  | [], _ => by rw [mergedAll]
  | n :: cs, h => by
    rw [mergedAll, h.1.merged_eq_self, h.2.1.mergedAll_eq_self]
    cases hn : n.isText with
    | false => exact followedBy_of_ne_text (ne_text_of_isText hn) cs
    | true =>
      obtain ⟨s, rfl⟩ : ∃ s, n = text s := by
        cases n with
        | text s => exact ⟨s, rfl⟩
        | _ => cases hn
      have hapart : ∀ t, cs.head? ≠ some (text t) := by
        intro t ht
        have hnext := h.2.2 rfl
        rw [ht] at hnext
        cases hnext
      have hne : s.isEmpty = false := by
        rw [← Bool.not_eq_true, String.isEmpty_iff]
        exact h.1
      rw [text_followedBy_of_ne_text hapart, hne]
      rfl

end

/-- A part that its markup determines: no byte order mark begins it. -/
structure IsCanonicalPart (part : Node) : Prop where
  whole : part = document part.children
  nodes : AllCanonical part.children
  unmarked : part.chars.head? ≠ some '\uFEFF'

end Node

/-- A part that its markup determines is read back as it was. -/
theorem parse_bytes_eq_self {part : Node} (h : part.IsCanonicalPart) : parse part.bytes = .ok part := by
  obtain ⟨cs, hcs⟩ : ∃ cs, part = .document cs := ⟨_, h.whole⟩
  subst hcs
  have hnodes : Node.AllCanonical cs := h.nodes
  have hhead : (Node.charsOfAll cs).head? ≠ some '\uFEFF' := h.unmarked
  rw [parse_document hnodes.allWritable hhead, hnodes.mergedAll_eq_self]

/-- A part with every kind of node, where texts begin and end with the characters of marks. -/
def crowdedPart : Node :=
  .document [.declaration "xml version=\"1.0\"", .doctype "html", .text "\n", .comment "> a-", .instruction "xml?",
    .element ⟨"a:b", [("k", "<\t\n\r\"'&>"), ("n", "")]⟩
      [.element ⟨"c", []⟩ [], .text "x > y & ]]>", .cdata "<c/>]", .comment "-",
        .element ⟨"c", [("k", "/")]⟩ [.text " "]], .text "&amp;"]

theorem parse_bytes_crowdedPart : crowdedPart.IsCanonicalPart ∧ parse crowdedPart.bytes = .ok crowdedPart := by
  have h : crowdedPart.IsCanonicalPart := ⟨rfl, by decide, by decide⟩
  exact ⟨h, parse_bytes_eq_self h⟩

end Spreadsheet.Markup
