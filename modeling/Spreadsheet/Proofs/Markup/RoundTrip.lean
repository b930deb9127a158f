import Spreadsheet.Proofs.Markup.Merging
import Spreadsheet.Proofs.Markup.Scanning
import Spreadsheet.Proofs.Markup.Tokens

/-! # Written trees are read back

* `Node.IsWritable`: a tree whose tags are made of names, and whose other constructs are read back one by one.
* `finish_chars`: the markup of a tree is taken in as that tree, wherever it stands.
* `parse_bytes`: a part that is written and read again is the same, but for the bounds between its texts. -/

set_option autoImplicit false

namespace Spreadsheet.Markup

/-! ## Trees that are read back -/

namespace Node

/-- A construct that is read as itself, whatever follows it. -/
def IsReadable (n : Node) : Prop := ∀ rest, next (written n.chars ++ rest) = .ok (some (.leaf n, rest))

mutual

/-- A tree inside a part that is read back. -/
def IsWritable : Node → Prop
  | document _ => False
  | element t cs => t.IsWritable ∧ AllWritable cs
  | text _ => True
  | comment s => IsReadable (comment s)
  | cdata s => IsReadable (cdata s)
  | declaration s => IsReadable (declaration s)
  | instruction s => IsReadable (instruction s)
  | doctype s => IsReadable (doctype s)

/-- Trees that are read back. -/
def AllWritable : List Node → Prop
  | [] => True
  | n :: rest => n.IsWritable ∧ AllWritable rest

end

theorem allWritable_iff {cs : List Node} : AllWritable cs ↔ ∀ n ∈ cs, n.IsWritable := by
  induction cs with
  | nil => simp [AllWritable]
  | cons n cs ih => rw [AllWritable, ih, List.forall_mem_cons]

theorem atMarkup_chars {n : Node} (hn : n.IsWritable) (htext : ∀ s, n ≠ text s) (rest : Source) :
    AtMarkup (written n.chars ++ rest) := by
  cases n with
  | document cs => exact hn.elim
  | text s => exact absurd rfl (htext s)
  | element t cs => cases cs <;> exact atMarkup_cons _
  | _ => exact atMarkup_cons _

theorem merged_ne_text {n : Node} (htext : ∀ s, n ≠ text s) (s : String) : n.merged ≠ text s := by
  cases n with
  | text u => exact absurd rfl (htext u)
  | _ => exact fun h => by cases h

/-! ## Texts next to one another -/

theorem followedBy_of_ne_text {n : Node} (htext : ∀ s, n ≠ text s) (ns : List Node) : n.followedBy ns = n :: ns := by
  cases n with
  | text s => exact absurd rfl (htext s)
  | _ => rfl

theorem text_followedBy_of_ne_text {ns : List Node} (htext : ∀ s, ns.head? ≠ some (text s)) (s : String) :
    (text s).followedBy ns = if s.isEmpty then ns else text s :: ns := by
  cases ns with
  | nil => rfl
  | cons n ns =>
    cases n with
    | text t => exact absurd rfl (htext t)
    | _ => rfl

theorem empty_followedBy (ns : List Node) : (text "").followedBy ns = ns := by
  cases ns with
  | nil => rfl
  | cons n ns =>
    cases n with
    | text t => rw [followedBy, String.empty_append]
    | _ => rfl

theorem text_followedBy_text (s t : String) (ns : List Node) :
    (text s).followedBy ((text t).followedBy ns) = (text (s ++ t)).followedBy ns := by
  by_cases hns : ∃ u rest, ns = text u :: rest
  · obtain ⟨u, rest, rfl⟩ := hns
    simp only [followedBy, String.append_assoc]
  · have htext : ∀ u, ns.head? ≠ some (text u) := by
      intro u hu
      cases ns with
      | nil => cases hu
      | cons n rest =>
        cases hu
        exact hns ⟨u, rest, rfl⟩
    by_cases ht : t = ""
    · subst ht
      rw [empty_followedBy, String.append_empty]
    · rw [text_followedBy_of_ne_text htext, text_followedBy_of_ne_text htext]
      have hne : (s ++ t).isEmpty = false := by
        rw [← Bool.not_eq_true, String.isEmpty_iff]
        intro h
        exact ht (String.append_eq_empty_iff.mp h).2
      have ht' : t.isEmpty = false := by
        rw [← Bool.not_eq_true, String.isEmpty_iff]
        exact ht
      rw [ht', hne]
      rfl

end Node

/-! ## Trees are taken in -/

namespace Builder

open Node

def addAll (b : Builder) (ns : List Node) : Builder := ns.foldl add b

theorem addAll_opened (ns : List Node) (t : Tag) (children : List Node) (outer : List (Tag × List Node))
    (finished : List Node) :
    addAll ⟨(t, children) :: outer, finished⟩ ns = ⟨(t, ns.reverse ++ children) :: outer, finished⟩ := by
  induction ns generalizing children with
  | nil => rfl
  | cons n ns ih =>
    rw [addAll, List.foldl_cons]
    change addAll ⟨(t, n :: children) :: outer, finished⟩ ns = _
    rw [ih, List.reverse_cons, List.append_assoc, List.singleton_append]

theorem addAll_finished (ns finished : List Node) : addAll ⟨[], finished⟩ ns = ⟨[], ns.reverse ++ finished⟩ := by
  induction ns generalizing finished with
  | nil => rfl
  | cons n ns ih =>
    rw [addAll, List.foldl_cons]
    change addAll ⟨[], n :: finished⟩ ns = _
    rw [ih, List.reverse_cons, List.append_assoc, List.singleton_append]

theorem finish_text (size : Nat) (b : Builder) (s : String) {rest : Source} (hrest : AtMarkup rest) :
    finish size b (written (escapeText s.toList) ++ rest) =
      finish size (b.addAll (if s.isEmpty then [] else [text s])) rest := by
  by_cases hs : s = ""
  · subst hs
    rfl
  · have hne : s.isEmpty = false := by
      rw [← Bool.not_eq_true, String.isEmpty_iff]
      exact hs
    rw [hne]
    exact finish_next (next_text hs hrest) rfl

mutual

theorem finish_chars (size : Nat) : (n : Node) → n.IsWritable → (∀ s, n ≠ text s) → (b : Builder) → (rest : Source) →
    finish size b (written n.chars ++ rest) = finish size (b.add n.merged) rest
  | document cs, hn, _, _, _ => hn.elim
  | element t [], hn, _, b, rest => by
    have hchars : written (element t []).chars ++ rest =
        .char '<' :: (written t.chars ++ .char '/' :: .char '>' :: rest) := by
      simp [chars, Tag.chars]
    rw [hchars]
    exact finish_next (next_empty hn.1 rest) rfl
  | element t (c :: cs), hn, _, b, rest => by
    have hchars : written (element t (c :: cs)).chars ++ rest =
        .char '<' :: (written t.chars ++ .char '>' :: (written (escapeText "".toList) ++ (written (charsOfAll (c :: cs)) ++
          .char '<' :: .char '/' :: (written t.name.toList ++ .char '>' :: rest)))) := by
      simp [chars, charsOfAll, Tag.chars, escapeText]
    rw [hchars, finish_next (next_open hn.1 _) rfl,
      finish_charsOfAll size (c :: cs) hn.2 "" ⟨(t, []) :: b.opened, b.finished⟩ _ (atMarkup_cons _), empty_followedBy,
      addAll_opened]
    refine finish_next (next_close hn.1.name rest) ?_
    have hname : t.name = String.ofList t.name.toList := String.ofList_toList.symm
    rw [step]
    dsimp only
    rw [if_pos hname, List.append_nil, List.reverse_reverse]
    rfl
  | text s, _, htext, _, _ => absurd rfl (htext s)
  | comment s, hn, _, b, rest => finish_next (hn rest) rfl
  | cdata s, hn, _, b, rest => finish_next (hn rest) rfl
  | declaration s, hn, _, b, rest => finish_next (hn rest) rfl
  | instruction s, hn, _, b, rest => finish_next (hn rest) rfl
  | doctype s, hn, _, b, rest => finish_next (hn rest) rfl

/-- The markup of several trees after a text is taken in as that text and those trees. -/
theorem finish_charsOfAll (size : Nat) : (cs : List Node) → AllWritable cs → (s : String) → (b : Builder) →
    (rest : Source) → AtMarkup rest →
    finish size b (written (escapeText s.toList) ++ (written (charsOfAll cs) ++ rest)) =
      finish size (b.addAll ((text s).followedBy (mergedAll cs))) rest
  | [], _, s, b, rest, hrest => finish_text size b s hrest
  | n :: cs, hcs, s, b, rest, hrest => by
    by_cases htext : ∃ t, n = text t
    · obtain ⟨t, rfl⟩ := htext
      have hchars : written (escapeText s.toList) ++ (written (charsOfAll (text t :: cs)) ++ rest) =
          written (escapeText (s ++ t).toList) ++ (written (charsOfAll cs) ++ rest) := by
        rw [charsOfAll, chars, String.toList_append, escapeText_append, written_append, written_append]
        simp only [List.append_assoc]
      rw [hchars, finish_charsOfAll size cs hcs.2 (s ++ t) b rest hrest, mergedAll, merged, text_followedBy_text]
    · have htext : ∀ t, n ≠ text t := fun t ht => htext ⟨t, ht⟩
      have hmerged : mergedAll (n :: cs) = n.merged :: mergedAll cs := followedBy_of_ne_text (merged_ne_text htext) _
      have hchars : written (charsOfAll (n :: cs)) ++ rest =
          written n.chars ++ (written (escapeText "".toList) ++ (written (charsOfAll cs) ++ rest)) := by
        simp [charsOfAll, escapeText]
      rw [hchars, finish_text size b s (atMarkup_chars hcs.1 htext _), finish_chars size n hcs.1 htext,
        finish_charsOfAll size cs hcs.2 "" _ rest hrest, empty_followedBy, hmerged,
        text_followedBy_of_ne_text fun t ht => merged_ne_text htext t (Option.some.inj (List.head?_cons ▸ ht))]
      congr 1
      cases s.isEmpty <;> rfl

end

end Builder

/-! ## Parts -/

/-- A part that is read back: no byte order mark stands before its first tag. -/
structure Node.IsWritablePart (part : Node) : Prop where
  whole : part = .document part.children
  nodes : Node.AllWritable part.children
  unmarked : ∀ s, .text s ∈ part.children → '\uFEFF' ∉ s.toList

theorem head?_charsOfAll {cs : List Node} (hnodes : Node.AllWritable cs)
    (hmark : ∀ s, .text s ∈ cs → '\uFEFF' ∉ s.toList) : (Node.charsOfAll cs).head? ≠ some '\uFEFF' := by
  induction cs with
  | nil => exact fun h => by cases h
  | cons n cs ih =>
    by_cases htext : ∃ t, n = .text t
    · obtain ⟨t, rfl⟩ := htext
      rw [Node.charsOfAll, Node.chars]
      cases ht : t.toList with
      | nil => exact ih hnodes.2 fun s hs => hmark s (List.mem_cons_of_mem _ hs)
      | cons c w =>
        have hc : c ≠ '\uFEFF' := by
          intro h
          refine hmark t (List.mem_cons_self ..) ?_
          rw [ht, h]
          exact List.mem_cons_self ..
        rw [escapeText, List.flatMap_cons, List.append_assoc]
        unfold escapeTextChar
        split
        · exact fun h => by cases h
        split
        · exact fun h => by cases h
        split
        · exact fun h => by cases h
        · exact fun h => hc (Option.some.inj h)
    · have hstart : AtMarkup (written (Node.charsOfAll (n :: cs))) := by
        rw [Node.charsOfAll, written_append]
        exact Node.atMarkup_chars hnodes.1 (fun t ht => htext ⟨t, ht⟩) _
      intro h
      have hhead : (written (Node.charsOfAll (n :: cs))).head? = some (.char '\uFEFF') := by
        rw [written, List.head?_map, h]
        rfl
      have hmarkup := hstart _ hhead
      exact absurd hmarkup (by decide)

theorem sourceOf_encodeChars {s : List Char} (h : s.head? ≠ some '\uFEFF') :
    sourceOf (Text.Utf8.encodeChars s) = written s := by
  have hdecode : Text.Utf8.decode (Text.Utf8.encodeChars s) = written s := by
    rw [Text.Utf8.decode_encodeChars]
    rfl
  unfold sourceOf
  rw [hdecode]
  split
  next rest heq =>
    refine absurd (?_ : s.head? = some '\uFEFF') h
    cases s with
    | nil => cases heq
    | cons c s =>
      cases heq
      rfl
  next => rfl

/-- Nodes that are read back one by one are read back together, but for the bounds between their texts. -/
theorem parse_document {cs : List Node} (hnodes : Node.AllWritable cs)
    (hhead : (Node.charsOfAll cs).head? ≠ some '\uFEFF') :
    parse (Node.bytes (.document cs)) = .ok (.document (Node.mergedAll cs)) := by
  have hsource : sourceOf (Node.bytes (.document cs)) = written (Node.charsOfAll cs) := by
    rw [Node.bytes_eq, Node.chars, sourceOf_encodeChars hhead]
  have hchars : written (Node.charsOfAll cs) =
      written (escapeText "".toList) ++ (written (Node.charsOfAll cs) ++ []) := by
    simp [escapeText]
  rw [parse, hsource, Builder.build_eq_finish]
  conv => lhs; arg 3; rw [hchars]
  rw [Builder.finish_charsOfAll _ cs hnodes "" _ [] atMarkup_nil, Node.empty_followedBy, Builder.addAll_finished,
    Builder.finish_nil, List.append_nil, List.reverse_reverse]

theorem parse_bytes {part : Node} (h : part.IsWritablePart) : parse part.bytes = .ok part.merged := by
  obtain ⟨cs, hcs⟩ : ∃ cs, part = .document cs := ⟨_, h.whole⟩
  subst hcs
  exact parse_document h.nodes (head?_charsOfAll h.nodes h.unmarked)

end Spreadsheet.Markup
