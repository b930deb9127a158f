import Spreadsheet.Markup.Token
import Spreadsheet.Markup.Writer
import Spreadsheet.Proofs.Markup.Escape
import Spreadsheet.Proofs.Outcome
import Spreadsheet.Proofs.Text.Runs
import Spreadsheet.Proofs.Text.Utf8

/-! # Tokens that have been written

* `written`: a text as a source.
* `isName`: what the names of elements and attributes are made of.
* `tagOf_written`: the inside of a tag is read back, whatever its values are.
* `next_open`, `next_empty`, `next_close`, `next_text`: the tokens of a written tree.
* `length_lt_of_next`: every token takes something from the source. -/

set_option autoImplicit false

namespace Spreadsheet.Markup

open Text Text.Utf8

/-! ## Texts as sources -/

def written (s : List Char) : Source := s.map .char

@[simp]
theorem written_nil : written [] = [] := rfl

@[simp]
theorem written_cons (c : Char) (s : List Char) : written (c :: s) = .char c :: written s := rfl

@[simp]
theorem written_append (s t : List Char) : written (s ++ t) = written s ++ written t := List.map_append

theorem isChar_char (c d : Char) : isChar c (.char d) = (d == c) := by
  by_cases h : d = c
  · rw [h, isChar, beq_self_eq_true, beq_self_eq_true]
  · rw [isChar, beq_eq_false_iff_ne.mpr h, beq_eq_false_iff_ne.mpr (fun heq => h (Symbol.char.inj heq))]

theorem decoded_eq_ok {s : Source} {t : String} : decoded s = .ok t ↔ s = written t.toList := by
  unfold decoded
  split
  next cs hcs =>
    rw [Except.ok.injEq, strict_eq_ok.mp hcs]
    constructor
    · rintro rfl
      rw [String.toList_ofList]
      rfl
    · intro h
      have hcs : cs = t.toList := (List.map_inj_right fun _ _ => Symbol.char.inj).mp h
      rw [hcs, String.ofList_toList]
  next f hf =>
    refine ⟨fun h => (nomatch h), fun h => ?_⟩
    rw [strict_eq_ok.mpr h] at hf
    cases hf

theorem decoded_written (s : String) : decoded (written s.toList) = .ok s := decoded_eq_ok.mpr rfl

theorem resolved_written {w : List Char} {s : String} (h : unescape w = .ok s.toList) : resolved (written w) = .ok s := by
  have hstrict : strict (written w) = .ok w := strict_eq_ok.mpr rfl
  rw [resolved, hstrict]
  dsimp only
  rw [h]
  dsimp only
  rw [String.ofList_toList]

/-- The blanks of markup as characters. -/
def isSpaceChar (c : Char) : Bool := isSpace (.char c)

theorem takeWhile_written {p : Symbol → Bool} {w : List Char} {t : Source} (hw : ∀ c ∈ w, p (.char c) = true)
    (ht : Halts p t) : (written w ++ t).takeWhile p = written w := by
  refine takeWhile_run (fun x hx => ?_) ht
  obtain ⟨c, hc, rfl⟩ := List.mem_map.mp hx
  exact hw c hc

theorem dropWhile_written {p : Symbol → Bool} {w : List Char} {t : Source} (hw : ∀ c ∈ w, p (.char c) = true)
    (ht : Halts p t) : (written w ++ t).dropWhile p = t := by
  refine dropWhile_run (fun x hx => ?_) ht
  obtain ⟨c, hc, rfl⟩ := List.mem_map.mp hx
  exact hw c hc

/-! ## Names -/

/-- A character that may stand in a name; blanks and what bounds names may not. -/
def isNameChar (c : Char) : Bool :=
  !(isSpaceChar c || c == '<' || c == '>' || c == '/' || c == '=' || c == '"' || c == '\'')

/-- A name of an element or an attribute: not empty, and no construct of its own begins with it. -/
def isName (s : String) : Bool :=
  !s.toList.isEmpty && s.toList.all isNameChar && s.toList.head? != some '!' && s.toList.head? != some '?'

/-- What a name is made of. -/
structure Name (w : List Char) : Prop where
  nonempty : w ≠ []
  chars : ∀ c ∈ w, isNameChar c = true
  bang : w.head? ≠ some '!'
  question : w.head? ≠ some '?'

theorem name_of_isName {s : String} (h : isName s = true) : Name s.toList := by
  simp only [isName, Bool.and_eq_true, Bool.not_eq_true', List.isEmpty_eq_false_iff, List.all_eq_true,
    bne_iff_ne] at h
  obtain ⟨⟨⟨hne, hchars⟩, hbang⟩, hquestion⟩ := h
  exact ⟨hne, hchars, hbang, hquestion⟩

theorem isNameChar_iff {c : Char} : isNameChar c = true ↔ isSpaceChar c = false ∧ c ≠ '<' ∧ c ≠ '>' ∧ c ≠ '/' ∧
    c ≠ '=' ∧ c ≠ '"' ∧ c ≠ '\'' := by
  simp only [isNameChar, Bool.not_eq_true', Bool.or_eq_false_iff, beq_eq_false_iff_ne]
  constructor
  · rintro ⟨⟨⟨⟨⟨⟨h1, h2⟩, h3⟩, h4⟩, h5⟩, h6⟩, h7⟩
    exact ⟨h1, h2, h3, h4, h5, h6, h7⟩
  · rintro ⟨h1, h2, h3, h4, h5, h6, h7⟩
    exact ⟨⟨⟨⟨⟨⟨h1, h2⟩, h3⟩, h4⟩, h5⟩, h6⟩, h7⟩

/-! ## The inside of a tag -/

theorem tagBody_plain {w : List Char} (hw : ∀ c ∈ w, c ≠ '>' ∧ c ≠ '"' ∧ c ≠ '\'') (s : Source) :
    tagBody none (written w ++ s) = (written w ++ (tagBody none s).1, (tagBody none s).2) := by
  induction w with
  | nil => rfl
  | cons c w ih =>
    obtain ⟨hclose, hdouble, hsingle⟩ := hw c (List.mem_cons_self ..)
    rw [written_cons, List.cons_append, tagBody]
    simp only [isChar_char, beq_eq_false_iff_ne.mpr hclose, beq_eq_false_iff_ne.mpr hdouble,
      beq_eq_false_iff_ne.mpr hsingle, Bool.false_eq_true, if_false]
    rw [ih fun d hd => hw d (List.mem_cons_of_mem _ hd)]
    rfl

theorem tagBody_quoted {w : List Char} (hw : '"' ∉ w) (s : Source) :
    tagBody (some '"') (written w ++ .char '"' :: s) =
      (written w ++ .char '"' :: (tagBody none s).1, (tagBody none s).2) := by
  induction w with
  | nil => rfl
  | cons c w ih =>
    have hc : c ≠ '"' := fun h => hw (h ▸ List.mem_cons_self ..)
    rw [written_cons, List.cons_append, tagBody]
    simp only [isChar_char, beq_eq_false_iff_ne.mpr hc, Bool.false_eq_true, if_false]
    rw [ih fun hd => hw (List.mem_cons_of_mem _ hd)]
    rfl

theorem tagBody_attributes {l : List (String × String)} (hl : ∀ a ∈ l, isName a.1 = true) (s : Source) :
    tagBody none (written (attributeChars l) ++ s) =
      (written (attributeChars l) ++ (tagBody none s).1, (tagBody none s).2) := by
  induction l with
  | nil => rfl
  | cons a l ih =>
    obtain ⟨key, value⟩ := a
    have hkey : ∀ c ∈ ' ' :: key.toList ++ ['='], c ≠ '>' ∧ c ≠ '"' ∧ c ≠ '\'' := by
      intro c hc
      obtain rfl | hc | rfl := by simpa using hc
      · decide
      · obtain ⟨-, -, hclose, -, -, hdouble, hsingle⟩ := isNameChar_iff.mp
          ((name_of_isName (hl (key, value) (List.mem_cons_self ..))).chars c hc)
        exact ⟨hclose, hdouble, hsingle⟩
      · decide
    have hchars : attributeChars ((key, value) :: l) =
        (' ' :: key.toList ++ ['=']) ++ ('"' :: (escapeAttribute value.toList ++ '"' :: attributeChars l)) := by
      simp [attributeChars]
    have hopen : ∀ t : Source, tagBody none (.char '"' :: t) =
        (.char '"' :: (tagBody (some '"') t).1, (tagBody (some '"') t).2) := fun t => rfl
    have hvalue : tagBody none (written ('"' :: (escapeAttribute value.toList ++ '"' :: attributeChars l)) ++ s) =
        (written ('"' :: (escapeAttribute value.toList ++ '"' :: attributeChars l)) ++ (tagBody none s).1,
          (tagBody none s).2) := by
      rw [written_cons, List.cons_append, hopen, written_append, List.append_assoc, written_cons, List.cons_append,
        tagBody_quoted (quote_notMem_escapeAttribute value.toList), ih fun b hb => hl b (List.mem_cons_of_mem _ hb)]
      simp only [List.cons_append, List.append_assoc]
    rw [hchars, written_append, List.append_assoc, tagBody_plain hkey, hvalue, List.append_assoc]

/-! ## Attributes -/

theorem attributeValue_written (place : Source → Nat) {w : List Char} (hw : '"' ∉ w) (s : Source) :
    attributeValue place (.char '"' :: (written w ++ .char '"' :: s)) = .ok (written w, s) := by
  have hinside : ∀ c ∈ w, (fun y : Symbol => decide (y ≠ .char '"')) (.char c) = true := by
    intro c hc
    have hne : Symbol.char c ≠ .char '"' := fun h => hw (Symbol.char.inj h ▸ hc)
    exact decide_eq_true hne
  have hhalts : Halts (fun y : Symbol => decide (y ≠ .char '"')) (.char '"' :: s) := halts_cons rfl
  have hspace : (Symbol.char '"' :: (written w ++ .char '"' :: s)).dropWhile isSpace =
      .char '"' :: (written w ++ .char '"' :: s) := rfl
  rw [attributeValue, hspace]
  dsimp only
  rw [if_pos (.inl rfl), dropWhile_written hinside hhalts, takeWhile_written hinside hhalts]

theorem rawAttribute_written (place : Source → Nat) {seen : List SeenKey} {c : Char} {key : List Char}
    (hkey : Name (c :: key)) (hnew : ∀ k ∈ seen, k.1 ≠ written (c :: key)) {w : List Char} (hw : '"' ∉ w) (s : Source) :
    rawAttribute place seen (.char c) (written key ++ .char '=' :: .char '"' :: (written w ++ .char '"' :: s)) =
      .ok ⟨written (c :: key), written w, s⟩ := by
  have hinside : ∀ d ∈ key, (fun y : Symbol => !(isChar '=' y || isSpace y)) (.char d) = true := by
    intro d hd
    obtain ⟨hspace, -, -, -, heq, -, -⟩ := isNameChar_iff.mp (hkey.chars d (List.mem_cons_of_mem _ hd))
    change (!(isChar '=' (.char d) || isSpaceChar d)) = true
    rw [isChar_char, beq_eq_false_iff_ne.mpr heq, hspace]
    rfl
  have hhalts : Halts (fun y : Symbol => !(isChar '=' y || isSpace y))
      (.char '=' :: .char '"' :: (written w ++ .char '"' :: s)) := halts_cons rfl
  have hnone : (seen.find? fun k => k.1 == written (c :: key)) = none := by
    rw [List.find?_eq_none]
    intro k hk heq
    exact hnew k hk (eq_of_beq heq)
  have hspace : (Symbol.char '=' :: .char '"' :: (written w ++ .char '"' :: s)).dropWhile isSpace =
      .char '=' :: .char '"' :: (written w ++ .char '"' :: s) := rfl
  unfold rawAttribute
  dsimp only
  rw [dropWhile_written hinside hhalts, takeWhile_written hinside hhalts, hspace, ← written_cons, hnone]
  split
  next rest heq =>
    rw [← (List.cons.inj heq).2, attributeValue_written place hw]
  next hne => exact absurd rfl (hne _)

theorem attributes_written (place : Source → Nat) {l : List (String × String)} (hl : ∀ a ∈ l, isName a.1 = true)
    (hnodup : (l.map (·.1)).Nodup) {seen : List SeenKey}
    (hnew : ∀ k ∈ seen, ∀ a ∈ l, k.1 ≠ written a.1.toList) {limit : Nat} (hlimit : l.length ≤ limit) :
    attributes place seen limit (written (attributeChars l)) = .ok l := by
  induction l generalizing seen limit with
  | nil => cases limit <;> rfl
  | cons a l ih =>
    obtain ⟨key, value⟩ := a
    obtain ⟨limit, rfl⟩ : ∃ n, limit = n + 1 := ⟨limit - 1, by simp only [List.length_cons] at hlimit; omega⟩
    have hname := name_of_isName (hl (key, value) (List.mem_cons_self ..))
    obtain ⟨c, w, hw⟩ := List.exists_cons_of_ne_nil hname.nonempty
    rw [List.map_cons, List.nodup_cons] at hnodup
    have hkeyNew : ∀ k ∈ seen, k.1 ≠ written (c :: w) := by
      intro k hk
      rw [← hw]
      exact hnew k hk (key, value) (List.mem_cons_self ..)
    have hspaceC : isSpace (.char c) = false := by
      rw [hw] at hname
      exact (isNameChar_iff.mp (hname.chars c (List.mem_cons_self ..))).1
    rw [hw] at hname
    have hstart : (written (attributeChars ((key, value) :: l))).dropWhile isSpace =
        .char c :: (written w ++ .char '=' :: .char '"' :: (written (escapeAttribute value.toList) ++
          .char '"' :: written (attributeChars l))) := by
      rw [attributeChars, hw]
      simp only [List.cons_append, written_cons, written_append, List.append_assoc]
      rw [List.dropWhile_cons, if_pos (by decide), List.dropWhile_cons, if_neg (by rw [hspaceC]; decide)]
    have hlimit' : l.length ≤ limit := by
      simp only [List.length_cons] at hlimit
      omega
    have hnew' : ∀ k ∈ ((written (c :: w), .char c :: (written w ++ .char '=' :: .char '"' ::
        (written (escapeAttribute value.toList) ++ .char '"' :: written (attributeChars l)))) :: seen : List SeenKey),
        ∀ b ∈ l, k.1 ≠ written b.1.toList := by
      intro k hk b hb
      obtain rfl | hk := List.mem_cons.mp hk
      · intro heq
        rw [← hw] at heq
        have hsame : key.toList = b.1.toList := (List.map_inj_right fun _ _ => Symbol.char.inj).mp heq
        exact hnodup.1 (List.mem_map.mpr ⟨b, hb, (String.toList_inj.mp hsame).symm⟩)
      · exact hnew k hk b (List.mem_cons_of_mem _ hb)
    have hrest := ih (fun b hb => hl b (List.mem_cons_of_mem _ hb)) hnodup.2 hnew' hlimit'
    rw [attributes, hstart]
    dsimp only
    rw [rawAttribute_written place hname hkeyNew (quote_notMem_escapeAttribute value.toList)]
    dsimp only
    rw [← hw, decoded_written, ok_bind, resolved_written (unescape_escapeAttribute value.toList), ok_bind, hw, hrest,
      ok_bind]
    rfl

/-! ## Tags -/

/-- A tag whose name and keys are names. -/
def Tag.isNamed (t : Tag) : Bool := isName t.name && t.attributes.all fun a => isName a.1

/-- A tag that is read back: its name and keys are names, and no key stands twice. -/
structure Tag.IsWritable (t : Tag) : Prop where
  named : t.isNamed = true
  nodup : (t.attributes.map (·.1)).Nodup

def Tag.chars (t : Tag) : List Char := t.name.toList ++ attributeChars t.attributes

theorem Tag.IsWritable.name {t : Tag} (h : t.IsWritable) : Name t.name.toList := by
  have hnamed := h.named
  rw [Tag.isNamed, Bool.and_eq_true] at hnamed
  exact name_of_isName hnamed.1

theorem Tag.IsWritable.keys {t : Tag} (h : t.IsWritable) : ∀ a ∈ t.attributes, isName a.1 = true := by
  have hnamed := h.named
  rw [Tag.isNamed, Bool.and_eq_true, List.all_eq_true] at hnamed
  exact hnamed.2

theorem length_le_attributeChars (l : List (String × String)) : l.length ≤ (written (attributeChars l)).length := by
  induction l with
  | nil => exact Nat.zero_le _
  | cons a l ih =>
    obtain ⟨key, value⟩ := a
    simp only [attributeChars, List.cons_append, written_cons, written_append, List.length_cons, List.length_append]
    omega

theorem tagOf_written {t : Tag} (h : t.IsWritable) : tagOf (written t.chars) = .ok t := by
  have hname : ∀ c ∈ t.name.toList, (fun x : Symbol => !isSpace x) (.char c) = true := by
    intro c hc
    have hspace := (isNameChar_iff.mp (h.name.chars c hc)).1
    change (!isSpaceChar c) = true
    rw [hspace]
    rfl
  have hhalts : Halts (fun x : Symbol => !isSpace x) (written (attributeChars t.attributes)) := by
    cases t.attributes with
    | nil => exact halts_nil _
    | cons a l => exact halts_cons rfl
  rw [tagOf, Tag.chars, written_append, takeWhile_written hname hhalts, dropWhile_written hname hhalts,
    decoded_written, ok_bind]
  dsimp only
  have hnew : ∀ k ∈ ([] : List SeenKey), ∀ b ∈ t.attributes, k.1 ≠ written b.1.toList := fun k hk => by cases hk
  rw [attributes_written _ h.keys h.nodup hnew (length_le_attributeChars t.attributes), ok_bind]
  rfl

theorem next_name {w : List Char} (hw : Name w) (s : Source) :
    next (.char '<' :: (written w ++ s)) =
      found (openingToken (tagBody none (written w ++ s)).1) (tagBody none (written w ++ s)).2 := by
  obtain ⟨c, w, rfl⟩ := List.exists_cons_of_ne_nil hw.nonempty
  have hslash : c ≠ '/' := (isNameChar_iff.mp (hw.chars c (List.mem_cons_self ..))).2.2.2.1
  have hbang : c ≠ '!' := fun h => hw.bang (congrArg some h)
  have hquestion : c ≠ '?' := fun h => hw.question (congrArg some h)
  rw [next, if_pos (by decide), written_cons, List.cons_append]
  unfold markup
  split
  next h => cases h
  next h => exact absurd (Symbol.char.inj (List.cons.inj h).1) hbang
  next h => exact absurd (Symbol.char.inj (List.cons.inj h).1) hslash
  next h => exact absurd (Symbol.char.inj (List.cons.inj h).1) hquestion
  next => rfl

theorem plain_name {w : List Char} (hw : Name w) : ∀ c ∈ w, c ≠ '>' ∧ c ≠ '"' ∧ c ≠ '\'' := by
  intro c hc
  obtain ⟨-, -, hclose, -, -, hdouble, hsingle⟩ := isNameChar_iff.mp (hw.chars c hc)
  exact ⟨hclose, hdouble, hsingle⟩

theorem tagBody_chars {t : Tag} (h : t.IsWritable) (s : Source) :
    tagBody none (written t.chars ++ s) = (written t.chars ++ (tagBody none s).1, (tagBody none s).2) := by
  rw [Tag.chars, written_append, List.append_assoc, tagBody_plain (plain_name h.name), tagBody_attributes h.keys,
    List.append_assoc]

theorem getLast?_chars {t : Tag} (h : t.IsWritable) : (written t.chars).getLast? ≠ some (.char '/') := by
  have hattributes : ∀ l : List (String × String), l ≠ [] → (attributeChars l).getLast? = some '"' := by
    intro l
    induction l with
    | nil => exact fun h => absurd rfl h
    | cons a l ih =>
      intro _
      obtain ⟨key, value⟩ := a
      have hchars : attributeChars ((key, value) :: l) =
          (' ' :: key.toList ++ '=' :: '"' :: escapeAttribute value.toList) ++ '"' :: attributeChars l := by
        simp [attributeChars]
      rw [hchars, List.getLast?_append, List.getLast?_cons]
      cases l with
      | nil => rfl
      | cons b l =>
        rw [ih (by simp)]
        rfl
  have hlast : ∀ c ∈ t.chars.getLast?, c ≠ '/' := by
    intro c hc
    rw [Tag.chars, List.getLast?_append] at hc
    by_cases hnone : t.attributes = []
    · rw [hnone] at hc
      exact (isNameChar_iff.mp (h.name.chars c (List.mem_of_getLast? hc))).2.2.2.1
    · rw [hattributes _ hnone] at hc
      cases hc
      decide
  intro hslash
  rw [written, List.getLast?_map, Option.map_eq_some_iff] at hslash
  obtain ⟨c, hc, hchar⟩ := hslash
  exact hlast c hc (Symbol.char.inj hchar)

theorem next_open {t : Tag} (h : t.IsWritable) (s : Source) :
    next (.char '<' :: (written t.chars ++ .char '>' :: s)) = .ok (some (.startTag t, s)) := by
  have hclose : tagBody none (.char '>' :: s) = ([], s) := rfl
  have hnext : next (.char '<' :: (written t.chars ++ .char '>' :: s)) =
      found (openingToken (tagBody none (written t.chars ++ .char '>' :: s)).1)
        (tagBody none (written t.chars ++ .char '>' :: s)).2 := by
    rw [Tag.chars, written_append, List.append_assoc]
    exact next_name h.name _
  rw [hnext, tagBody_chars h, hclose, List.append_nil, openingToken, if_neg (getLast?_chars h), tagOf_written h]
  rfl

theorem next_empty {t : Tag} (h : t.IsWritable) (s : Source) :
    next (.char '<' :: (written t.chars ++ .char '/' :: .char '>' :: s)) = .ok (some (.emptyTag t, s)) := by
  have hclose : tagBody none (.char '/' :: .char '>' :: s) = ([.char '/'], s) := rfl
  have hnext : next (.char '<' :: (written t.chars ++ .char '/' :: .char '>' :: s)) =
      found (openingToken (tagBody none (written t.chars ++ .char '/' :: .char '>' :: s)).1)
        (tagBody none (written t.chars ++ .char '/' :: .char '>' :: s)).2 := by
    rw [Tag.chars, written_append, List.append_assoc]
    exact next_name h.name _
  rw [hnext, tagBody_chars h, hclose, openingToken, if_pos (List.getLast?_concat ..), List.dropLast_concat,
    tagOf_written h]
  rfl

theorem upTo_written {c : Char} {w : List Char} (hw : c ∉ w) (s : Source) :
    upTo c (written w ++ .char c :: s) = (written w, s) := by
  have hinside : ∀ d ∈ w, (fun x => !isChar c x) (.char d) = true := by
    intro d hd
    have hne : d ≠ c := fun h => hw (h ▸ hd)
    simp [isChar_char, hne]
  have hhalts : Halts (fun x => !isChar c x) (.char c :: s) := halts_cons (by simp [isChar_char])
  rw [upTo, takeWhile_written hinside hhalts, dropWhile_written hinside hhalts]
  rfl

theorem next_close {w : List Char} (hw : Name w) (s : Source) :
    next (.char '<' :: .char '/' :: (written w ++ .char '>' :: s)) = .ok (some (.endTag (String.ofList w), s)) := by
  have hclose : '>' ∉ w := fun h => (plain_name hw '>' h).1 rfl
  have hblank : (written w).reverse.dropWhile isSpace = (written w).reverse := by
    refine Halts.dropWhile fun x hx => ?_
    obtain ⟨c, hc, rfl⟩ := List.mem_map.mp (List.mem_reverse.mp (List.mem_of_head? hx))
    exact (isNameChar_iff.mp (hw.chars c hc)).1
  have hne : (written w).isEmpty = false := by
    rw [List.isEmpty_eq_false_iff]
    exact fun h => hw.nonempty (List.map_eq_nil_iff.mp h)
  have hnext : next (.char '<' :: .char '/' :: (written w ++ .char '>' :: s)) =
      found (closingToken (upTo '>' (written w ++ .char '>' :: s)).1) (upTo '>' (written w ++ .char '>' :: s)).2 := rfl
  have hdecoded : decoded (written w) = .ok (String.ofList w) := by
    rw [decoded_eq_ok, String.toList_ofList]
  rw [hnext, upTo_written hclose, closingToken]
  dsimp only
  rw [hblank, List.reverse_reverse, hne, if_neg Bool.false_ne_true, hdecoded]
  rfl

/-! ## Character data -/

/-- A source that is at its end, or at a tag or another construct. -/
def AtMarkup (s : Source) : Prop := Halts (fun x => !isChar '<' x) s

theorem atMarkup_nil : AtMarkup [] := halts_nil _

theorem atMarkup_cons (s : Source) : AtMarkup (.char '<' :: s) := halts_cons rfl

theorem next_text {s : String} (hs : s ≠ "") {rest : Source} (hrest : AtMarkup rest) :
    next (written (escapeText s.toList) ++ rest) = .ok (some (.leaf (.text s), rest)) := by
  have hinside : ∀ c ∈ escapeText s.toList, (fun x => !isChar '<' x) (.char c) = true := by
    intro c hc
    have hne : c ≠ '<' := fun h => lt_notMem_escapeText s.toList (h ▸ hc)
    simp [isChar_char, hne]
  have hne : escapeText s.toList ≠ [] := by
    intro h
    refine hs (String.toList_inj.mp ?_)
    have hread := unescape_escapeText s.toList
    have hnil : unescape [] = .ok [] := unescape_escapeText []
    rw [h, hnil] at hread
    exact (Except.ok.inj hread).symm
  obtain ⟨c, w, hw⟩ := List.exists_cons_of_ne_nil hne
  have htake := takeWhile_written hinside hrest
  have hdrop := dropWhile_written hinside hrest
  have hc : isChar '<' (.char c) = false := by
    have h := hinside c (hw ▸ List.mem_cons_self ..)
    simpa using h
  have hresolved := resolved_written (unescape_escapeText s.toList)
  rw [hw, written_cons, List.cons_append] at htake hdrop ⊢
  rw [hw] at hresolved
  rw [next, hc, if_neg Bool.false_ne_true, htake, hdrop, ← written_cons, hresolved]
  rfl

end Spreadsheet.Markup
