import Spreadsheet.Markup.Escape

/-! # References are resolved to what they were written for

* `unescape_escapeText`, `unescape_escapeAttribute`: written text is read back.
* `lt_notMem_escapeText`, `quote_notMem_escapeAttribute`: what written text does not contain, so that it ends where it should. -/

set_option autoImplicit false

namespace Spreadsheet.Markup

open Text

/-! ## One reference -/

theorem splitReference?_append {name : List Char} (h : ∀ c ∈ name, c ≠ ';' ∧ c ≠ '&') (rest : List Char) :
    splitReference? (name ++ ';' :: rest) = some (name, rest) := by
  induction name with
  | nil => rfl
  | cons c name ih =>
    obtain ⟨hsemicolon, hampersand⟩ := h c (List.mem_cons_self ..)
    rw [List.cons_append, splitReference?, if_neg hsemicolon, if_neg hampersand,
      ih fun d hd => h d (List.mem_cons_of_mem _ hd)]
    rfl

/-- A character stands for itself or is what a reference names. -/
structure Names (name : List Char) (c : Char) : Prop where
  inside : ∀ d ∈ name, d ≠ ';' ∧ d ≠ '&'
  referenced : ∀ start stop, referenced start stop name = .ok c

theorem Names.unescapeFrom {name : List Char} {c : Char} (h : Names name c) (size offset : Nat) (rest : List Char) :
    ∃ offset', unescapeFrom size offset ('&' :: (name ++ ';' :: rest)) =
      (Markup.unescapeFrom size offset' rest).map (c :: ·) := by
  refine ⟨offset + 1 + bytesOf name + 1, ?_⟩
  rw [Markup.unescapeFrom, if_pos rfl, splitReference?_append h.inside]
  dsimp only
  rw [h.referenced]

theorem unescapeFrom_plain {c : Char} (h : c ≠ '&') (size offset : Nat) (rest : List Char) :
    ∃ offset', unescapeFrom size offset (c :: rest) = (unescapeFrom size offset' rest).map (c :: ·) := by
  refine ⟨offset + (Utf8.encodeChar c).length, ?_⟩
  rw [unescapeFrom, if_neg h]

theorem names_amp : Names ['a', 'm', 'p'] '&' := ⟨by simp, fun _ _ => rfl⟩

theorem names_lt : Names ['l', 't'] '<' := ⟨by simp, fun _ _ => rfl⟩

theorem names_gt : Names ['g', 't'] '>' := ⟨by simp, fun _ _ => rfl⟩

theorem names_quot : Names ['q', 'u', 'o', 't'] '"' := ⟨by simp, fun _ _ => rfl⟩

theorem names_newline : Names ['#', '1', '0'] '\n' := ⟨by simp, fun _ _ => rfl⟩

theorem names_return : Names ['#', '1', '3'] '\r' := ⟨by simp, fun _ _ => rfl⟩

theorem names_tab : Names ['#', '9'] '\t' := ⟨by simp, fun _ _ => rfl⟩

/-! ## Texts -/

theorem unescapeFrom_escapeTextChar (c : Char) (size offset : Nat) (rest : List Char) :
    ∃ offset', unescapeFrom size offset (escapeTextChar c ++ rest) =
      (unescapeFrom size offset' rest).map (c :: ·) := by
  unfold escapeTextChar
  split
  next h =>
    rw [h]
    exact names_amp.unescapeFrom size offset rest
  next hamp =>
    split
    next h =>
      rw [h]
      exact names_lt.unescapeFrom size offset rest
    split
    next h =>
      rw [h]
      exact names_gt.unescapeFrom size offset rest
    next => exact unescapeFrom_plain hamp size offset rest

theorem unescapeFrom_escapeAttributeChar (c : Char) (size offset : Nat) (rest : List Char) :
    ∃ offset', unescapeFrom size offset (escapeAttributeChar c ++ rest) =
      (unescapeFrom size offset' rest).map (c :: ·) := by
  unfold escapeAttributeChar
  split
  next h =>
    rw [h]
    exact names_quot.unescapeFrom size offset rest
  split
  next h =>
    rw [h]
    exact names_newline.unescapeFrom size offset rest
  split
  next h =>
    rw [h]
    exact names_return.unescapeFrom size offset rest
  split
  next h =>
    rw [h]
    exact names_tab.unescapeFrom size offset rest
  next => exact unescapeFrom_escapeTextChar c size offset rest

theorem unescape_flatMap {write : Char → List Char} (h : ∀ c size offset rest, ∃ offset',
    unescapeFrom size offset (write c ++ rest) = (unescapeFrom size offset' rest).map (c :: ·)) (s : List Char) :
    unescape (s.flatMap write) = .ok s := by
  have hfrom : ∀ size offset, unescapeFrom size offset (s.flatMap write) = .ok s := by
    induction s with
    | nil =>
      intro size offset
      rw [List.flatMap_nil, unescapeFrom]
    | cons c s ih =>
      intro size offset
      obtain ⟨offset', hc⟩ := h c size offset (s.flatMap write)
      rw [List.flatMap_cons, hc, ih]
      rfl
  exact hfrom _ 0

theorem unescape_escapeText (s : List Char) : unescape (escapeText s) = .ok s :=
  unescape_flatMap unescapeFrom_escapeTextChar s

theorem unescape_escapeAttribute (s : List Char) : unescape (escapeAttribute s) = .ok s :=
  unescape_flatMap unescapeFrom_escapeAttributeChar s

/-! ## What written text does not contain -/

theorem lt_notMem_escapeTextChar (c : Char) : '<' ∉ escapeTextChar c := by
  unfold escapeTextChar
  split
  · decide
  split
  · decide
  split
  · decide
  next h _ => exact fun hmem => h (List.mem_singleton.mp hmem).symm

theorem lt_notMem_escapeText (s : List Char) : '<' ∉ escapeText s := by
  intro h
  obtain ⟨c, -, hc⟩ := List.mem_flatMap.mp h
  exact lt_notMem_escapeTextChar c hc

theorem quote_notMem_escapeAttributeChar (c : Char) : '"' ∉ escapeAttributeChar c := by
  unfold escapeAttributeChar
  split
  · decide
  next hquote =>
    split
    · decide
    split
    · decide
    split
    · decide
    unfold escapeTextChar
    split
    · decide
    split
    · decide
    split
    · decide
    next => exact fun hmem => hquote (List.mem_singleton.mp hmem).symm

theorem quote_notMem_escapeAttribute (s : List Char) : '"' ∉ escapeAttribute s := by
  intro h
  obtain ⟨c, -, hc⟩ := List.mem_flatMap.mp h
  exact quote_notMem_escapeAttributeChar c hc

theorem escapeText_append (s t : List Char) : escapeText (s ++ t) = escapeText s ++ escapeText t := List.flatMap_append

end Spreadsheet.Markup
