import Spreadsheet.Proofs.Formula.Grammar
import Spreadsheet.Proofs.Formula.Tokens
import Spreadsheet.Proofs.Grid.Written
import Spreadsheet.Proofs.Number.Written

/-! # The words of formulas are read

Each reader of a word takes exactly what the grammar allows: what has been read is such a word, and such a word is read
whole when what follows does not go on with it.

* `Apart`: a text that goes on with no word before it.
* `isReference_of_reference`, `reference_isReference`: a reference with any sheet.
* `isNumeral_of_number?`, `number?_isNumeral`: a numeral. -/

set_option autoImplicit false

namespace Spreadsheet.Formula

open Grid Text

/-! ## Blanks -/

theorem areBlanks_nil : AreBlanks [] := fun _ h => by cases h

theorem AreBlanks.append {b c : List Char} (hb : AreBlanks b) (hc : AreBlanks c) : AreBlanks (b ++ c) :=
  fun d hd => (List.mem_append.mp hd).elim (hb d) (hc d)

theorem exists_blanks (s : List Char) : ∃ b, AreBlanks b ∧ s = b ++ skipBlanks s :=
  ⟨s.takeWhile isBlank, fun _ hc => mem_takeWhile_pos hc, List.takeWhile_append_dropWhile.symm⟩

theorem skipBlanks_append {b : List Char} (hb : AreBlanks b) (s : List Char) : skipBlanks (b ++ s) = skipBlanks s :=
  List.dropWhile_append_of_pos hb

theorem eat?_blanks {b : List Char} (hb : AreBlanks b) (token : String) (s : List Char) :
    eat? token (b ++ s) = eat? token s := by
  rw [eat?, skipBlanks_append hb, eat?]

theorem eq_append_of_afterToken? {w s rest : List Char} (h : afterToken? w s = some rest) : s = w ++ rest := by
  induction w generalizing s with
  | nil =>
    cases h
    rfl
  | cons c w ih =>
    cases s with
    | nil => cases h
    | cons d s =>
      rw [afterToken?] at h
      split at h
      next heq => rw [heq, ih h, List.cons_append]
      next => cases h

theorem exists_of_eat? {token : String} {s rest : List Char} (h : eat? token s = some rest) :
    ∃ b, AreBlanks b ∧ s = b ++ (token.toList ++ rest) := by
  obtain ⟨b, hb, hs⟩ := exists_blanks s
  exact ⟨b, hb, by rw [← eq_append_of_afterToken? h, ← hs]⟩

/-! ## Quoted texts -/

theorem doubled_cons_of_ne {mark c : Char} (h : c ≠ mark) (s : List Char) :
    doubled mark (c :: s) = c :: doubled mark s := by
  rw [doubled, List.flatMap_cons, if_neg h]
  rfl

theorem doubled_cons_self (mark : Char) (s : List Char) : doubled mark (mark :: s) = mark :: mark :: doubled mark s := by
  rw [doubled, List.flatMap_cons, if_pos rfl]
  rfl

theorem eq_doubled_of_quoted? {mark : Char} {s body rest : List Char} (h : quoted? mark s = some (body, rest)) :
    s = doubled mark body ++ mark :: rest := by
  fun_induction quoted? mark s generalizing body with
  | case1 => cases h
  | case2 => cases h; rfl
  | case3 => cases h
  | case4 s ih =>
    obtain ⟨⟨inner, r⟩, hr, heq⟩ := Option.map_eq_some_iff.mp h
    cases heq
    rw [ih hr, doubled_cons_self, List.cons_append, List.cons_append]
  | case5 d s hd => cases h; rfl
  | case6 c d s hc ih =>
    obtain ⟨⟨inner, r⟩, hr, heq⟩ := Option.map_eq_some_iff.mp h
    cases heq
    rw [ih hr, doubled_cons_of_ne hc, List.cons_append]

/-! ## What may follow a word -/

/-- A text that goes on with no word before it. An exclamation mark makes a sheet's name of what stands before it,
unless it belongs to the operator `!=`. -/
structure Apart (t : List Char) : Prop where
  name : Halts isNameChar t
  paren : Halts (· == '(') t
  quote : Halts (· == '"') t
  anchor : Halts (· == '$') t
  bang : ∀ s, t = '!' :: s → ∃ u, s = '=' :: u

theorem Halts.imp {p q : Char → Bool} {t : List Char} (h : Halts q t) (hpq : ∀ c, p c = true → q c = true) :
    Halts p t := by
  refine h.mono fun c hc => ?_
  cases hp : p c with
  | false => rfl
  | true =>
    rw [hpq c hp] at hc
    cases hc

theorem apart_cons {c : Char} {t : List Char} (hname : isNameChar c = false)
    (hc : c ≠ '(' ∧ c ≠ '"' ∧ c ≠ '$' ∧ c ≠ '!') : Apart (c :: t) :=
  ⟨halts_cons hname, halts_cons (beq_eq_false_iff_ne.mpr hc.1), halts_cons (beq_eq_false_iff_ne.mpr hc.2.1),
    halts_cons (beq_eq_false_iff_ne.mpr hc.2.2.1), fun _ h => absurd (List.cons.inj h).1 hc.2.2.2⟩

theorem isNameChar_eq_false_of_isBlank {c : Char} (h : isBlank c = true) : isNameChar c = false := by
  cases hname : isNameChar c with
  | false => rfl
  | true =>
    rw [isBlank_eq_false_of_isNameChar hname] at h
    cases h

theorem apart_blanks {b t : List Char} (hb : AreBlanks b) (ht : Apart t) : Apart (b ++ t) := by
  cases b with
  | nil => exact ht
  | cons c b =>
    have hblank := hb c (List.mem_cons_self ..)
    refine apart_cons (isNameChar_eq_false_of_isBlank hblank) ⟨?_, ?_, ?_, ?_⟩
    all_goals
      rintro rfl
      revert hblank
      decide

/-! ## Addresses -/

theorem isAddress_of_addressAfter {start s rest : List Char} {sheet : Option String} {r : Reference}
    (h : addressAfter start sheet s = .ok (some (r, rest))) :
    r.1 = sheet ∧ ∃ w, s = w ++ rest ∧ IsAddress w r.2 := by
  have hcolumn := Address.eq_anchorMark_append s
  have hrow := Address.eq_anchorMark_append ((Address.splitAnchor s).2.dropWhile isLetter)
  unfold addressAfter at h
  dsimp only at h
  split at h
  · split at h
    · cases h
    · cases h
  next =>
    split at h
    next a ha =>
      cases h
      obtain ⟨hanchored, hrowAnchored, hletters, hall, hvalue, hdigits, hdigit, hnumber, hgrid⟩ := Address.ofParts?_eq_some.mp ha
      refine ⟨rfl, _, ?_, .mk hall hletters hdigit hdigits hvalue hnumber hgrid⟩
      simp only [hanchored, hrowAnchored, List.append_assoc]
      rw [List.takeWhile_append_dropWhile, ← hrow, List.takeWhile_append_dropWhile, ← hcolumn]
    next => cases h

theorem addressAfter_isAddress {w t : List Char} {a : Address} (h : IsAddress w a) (start : List Char)
    (sheet : Option String) (ht : Halts Numeral.isDigit t) :
    addressAfter start sheet (w ++ t) = .ok (some ((sheet, a), t)) := by
  obtain @⟨letters, digits, _, hletters, hcolumn, hdigits, hrow, hletter, hdigit, hgrid⟩ := h
  have hshape : Address.anchorMark a.columnAnchored ++ letters ++ (Address.anchorMark a.rowAnchored ++ digits) ++ t =
      Address.anchorMark a.columnAnchored ++ (letters ++ (Address.anchorMark a.rowAnchored ++ (digits ++ t))) := by
    simp only [List.append_assoc]
  have hcolumnMark : Halts (· == '$') (letters ++ (Address.anchorMark a.rowAnchored ++ (digits ++ t))) := by
    refine halts_word hcolumn (fun c hc => ?_) _
    have hl := hletters c hc
    simp only [beq_eq_false_iff_ne]
    rintro rfl
    revert hl; decide
  have hrowMark : Halts (· == '$') (digits ++ t) := by
    refine halts_word hrow (fun c hc => ?_) _
    have hd := hdigits c hc
    simp only [beq_eq_false_iff_ne]
    rintro rfl
    revert hd; decide
  have hrowPart : Halts isLetter (Address.anchorMark a.rowAnchored ++ (digits ++ t)) := by
    cases a.rowAnchored with
    | true => exact halts_cons (by decide)
    | false => exact halts_word hrow (fun c hc => not_isLetter_of_isDigit (hdigits c hc)) t
  have hparts := Address.ofParts?_eq_some.mpr ⟨rfl, rfl, hcolumn, hletters, hletter, hrow, hdigits, hdigit, hgrid⟩
  unfold addressAfter
  rw [hshape, Address.splitAnchor_anchorMark _ hcolumnMark]
  dsimp only
  rw [takeWhile_run hletters hrowPart, dropWhile_run hletters hrowPart, Address.splitAnchor_anchorMark _ hrowMark]
  dsimp only
  rw [takeWhile_run hdigits ht, dropWhile_run hdigits ht, List.isEmpty_eq_false_iff.mpr hcolumn,
    List.isEmpty_eq_false_iff.mpr hrow, hparts]
  rfl

/-! ## References -/

theorem exists_of_plainSheet? {s name rest : List Char} (h : plainSheet? s = some (name, rest)) :
    isPlainSheet name = true ∧ s = name ++ '!' :: rest := by
  unfold plainSheet? at h
  split at h
  next hstart =>
    split at h
    next => cases h
    next heq =>
      cases h
      have hsplit : s = s.takeWhile isNameChar ++ '!' :: rest := by
        rw [← heq, List.takeWhile_append_dropWhile]
      refine ⟨?_, hsplit⟩
      have hhead : (s.takeWhile isNameChar).head? = s.head? := by
        rw [List.head?_takeWhile]
        cases s with
        | nil => rfl
        | cons c s =>
          have hname : isNameChar c = true := by
            have hstart : isNameStart c = true := hstart
            rw [isNameStart, Bool.or_eq_true] at hstart
            rw [isNameChar, Char.isAlphanum]
            obtain hc | hc := hstart <;> simp [hc]
          simp [hname]
      rw [isPlainSheet, hhead, hstart, Bool.true_and, List.all_eq_true]
      exact fun c hc => mem_takeWhile_pos hc
    next => cases h
  next => cases h

theorem isReference_of_reference {s rest : List Char} {r : Reference} (h : reference s = .ok (some (r, rest))) :
    ∃ b w, AreBlanks b ∧ s = b ++ (w ++ rest) ∧ IsReference w r.1 r.2 := by
  obtain ⟨b, hb, hs⟩ := exists_blanks s
  suffices hword : ∃ w, skipBlanks s = w ++ rest ∧ IsReference w r.1 r.2 by
    obtain ⟨w, hw, hreference⟩ := hword
    exact ⟨b, w, hb, by rw [← hw, ← hs], hreference⟩
  unfold reference at h
  split at h
  next body heq =>
    split at h
    next name after hquoted =>
      obtain ⟨hsheet, w, rfl, haddress⟩ := isAddress_of_addressAfter h
      refine ⟨'\'' :: doubled '\'' name ++ ['\'', '!'] ++ w, ?_, hsheet ▸ .mk ?_ haddress⟩
      · rw [heq, eq_doubled_of_quoted? hquoted]
        simp only [List.cons_append, List.append_assoc, List.nil_append]
      · have hqualifier := IsQualifier.quoted (String.ofList name)
        rwa [String.toList_ofList] at hqualifier
    next => cases h
  next =>
    split at h
    next name after hplain =>
      obtain ⟨hsheet, w, rfl, haddress⟩ := isAddress_of_addressAfter h
      obtain ⟨hname, hskip⟩ := exists_of_plainSheet? hplain
      refine ⟨name ++ ['!'] ++ w, ?_, hsheet ▸ .mk ?_ haddress⟩
      · rw [hskip]
        simp only [List.append_assoc, List.cons_append, List.nil_append]
      · have hqualifier : IsQualifier ((String.ofList name).toList ++ ['!']) (some (String.ofList name)) :=
          .plain (by rw [String.toList_ofList]; exact hname)
        rwa [String.toList_ofList] at hqualifier
    next =>
      obtain ⟨hsheet, w, hskip, haddress⟩ := isAddress_of_addressAfter h
      exact ⟨[] ++ w, hskip, hsheet ▸ .mk .none haddress⟩

/-- A character that stops a run and does not stand in a word is the first one after the word. -/
theorem eq_of_dropWhile_append {p : Char → Bool} {w t rest : List Char} {c : Char} (hw : c ∉ w) (ht : Halts p t)
    (h : (w ++ t).dropWhile p = c :: rest) : t = c :: rest := by
  rw [List.dropWhile_append] at h
  split at h
  next => rwa [ht.dropWhile] at h
  next hleft =>
    cases hdrop : w.dropWhile p with
    | nil => rw [hdrop] at hleft; exact absurd rfl hleft
    | cons d rest =>
      rw [hdrop] at h
      have hmem : d ∈ w := (List.dropWhile_sublist p).subset (by rw [hdrop]; exact List.mem_cons_self ..)
      rw [(List.cons.inj h).1] at hmem
      exact absurd hmem hw

theorem IsAddress.ne_nil {w : List Char} {a : Address} (h : IsAddress w a) : w ≠ [] := by
  obtain ⟨-, hcolumn, -, -, -, -, -⟩ := h
  exact fun heq => hcolumn (List.append_eq_nil_iff.mp (List.append_eq_nil_iff.mp heq).1).2

theorem IsAddress.mem {w : List Char} {a : Address} (h : IsAddress w a) {c : Char} (hc : c ∈ w) :
    c = '$' ∨ isNameChar c = true := by
  obtain ⟨hletters, -, hdigits, -, -, -, -⟩ := h
  have hmark : ∀ anchored, c ∈ Address.anchorMark anchored → c = '$' := by
    intro anchored hc
    cases anchored with
    | true => exact List.mem_singleton.mp hc
    | false => cases hc
  rw [List.mem_append, List.mem_append, List.mem_append] at hc
  obtain (hc | hc) | hc | hc := hc
  · exact .inl (hmark _ hc)
  · exact .inr (isNameChar_of_isLetter (hletters c hc))
  · exact .inl (hmark _ hc)
  · exact .inr (isNameChar_of_isDigit (hdigits c hc))

theorem IsAddress.notMem {w : List Char} {a : Address} (h : IsAddress w a) {c : Char} (hdollar : c ≠ '$')
    (hname : isNameChar c = false) : c ∉ w := by
  intro hc
  obtain hc | hc := h.mem hc
  · exact hdollar hc
  · rw [hname] at hc
    cases hc

theorem IsAddress.halts {w : List Char} {a : Address} (h : IsAddress w a) {p : Char → Bool} (hdollar : p '$' = false)
    (hname : ∀ c, isNameChar c = true → p c = false) (t : List Char) : Halts p (w ++ t) := by
  refine halts_word h.ne_nil (fun c hc => ?_) t
  obtain rfl | hc := h.mem hc
  · exact hdollar
  · exact hname c hc

theorem IsAddress.halts_beq {w : List Char} {a : Address} (h : IsAddress w a) {c : Char} (hdollar : c ≠ '$')
    (hname : isNameChar c = false) (t : List Char) : Halts (· == c) (w ++ t) := by
  have hmark : ('$' == c) = false := beq_eq_false_iff_ne.mpr hdollar.symm
  refine h.halts hmark (fun d hd => ?_) t
  simp only [beq_eq_false_iff_ne]
  rintro rfl
  rw [hname] at hd
  cases hd

theorem plainSheet?_eq_none {s : List Char} (h : ∀ rest, s.dropWhile isNameChar = '!' :: rest → ∃ u, rest = '=' :: u) :
    plainSheet? s = none := by
  unfold plainSheet?
  split
  next =>
    split
    next => rfl
    next hne heq =>
      obtain ⟨u, rfl⟩ := h _ heq
      exact absurd rfl (hne _)
    next => rfl
  next => rfl

theorem plainSheet?_plain {s : List Char} (h : isPlainSheet s = true) {t : List Char} (ht : Halts (· == '=') t) :
    plainSheet? (s ++ '!' :: t) = some (s, t) := by
  simp only [isPlainSheet, Bool.and_eq_true, List.all_eq_true] at h
  obtain ⟨hfirst, hall⟩ := h
  have hstop : Halts isNameChar ('!' :: t) := halts_cons (by decide)
  have hhead : (s ++ '!' :: t).head?.any isNameStart = true := by
    cases s with
    | nil => cases hfirst
    | cons c s => exact hfirst
  unfold plainSheet?
  rw [if_pos hhead, takeWhile_run hall hstop, dropWhile_run hall hstop]
  cases t with
  | nil => rfl
  | cons c t =>
    have hc : c ≠ '=' := by simpa using ht c rfl
    split
    next heq => exact absurd (List.cons.inj (List.cons.inj heq).2).1 hc
    next heq => rw [(List.cons.inj heq).2]
    next h1 h2 => exact absurd rfl (h2 _)

theorem reference_of_plain {s : List Char} (hblank : Halts isBlank s) (hquote : Halts (· == '\'') s) :
    reference s =
      match plainSheet? s with
      | some (name, rest) => addressAfter s (some (String.ofList name)) rest
      | none => addressAfter s none s := by
  unfold reference
  rw [skipBlanks_eq_self hblank]
  split
  next body =>
    have := hquote _ rfl
    exact absurd this (by decide)
  next => rfl

theorem reference_of_quote (body : List Char) :
    reference ('\'' :: body) =
      match quoted? '\'' body with
      | some (name, '!' :: rest) => addressAfter ('\'' :: body) (some (String.ofList name)) rest
      | _ => .error (.malformedAddress (excerpt ('\'' :: body))) := by
  unfold reference
  rw [skipBlanks_eq_self (halts_cons (by decide))]
  rfl

theorem reference_isReference {w t : List Char} {sheet : Option String} {a : Address} (h : IsReference w sheet a)
    (ht : Apart t) : reference (w ++ t) = .ok (some ((sheet, a), t)) := by
  obtain @⟨qualifier, address, _, _, hsheet, haddress⟩ := h
  have hdigit : Halts Numeral.isDigit t := Halts.imp ht.name fun c => isNameChar_of_isDigit
  cases hsheet with
  | none =>
    have hblank : Halts isBlank (address ++ t) :=
      haddress.halts (by decide) (fun c => isBlank_eq_false_of_isNameChar) t
    have hplain : plainSheet? (address ++ t) = none :=
      plainSheet?_eq_none fun rest hrest => ht.bang rest
        (eq_of_dropWhile_append (haddress.notMem (by decide) (by decide)) ht.name hrest)
    rw [List.nil_append, reference_of_plain hblank (haddress.halts_beq (by decide) (by decide) t), hplain]
    exact addressAfter_isAddress haddress _ none hdigit
  | plain hplain =>
    rename_i sheet
    have hshape : sheet.toList ++ ['!'] ++ address ++ t = sheet.toList ++ '!' :: (address ++ t) := by
      simp only [List.append_assoc, List.cons_append, List.nil_append]
    have hname : sheet.toList ≠ [] := by
      intro hnil
      rw [hnil] at hplain
      exact absurd hplain (by decide)
    have hall : ∀ c ∈ sheet.toList, isNameChar c = true := by
      simp only [isPlainSheet, Bool.and_eq_true, List.all_eq_true] at hplain
      exact hplain.2
    have hblank : Halts isBlank (sheet.toList ++ '!' :: (address ++ t)) :=
      halts_word hname (fun c hc => isBlank_eq_false_of_isNameChar (hall c hc)) _
    have hquote : Halts (· == '\'') (sheet.toList ++ '!' :: (address ++ t)) := by
      refine halts_word hname (fun c hc => ?_) _
      have hc := hall c hc
      simp only [beq_eq_false_iff_ne]
      rintro rfl
      revert hc; decide
    rw [hshape, reference_of_plain hblank hquote,
      plainSheet?_plain hplain (haddress.halts_beq (by decide) (by decide) t)]
    dsimp only
    rw [String.ofList_toList]
    exact addressAfter_isAddress haddress _ (some sheet) hdigit
  | quoted sheet =>
    have hmark : Halts (· == '\'') ('!' :: (address ++ t)) := halts_cons (by decide)
    have hshape : '\'' :: doubled '\'' sheet.toList ++ ['\'', '!'] ++ address ++ t =
        '\'' :: (doubled '\'' sheet.toList ++ '\'' :: '!' :: (address ++ t)) := by
      simp only [List.cons_append, List.append_assoc, List.nil_append]
    rw [hshape, reference_of_quote, quoted?_doubled _ hmark]
    simp only
    rw [String.ofList_toList]
    exact addressAfter_isAddress haddress _ (some sheet) hdigit

/-! ## Numbers -/

theorem areDigits_takeWhile (s : List Char) : AreDigits (s.takeWhile Numeral.isDigit) := fun _ => mem_takeWhile_pos

theorem splitExponent_of_halts {t : List Char} (h : Halts (fun c => c == 'e' || c == 'E') t) :
    splitExponent t = ([], t) := by
  cases t with
  | nil => rfl
  | cons c t =>
    have hc := h c rfl
    simp only [Bool.or_eq_false_iff, beq_eq_false_iff_ne] at hc
    rw [splitExponent, if_neg]
    rintro ⟨he, -⟩
    exact he.elim hc.1 hc.2

theorem splitFraction_of_halts {t : List Char} (h : Halts (· == '.') t) : splitFraction t = ([], t) := by
  unfold splitFraction
  split
  next => exact absurd (h _ rfl) (by decide)
  next => rfl

theorem exists_signedDigits (s : List Char) : ∃ sign digits, (signedDigits s).1 = sign ++ digits ∧
    (sign = [] ∨ sign = ['+'] ∨ sign = ['-']) ∧ AreDigits digits ∧ s = sign ++ digits ++ (signedDigits s).2 := by
  unfold signedDigits
  split
  next t => exact ⟨['+'], _, rfl, .inr (.inl rfl), areDigits_takeWhile t, by simp⟩
  next t => exact ⟨['-'], _, rfl, .inr (.inr rfl), areDigits_takeWhile t, by simp⟩
  next t _ _ => exact ⟨[], _, rfl, .inl rfl, areDigits_takeWhile _, by simp⟩

theorem isExponent_splitExponent (s : List Char) :
    IsExponent (splitExponent s).1 ∧ s = (splitExponent s).1 ++ (splitExponent s).2 := by
  unfold splitExponent
  split
  next mark t =>
    split
    next h =>
      obtain ⟨sign, digits, hfirst, hsign, hdigits, ht⟩ := exists_signedDigits t
      have hne : digits ≠ [] := by
        rintro rfl
        rw [hfirst, List.append_nil] at h
        obtain rfl | rfl | rfl := hsign
        all_goals exact absurd h.2 (by decide)
      refine ⟨?_, ?_⟩
      · rw [hfirst]
        exact .some h.1 hsign hdigits hne
      · rw [hfirst, List.cons_append, ← ht]
    next => exact ⟨.none, rfl⟩
  next => exact ⟨.none, rfl⟩

theorem exists_splitFraction (s : List Char) : s = (splitFraction s).1 ++ (splitFraction s).2 ∧
    ((splitFraction s).1 = [] ∨ ∃ part, (splitFraction s).1 = '.' :: part ∧ AreDigits part) := by
  unfold splitFraction
  split
  next t => exact ⟨by simp, .inr ⟨_, rfl, areDigits_takeWhile t⟩⟩
  next => exact ⟨rfl, .inl rfl⟩

theorem readDigits?_of_areDigits {s : List Char} (hs : AreDigits s) (hne : s ≠ []) :
    Numeral.readDigits? s = some (Numeral.valueFrom 0 s) := by
  rw [Numeral.readDigits?, List.isEmpty_eq_false_iff.mpr hne, List.all_eq_true.mpr hs]
  rfl

theorem exists_readExponent? {e : List Char} (h : IsExponent e) : ∃ n, Number.readExponent? e = some n := by
  cases h with
  | none => exact ⟨0, rfl⟩
  | @some mark sign digits hmark hsign hdigits hne =>
    have hread := readDigits?_of_areDigits hdigits hne
    unfold Number.readExponent?
    simp only [if_pos hmark]
    obtain rfl | rfl | rfl := hsign
    · rw [List.nil_append]
      split
      next => exact absurd (hdigits '+' (List.mem_cons_self ..)) (by decide)
      next => exact absurd (hdigits '-' (List.mem_cons_self ..)) (by decide)
      next => exact ⟨_, by rw [hread]; rfl⟩
    · exact ⟨_, by simp only [List.cons_append, List.nil_append, hread]; rfl⟩
    · exact ⟨_, by simp only [List.cons_append, List.nil_append, hread]; rfl⟩

theorem IsExponent.halts {e : List Char} (h : IsExponent e) {p : Char → Bool} (he : p 'e' = false) (hE : p 'E' = false)
    {t : List Char} (ht : Halts p t) : Halts p (e ++ t) := by
  cases h with
  | none => exact ht
  | some hmark =>
    obtain rfl | rfl := hmark
    · exact halts_cons he
    · exact halts_cons hE

theorem IsExponent.halts_self {e : List Char} (h : IsExponent e) {p : Char → Bool} (he : p 'e' = false)
    (hE : p 'E' = false) : Halts p e := by
  have hend := h.halts he hE (halts_nil p)
  rwa [List.append_nil] at hend

theorem readDecimal?_whole {digits e : List Char} (hdigits : AreDigits digits) (he : IsExponent e) :
    Number.readDecimal? (digits ++ e) =
      if digits.isEmpty then none else (Number.readExponent? e).map (Number.nearest digits) := by
  have hstop : Halts Numeral.isDigit e := he.halts_self (by decide) (by decide)
  have hpoint : Halts (· == '.') e := he.halts_self (by decide) (by decide)
  unfold Number.readDecimal?
  rw [takeWhile_run hdigits hstop, dropWhile_run hdigits hstop]
  dsimp only
  split
  next => exact absurd (hpoint _ rfl) (by decide)
  next =>
    rw [List.isEmpty_nil, Bool.and_true]
    simp

theorem readDecimal?_fraction {digits part e : List Char} (hdigits : AreDigits digits) (hpart : AreDigits part)
    (he : IsExponent e) :
    Number.readDecimal? (digits ++ '.' :: (part ++ e)) =
      if digits.isEmpty && part.isEmpty then none
      else (Number.readExponent? e).map fun n => Number.nearest (digits ++ part) (n - part.length) := by
  have hstop : Halts Numeral.isDigit e := he.halts_self (by decide) (by decide)
  have hpoint : Halts Numeral.isDigit ('.' :: (part ++ e)) := halts_cons (by decide)
  unfold Number.readDecimal?
  rw [takeWhile_run hdigits hpoint, dropWhile_run hdigits hpoint]
  simp only [takeWhile_run hpart hstop, dropWhile_run hpart hstop]

def plainChars : List Char := ['.', '0', '1', '2', '3', '4', '5', '6', '7', '8', '9']

theorem mem_plainChars {c : Char} (h : Number.isPlainChar c = true) : c ∈ plainChars := by
  have hrange : 0x2E ≤ c.toNat ∧ c.toNat ≤ 0x39 ∧ c.toNat ≠ 0x2F := by
    simp only [Number.isPlainChar, Numeral.isDigit, Bool.or_eq_true, Bool.and_eq_true, decide_eq_true_eq,
      beq_iff_eq] at h
    obtain ⟨hlow, hhigh⟩ | rfl := h
    · have hlow : 0x30 ≤ c.toNat := hlow
      have hhigh : c.toNat ≤ 0x39 := hhigh
      omega
    · decide
  have hofNat : c = Char.ofNat c.toNat := (Char.ofNat_toNat c).symm
  have hcases : c.toNat = 0x2E ∨ ∃ n, n < 10 ∧ c.toNat = 0x30 + n := by
    by_cases hpoint : c.toNat = 0x2E
    · exact .inl hpoint
    · exact .inr ⟨c.toNat - 0x30, by omega, by omega⟩
  have hdigit : ∀ n < 10, Char.ofNat (0x30 + n) ∈ plainChars := by decide
  obtain hpoint | ⟨n, hn, heq⟩ := hcases
  · rw [hofNat, hpoint]
    decide
  · rw [hofNat, heq]
    exact hdigit n hn

theorem IsNumeral.begins {w : List Char} (h : IsNumeral w) : ∃ c u, w = c :: u ∧ Number.isPlainChar c = true := by
  have hfirst : ∀ {digits : List Char}, AreDigits digits → digits ≠ [] → ∀ u, ∃ c v, digits ++ u = c :: v ∧
      Number.isPlainChar c = true := by
    intro digits hdigits hne u
    obtain ⟨c, v, rfl⟩ := List.exists_cons_of_ne_nil hne
    exact ⟨c, v ++ u, rfl, Number.isPlainChar_of_isDigit (hdigits c (List.mem_cons_self ..))⟩
  cases h with
  | whole hdigits hne hexponent => exact hfirst hdigits hne _
  | @fraction digits part exponent hdigits =>
    by_cases hne : digits = []
    · subst hne
      exact ⟨'.', _, rfl, by decide⟩
    · exact hfirst hdigits hne _

theorem read?_of_isNumeral {w : List Char} (h : IsNumeral w) : Number.read? w = Number.readDecimal? w := by
  obtain ⟨c, u, rfl, hc⟩ := h.begins
  exact Number.read?_cons_eq_readDecimal? hc u

theorem exists_read?_of_isNumeral {w : List Char} (h : IsNumeral w) : ∃ x, Number.read? w = some x := by
  rw [read?_of_isNumeral h]
  cases h with
  | whole hdigits hne hexponent =>
    obtain ⟨n, hn⟩ := exists_readExponent? hexponent
    exact ⟨_, by rw [readDecimal?_whole hdigits hexponent, List.isEmpty_eq_false_iff.mpr hne, hn]; rfl⟩
  | @fraction digits part exponent hdigits hpart hne hexponent =>
    obtain ⟨n, hn⟩ := exists_readExponent? hexponent
    have hsome : (digits.isEmpty && part.isEmpty) = false := by
      obtain hne | hne := hne
      · rw [List.isEmpty_eq_false_iff.mpr hne, Bool.false_and]
      · rw [List.isEmpty_eq_false_iff.mpr hne, Bool.and_false]
    exact ⟨_, by rw [readDecimal?_fraction hdigits hpart hexponent, hsome, hn]; rfl⟩

theorem number?_eq (s : List Char) : number? s =
    (Number.readDecimal? (s.takeWhile Numeral.isDigit ++ (splitFraction (s.dropWhile Numeral.isDigit)).1 ++
      (splitExponent (splitFraction (s.dropWhile Numeral.isDigit)).2).1)).map fun x =>
        (x, (splitExponent (splitFraction (s.dropWhile Numeral.isDigit)).2).2) := rfl

theorem isNumeral_of_number? {s rest : List Char} {x : Float} (h : number? s = some (x, rest)) :
    ∃ w, s = w ++ rest ∧ IsNumeral w ∧ Number.read? w = some x := by
  obtain ⟨hfraction, hpoint⟩ := exists_splitFraction (s.dropWhile Numeral.isDigit)
  obtain ⟨hexponent, hrest⟩ := isExponent_splitExponent (splitFraction (s.dropWhile Numeral.isDigit)).2
  have hdigits := areDigits_takeWhile s
  rw [number?_eq] at h
  obtain ⟨y, hy, heq⟩ := Option.map_eq_some_iff.mp h
  obtain ⟨rfl, rfl⟩ := Prod.mk.inj heq
  have hshape : s = s.takeWhile Numeral.isDigit ++ (splitFraction (s.dropWhile Numeral.isDigit)).1 ++
      (splitExponent (splitFraction (s.dropWhile Numeral.isDigit)).2).1 ++
        (splitExponent (splitFraction (s.dropWhile Numeral.isDigit)).2).2 := by
    rw [List.append_assoc, ← hrest, List.append_assoc, ← hfraction, List.takeWhile_append_dropWhile]
  refine ⟨_, hshape, ?_⟩
  generalize (splitExponent (splitFraction (s.dropWhile Numeral.isDigit)).2).1 = e at hexponent hy
  generalize s.takeWhile Numeral.isDigit = digits at hdigits hy
  suffices hnumeral : IsNumeral (digits ++ (splitFraction (s.dropWhile Numeral.isDigit)).1 ++ e) from
    ⟨hnumeral, by rw [read?_of_isNumeral hnumeral]; exact hy⟩
  obtain hnone | ⟨part, hsome, hpart⟩ := hpoint
  · rw [hnone, List.append_nil] at hy ⊢
    rw [readDecimal?_whole hdigits hexponent] at hy
    split at hy
    · cases hy
    next hne => exact .whole hdigits (fun h => hne (List.isEmpty_iff.mpr h)) hexponent
  · rw [hsome, List.append_assoc, List.cons_append] at hy ⊢
    rw [readDecimal?_fraction hdigits hpart hexponent] at hy
    split at hy
    · cases hy
    next hne =>
      refine .fraction hdigits hpart ?_ hexponent
      rw [Bool.and_eq_true, List.isEmpty_iff, List.isEmpty_iff] at hne
      exact Decidable.not_and_iff_not_or_not.mp hne

theorem splitExponent_isExponent {e t : List Char} (he : IsExponent e) (ht : Halts isNameChar t) :
    splitExponent (e ++ t) = (e, t) := by
  have hdigit : Halts Numeral.isDigit t := Halts.imp ht fun c => isNameChar_of_isDigit
  cases he with
  | none =>
    refine splitExponent_of_halts (Halts.imp ht fun c hc => ?_)
    simp only [Bool.or_eq_true, beq_iff_eq] at hc
    obtain rfl | rfl := hc <;> decide
  | @some mark sign digits hmark hsign hdigits hne =>
    obtain ⟨d, digits', rfl⟩ := List.exists_cons_of_ne_nil hne
    have hd := hdigits d (List.mem_cons_self ..)
    have hsplit : signedDigits (sign ++ (d :: digits') ++ t) = (sign ++ d :: digits', t) := by
      obtain rfl | rfl | rfl := hsign
      · unfold signedDigits
        split
        next heq => cases heq; exact absurd hd (by decide)
        next heq => cases heq; exact absurd hd (by decide)
        next => rw [List.nil_append, takeWhile_run hdigits hdigit, dropWhile_run hdigits hdigit]
      · rw [List.append_assoc, List.singleton_append, signedDigits, takeWhile_run hdigits hdigit,
          dropWhile_run hdigits hdigit, List.singleton_append]
      · rw [List.append_assoc, List.singleton_append, signedDigits, takeWhile_run hdigits hdigit,
          dropWhile_run hdigits hdigit, List.singleton_append]
    have hany : (sign ++ d :: digits').any Numeral.isDigit = true := by
      rw [List.any_append, List.any_cons, hd, Bool.true_or, Bool.or_true]
    rw [List.cons_append, splitExponent, hsplit, if_pos ⟨hmark, hany⟩]

theorem number?_isNumeral {w t : List Char} {x : Float} (h : IsNumeral w) (hx : Number.read? w = some x)
    (ht : Halts isNameChar t) : number? (w ++ t) = some (x, t) := by
  have hdigit : Halts Numeral.isDigit t := Halts.imp ht fun c => isNameChar_of_isDigit
  have hpoint : Halts (· == '.') t := Halts.imp ht fun c hc => by rw [eq_of_beq hc]; decide
  rw [read?_of_isNumeral h] at hx
  cases h with
  | @whole digits exponent hdigits hne hexponent =>
    have hstop : Halts Numeral.isDigit (exponent ++ t) := hexponent.halts (by decide) (by decide) hdigit
    rw [number?, List.append_assoc, takeWhile_run hdigits hstop, dropWhile_run hdigits hstop,
      splitFraction_of_halts (hexponent.halts (by decide) (by decide) hpoint)]
    dsimp only
    rw [splitExponent_isExponent hexponent ht]
    dsimp only
    rw [List.append_nil, hx]
    rfl
  | @fraction digits part exponent hdigits hpart hne hexponent =>
    have hstop : Halts Numeral.isDigit (exponent ++ t) := hexponent.halts (by decide) (by decide) hdigit
    have hbefore : Halts Numeral.isDigit ('.' :: (part ++ (exponent ++ t))) := halts_cons (by decide)
    have hfraction : splitFraction ('.' :: (part ++ (exponent ++ t))) = ('.' :: part, exponent ++ t) := by
      rw [splitFraction, takeWhile_run hpart hstop, dropWhile_run hpart hstop]
    have hshape : digits ++ '.' :: (part ++ exponent) ++ t = digits ++ '.' :: (part ++ (exponent ++ t)) := by
      simp only [List.append_assoc, List.cons_append]
    rw [number?, hshape, takeWhile_run hdigits hbefore, dropWhile_run hdigits hbefore, hfraction]
    dsimp only
    rw [splitExponent_isExponent hexponent ht]
    dsimp only
    rw [List.append_assoc, List.cons_append, hx]
    rfl

/-! ## Names of functions -/

/-- A word without a parenthesis, before a text that does not begin with one, is no call. -/
theorem callName?_eq_none {w t : List Char} (hw : '(' ∉ w) (ht : Halts isFunctionChar t) (hparen : Halts (· == '(') t) :
    callName? (w ++ t) = none := by
  unfold callName?
  split
  next =>
    split
    next heq =>
      rw [eq_of_dropWhile_append hw ht heq] at hparen
      exact absurd (hparen _ rfl) (by decide)
    next => rfl
  next => rfl

theorem callName?_of_halts {s : List Char} (h : Halts isFunctionStart s) : callName? s = none := by
  unfold callName?
  rw [if_neg]
  cases s with
  | nil => simp
  | cons c s => simp [h c rfl]

theorem isFunctionName_ne_nil {name : String} (h : isFunctionName name = true) : name.toList ≠ [] := by
  intro hnil
  rw [isFunctionName, hnil] at h
  cases h

theorem isFunctionChar_of_mem {name : String} (h : isFunctionName name = true) {c : Char} (hc : c ∈ name.toList) :
    isFunctionChar c = true := by
  simp only [isFunctionName, Bool.and_eq_true, List.all_eq_true] at h
  exact h.2 c hc

theorem callName?_isFunctionName {name : String} (h : isFunctionName name = true) (s : List Char) :
    callName? (name.toList ++ '(' :: s) = some (name.toList, s) := by
  have hall : ∀ c ∈ name.toList, isFunctionChar c = true := fun c hc => isFunctionChar_of_mem h hc
  have hstop : Halts isFunctionChar ('(' :: s) := halts_cons (by decide)
  have hfirst : (name.toList ++ '(' :: s).head?.any isFunctionStart = true := by
    simp only [isFunctionName, Bool.and_eq_true] at h
    cases hlist : name.toList with
    | nil => rw [hlist] at h; cases h.1
    | cons c w => rw [hlist] at h; exact h.1
  rw [callName?, if_pos hfirst, takeWhile_run hall hstop, dropWhile_run hall hstop]
  rfl

theorem isFunctionName_of_callName? {s name rest : List Char} (h : callName? s = some (name, rest)) :
    isFunctionName (String.ofList name) = true ∧ s = name ++ '(' :: rest := by
  unfold callName? at h
  split at h
  next hstart =>
    split at h
    next heq =>
      cases h
      refine ⟨?_, by rw [← heq, List.takeWhile_append_dropWhile]⟩
      have hhead : (s.takeWhile isFunctionChar).head?.any isFunctionStart = true := by
        cases s with
        | nil => cases hstart
        | cons c s =>
          have hc : isFunctionStart c = true := hstart
          have hinside : isFunctionChar c = true := by
            rw [isFunctionStart, Bool.or_eq_true] at hc
            rw [isFunctionChar]
            obtain hc | hc := hc <;> simp [hc]
          rw [List.takeWhile_cons_of_pos hinside]
          exact hc
      rw [isFunctionName, String.toList_ofList, hhead, Bool.true_and, List.all_eq_true]
      exact fun c hc => mem_takeWhile_pos hc
    next => cases h
  next => cases h

/-! ## Truth values -/

theorem truth?_eq_none {s : List Char} (h : Halts (fun c => c == 'T' || c == 'F') s) : truth? s = none := by
  have hword : ∀ c w, (c == 'T' || c == 'F') = true → s.takeWhile isNameChar ≠ c :: w := by
    intro c w hc heq
    cases s with
    | nil => cases heq
    | cons d s =>
      have hd := h d rfl
      rw [List.takeWhile_cons] at heq
      split at heq
      · rw [(List.cons.inj heq).1] at hd
        exact absurd (hc.symm.trans hd) (by decide)
      · cases heq
  unfold truth?
  dsimp only
  rw [if_neg (show ¬s.takeWhile isNameChar = "TRUE".toList from hword 'T' _ rfl),
    if_neg (show ¬s.takeWhile isNameChar = "FALSE".toList from hword 'F' _ rfl)]

theorem eq_truthChars_of_truth? {s rest : List Char} {b : Bool} (h : truth? s = some (b, rest)) :
    s = truthChars b ++ rest := by
  have hsplit : s = s.takeWhile isNameChar ++ s.dropWhile isNameChar := List.takeWhile_append_dropWhile.symm
  unfold truth? at h
  dsimp only at h
  split at h
  next heq =>
    cases h
    rw [heq] at hsplit
    exact hsplit
  next =>
    split at h
    next heq =>
      cases h
      rw [heq] at hsplit
      exact hsplit
    next => cases h

theorem isLetter_of_mem_truthChars {b : Bool} {c : Char} (h : c ∈ truthChars b) : isLetter c = true := by
  have hall : ∀ b, ∀ c ∈ truthChars b, isLetter c = true := by
    intro b
    cases b <;> decide
  exact hall b c h

theorem truthChars_ne_nil (b : Bool) : truthChars b ≠ [] := by cases b <;> decide

theorem truth?_truthChars (b : Bool) {t : List Char} (ht : Halts isNameChar t) : truth? (truthChars b ++ t) = some (b, t) := by
  have hname : ∀ c ∈ truthChars b, isNameChar c = true :=
    fun c hc => isNameChar_of_isLetter (isLetter_of_mem_truthChars hc)
  rw [truth?, takeWhile_run hname ht, dropWhile_run hname ht]
  cases b <;> rfl

/-! ## Words that are no references -/

theorem reference_eq_none {s : List Char} (hblank : Halts isBlank s) (hquote : Halts (· == '\'') s)
    (hname : Halts isNameStart s) (hletter : Halts isLetter s) (hdollar : Halts (· == '$') s) :
    reference s = .ok none := by
  have hsplit : Address.splitAnchor s = (false, s) := Address.splitAnchor_anchorMark false hdollar
  have hsheet : plainSheet? s = none := by
    unfold plainSheet?
    rw [if_neg]
    cases s with
    | nil => simp
    | cons c s => simp [hname c rfl]
  rw [reference_of_plain hblank hquote, hsheet]
  dsimp only
  rw [addressAfter, hsplit]
  dsimp only
  rw [hletter.dropWhile, hletter.takeWhile, hsplit]
  rfl

theorem reference_truthChars (b : Bool) {t : List Char} (ht : Apart t) :
    reference (truthChars b ++ t) = .ok none := by
  have hletters : ∀ c ∈ truthChars b, isLetter c = true := fun c hc => isLetter_of_mem_truthChars hc
  have hfirst : ∀ {p : Char → Bool}, (∀ c, isLetter c = true → p c = false) → Halts p (truthChars b ++ t) :=
    fun hp => halts_word (truthChars_ne_nil b) (fun c hc => hp c (hletters c hc)) t
  have hother : ∀ {d : Char}, isLetter d = false → Halts (· == d) (truthChars b ++ t) := by
    intro d hd
    refine hfirst fun c hc => ?_
    simp only [beq_eq_false_iff_ne]
    rintro rfl
    rw [hd] at hc
    cases hc
  have hblank : Halts isBlank (truthChars b ++ t) :=
    hfirst fun c hc => isBlank_eq_false_of_isNameChar (isNameChar_of_isLetter hc)
  have hsheet : plainSheet? (truthChars b ++ t) = none :=
    plainSheet?_eq_none fun rest hrest =>
      ht.bang rest (eq_of_dropWhile_append (fun h => absurd (hletters _ h) (by decide)) ht.name hrest)
  have hsplit : ∀ s, Halts (· == '$') s → Address.splitAnchor s = (false, s) :=
    fun s hs => Address.splitAnchor_anchorMark false hs
  have hletter : Halts isLetter t := Halts.imp ht.name fun c => isNameChar_of_isLetter
  have hdigit : Halts Numeral.isDigit t := Halts.imp ht.name fun c => isNameChar_of_isDigit
  rw [reference_of_plain hblank (hother (by decide)), hsheet]
  dsimp only
  rw [addressAfter, hsplit _ (hother (by decide))]
  dsimp only
  rw [takeWhile_run hletters hletter, dropWhile_run hletters hletter, hsplit t ht.anchor]
  dsimp only
  rw [hdigit.takeWhile, if_pos (by simp)]
  rfl

end Spreadsheet.Formula
