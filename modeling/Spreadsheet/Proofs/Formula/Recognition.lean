import Spreadsheet.Proofs.Formula.Soundness

/-! # The reader recognizes the grammar

The reader tries one form after the other, takes as much as it can and never goes back over a choice; the grammar does
not know of that. The induction over the grammar carries two statements at every level: the level is read from the
text (`ReadsAt`), and it also takes it as the left end of a longer chain of operators (`LeadsAt`).

* `Ends`: what may follow an operand of a level. Before such a text the reader takes a word of the grammar whole, and
  no form that is tried earlier takes any of it.
* `IsFormula.reads`: every formula is read whole.
* `parse_eq_ok_iff`: the texts that are read, and their trees. -/

set_option autoImplicit false

namespace Spreadsheet.Formula

open Grid Text

/-! ## What may follow an operand -/

/-- What may follow an operand of a level: blanks, and then the end of the text or something that ends the operand. -/
inductive Ends (j : Nat) : List Char → Prop
  | stop {b t : List Char} (hb : AreBlanks b) (ht : Stops j t) : Ends j (b ++ t)
  | bang {b t : List Char} (hb : AreBlanks b) (hj : j ≤ 2) : Ends j (b ++ '!' :: '=' :: t)

theorem Stops.ends {j : Nat} {t : List Char} (h : Stops j t) : Ends j t := .stop areBlanks_nil h

theorem Ends.mono {i j : Nat} {t : List Char} (h : Ends j t) (hij : i ≤ j) : Ends i t := by
  cases h with
  | stop hb ht => exact .stop hb (ht.mono hij)
  | bang hb hj => exact .bang hb (Nat.le_trans hij hj)

/-- No token begins where an operand ends, unless it begins with one of the characters that end operands. -/
theorem Ends.eat?_eq_none {j : Nat} {t : List Char} (h : Ends j t) {token : String} {c : Char} {w : List Char}
    (htoken : token.toList = c :: w) (hc : 4 ≤ boundary c + j) (hbang : j ≤ 2 → c ≠ '!') : eat? token t = none := by
  cases h with
  | @stop b u hb ht =>
    rw [eat?_blanks hb]
    refine Formula.eat?_eq_none htoken (ht.halts (by decide)) fun d hd => ?_
    have hlt := ht d hd
    simp only [beq_eq_false_iff_ne]
    rintro rfl
    omega
  | @bang b u hb hj =>
    rw [eat?_blanks hb]
    exact Formula.eat?_eq_none htoken (halts_cons (by decide)) (halts_cons (beq_eq_false_iff_ne.mpr (hbang hj).symm))

theorem Ends.operator?_eq_none {j : Nat} {t : List Char} (h : Ends (j + 1) t) : operator? t (operatorsAt j) = none := by
  have hnone : ∀ operators : List (String × BinaryOp), (∀ entry ∈ operators, eat? entry.1 t = none) →
      operator? t operators = none := by
    intro operators hall
    induction operators with
    | nil => rfl
    | cons entry others ih =>
      rw [operator?_cons_of_none (hall entry (List.mem_cons_self ..))]
      exact ih fun other hother => hall other (List.mem_cons_of_mem _ hother)
  refine hnone _ fun entry hentry => ?_
  obtain ⟨c, w, htoken, hle⟩ := boundary_operatorsAt hentry
  refine h.eat?_eq_none htoken hle fun hj => ?_
  have hbang : ∀ j ≤ 1, ∀ entry ∈ operatorsAt j, entry.1.toList.head? ≠ some '!' := by
    intro j hj
    obtain rfl | rfl : j = 0 ∨ j = 1 := by omega
    all_goals decide
  rintro rfl
  exact hbang j (by omega) entry hentry (by rw [htoken]; rfl)

theorem Ends.apart {j : Nat} {t : List Char} (h : Ends j t) : Apart t := by
  cases h with
  | @stop b u hb ht =>
    refine apart_blanks hb ⟨ht.halts (by decide), ht.halts (by decide), ht.halts (by decide), ht.halts (by decide), ?_⟩
    rintro s rfl
    exact absurd ((ht.halts (by decide) : Halts (· == '!') ('!' :: s)) _ rfl) (by decide)
  | @bang b u hb hj =>
    refine apart_blanks hb ⟨halts_cons (by decide), halts_cons (by decide), halts_cons (by decide),
      halts_cons (by decide), ?_⟩
    rintro s heq
    cases heq
    exact ⟨u, rfl⟩

theorem apart_colon {b : List Char} (hb : AreBlanks b) (s : List Char) : Apart (b ++ ':' :: s) :=
  apart_blanks hb (apart_cons (by decide) (by decide))

theorem ends_spelling {op : BinaryOp} {j : Nat} (hop : op.strength + j = 3) {token : String}
    (htoken : token ∈ op.spellings) {b : List Char} (hb : AreBlanks b) (t : List Char) :
    Ends j (b ++ (token.toList ++ t)) := by
  have hsymbol : token = op.symbol → Ends j (b ++ (token.toList ++ t)) := by
    rintro rfl
    exact .stop hb (stops_symbol hop t)
  cases op with
  | notEqual =>
    have hj : j = 2 := by
      simp only [BinaryOp.strength] at hop
      omega
    obtain rfl | htoken := List.mem_cons.mp htoken
    · exact hsymbol rfl
    · rw [List.mem_singleton.mp htoken]
      exact .bang hb (by omega)
  | _ => exact hsymbol (List.mem_singleton.mp htoken)

theorem operator?_spelling {op : BinaryOp} {j : Nat} (hop : op.strength + j = 3) {token : String}
    (htoken : token ∈ op.spellings) {s : List Char} (hs : Halts isSecondMark s) :
    operator? (token.toList ++ s) (operatorsAt j) = some (op, s) := by
  have hsymbol : token = op.symbol → operator? (token.toList ++ s) (operatorsAt j) = some (op, s) := by
    rintro rfl
    exact operator?_symbol hop hs
  cases op with
  | notEqual =>
    obtain rfl : j = 2 := by
      simp only [BinaryOp.strength] at hop
      omega
    obtain rfl | htoken := List.mem_cons.mp htoken
    · exact hsymbol rfl
    · rw [List.mem_singleton.mp htoken]
      rfl
  | _ => exact hsymbol (List.mem_singleton.mp htoken)

theorem operator?_blanks {b : List Char} (hb : AreBlanks b) (s : List Char) (operators : List (String × BinaryOp)) :
    operator? (b ++ s) operators = operator? s operators := by
  induction operators with
  | nil => rfl
  | cons entry others ih => rw [operator?, operator?, eat?_blanks hb, ih]

/-! ## The beginning of a formula -/

/-- The characters that a reference begins with. -/
def isReferenceStart (c : Char) : Bool := isNameChar c || c == '\'' || c == '$'

/-- The characters that an operand without a sign begins with. -/
def isOperandStart (c : Char) : Bool := isReferenceStart c || c == '"' || c == '('

/-- The characters that a formula begins with. -/
def isFormulaStart (c : Char) : Bool := isOperandStart c || c == '-' || c == '+'

theorem isReferenceStart_of_isNameChar {c : Char} (h : isNameChar c = true) : isReferenceStart c = true := by
  rw [isReferenceStart, h]
  rfl

theorem isOperandStart_of_isReferenceStart {c : Char} (h : isReferenceStart c = true) : isOperandStart c = true := by
  rw [isOperandStart, h]
  rfl

theorem isOperandStart_of_isNameChar {c : Char} (h : isNameChar c = true) : isOperandStart c = true :=
  isOperandStart_of_isReferenceStart (isReferenceStart_of_isNameChar h)

theorem isFormulaStart_of_isOperandStart {c : Char} (h : isOperandStart c = true) : isFormulaStart c = true := by
  rw [isFormulaStart, h]
  rfl

theorem isBlank_eq_false_of_isFormulaStart {c : Char} (h : isFormulaStart c = true) : isBlank c = false := by
  simp only [isFormulaStart, isOperandStart, isReferenceStart, Bool.or_eq_true, beq_iff_eq] at h
  obtain (((((h | rfl) | rfl) | rfl) | rfl) | rfl) | rfl := h
  · exact isBlank_eq_false_of_isNameChar h
  all_goals decide

theorem IsAddress.begins {w : List Char} {a : Address} (h : IsAddress w a) : Begins isReferenceStart w := by
  refine begins_word h.ne_nil fun c hc => ?_
  obtain rfl | hc := h.mem hc
  · decide
  · exact isReferenceStart_of_isNameChar hc

theorem IsReference.begins {w : List Char} {sheet : Option String} {a : Address} (h : IsReference w sheet a) :
    Begins isReferenceStart w := by
  obtain ⟨hsheet, haddress⟩ := h
  cases hsheet with
  | none => exact haddress.begins
  | plain hplain =>
    simp only [isPlainSheet, Bool.and_eq_true, List.all_eq_true] at hplain
    obtain ⟨hfirst, hall⟩ := hplain
    refine ((begins_word ?_ fun c hc => isReferenceStart_of_isNameChar (hall c hc)).append _).append _
    intro hnil
    rw [hnil] at hfirst
    cases hfirst
  | quoted sheet => exact begins_cons (by decide) _

theorem begins_functionName {name : String} (h : isFunctionName name = true) (t : List Char) :
    Begins isOperandStart (name.toList ++ t) :=
  Begins.append (begins_word (isFunctionName_ne_nil h) fun _ hc =>
    isOperandStart_of_isNameChar (isNameChar_of_isFunctionChar (isFunctionChar_of_mem h hc))) t

theorem IsOperand.begins {s : List Char} {e : Expr} (h : IsOperand s e) : Begins isOperandStart s := by
  cases h with
  | callEmpty hname hb => exact begins_functionName hname _
  | call hname h => exact begins_functionName hname _
  | parens h hb => exact begins_cons (by decide) _
  | cell h => exact h.begins.mono fun _ => isOperandStart_of_isReferenceStart
  | range hfirst => exact (hfirst.begins.mono fun _ => isOperandStart_of_isReferenceStart).append _
  | truth b =>
    exact begins_word (truthChars_ne_nil b) fun c hc =>
      isOperandStart_of_isNameChar (isNameChar_of_isLetter (isLetter_of_mem_truthChars hc))
  | number h =>
    obtain ⟨c, u, rfl, hc⟩ := h.begins
    refine begins_cons (isOperandStart_of_isNameChar ?_) u
    rw [Number.isPlainChar, Bool.or_eq_true, beq_iff_eq] at hc
    obtain hc | rfl := hc
    · exact isNameChar_of_isDigit hc
    · decide
  | text s => exact begins_cons (by decide) _

theorem IsFormula.begins : {j : Nat} → {s : List Char} → {e : Expr} → IsFormula j s e →
    ∃ b u, AreBlanks b ∧ s = b ++ u ∧ Begins isFormulaStart u
  | _, _, _, .minus hb _ => ⟨_, _, hb, rfl, begins_cons (by decide) _⟩
  | _, _, _, .plus hb _ => ⟨_, _, hb, rfl, begins_cons (by decide) _⟩
  | _, _, _, .operand hb h => ⟨_, _, hb, rfl, h.begins.mono fun _ => isFormulaStart_of_isOperandStart⟩
  | _, _, _, .single h => h.begins
  | _, _, _, .joined _ _ _ hl _ => by
    obtain ⟨b, u, hb, rfl, hu⟩ := hl.begins
    exact ⟨b, u ++ _, hb, List.append_assoc .., hu.append _⟩

/-! ## Operands are read -/

theorem operand_of_reference {formula : List Char → Parsed} {s : List Char} (hblank : Halts isBlank s)
    (hcall : callName? s = none) (hparen : Halts (· == '(') s) :
    operand formula s = (do
      match ← reference s with
      | some (first, rest) => rangeTail first rest
      | none => literal s) := by
  unfold operand
  rw [skipBlanks_eq_self hblank]
  dsimp only
  rw [hcall]
  dsimp only
  rewrite [eat?_eq_none (c := '(') (w := []) rfl hblank hparen]
  rfl

theorem operand_of_literal {formula : List Char → Parsed} {s : List Char} (hblank : Halts isBlank s)
    (hcall : callName? s = none) (hparen : Halts (· == '(') s) (href : reference s = .ok none) :
    operand formula s = literal s := by
  rw [operand_of_reference hblank hcall hparen, href]
  rfl

theorem operand_blanks {b : List Char} (hb : AreBlanks b) (formula : List Char → Parsed) (s : List Char) :
    operand formula (b ++ s) = operand formula s := by
  rw [operand, skipBlanks_append hb, operand]

theorem operand_call (formula : List Char → Parsed) {name : String} (hname : isFunctionName name = true)
    (s : List Char) : operand formula (name.toList ++ '(' :: s) = callTail formula name.toList s := by
  have hblank : Halts isBlank (name.toList ++ '(' :: s) :=
    (begins_functionName hname _).halts fun c hc =>
      isBlank_eq_false_of_isFormulaStart (isFormulaStart_of_isOperandStart hc)
  rw [operand, skipBlanks_eq_self hblank]
  dsimp only
  rw [callName?_isFunctionName hname]

theorem callName?_isReference {w t : List Char} {sheet : Option String} {a : Address} (h : IsReference w sheet a)
    (ht : Apart t) : callName? (w ++ t) = none := by
  have hfunction : Halts isFunctionChar t := Halts.imp ht.name fun c => isNameChar_of_isFunctionChar
  obtain ⟨hsheet, haddress⟩ := h
  have hparen := haddress.notMem (c := '(') (by decide) (by decide)
  cases hsheet with
  | none => exact callName?_eq_none hparen hfunction ht.paren
  | plain hplain =>
    simp only [isPlainSheet, Bool.and_eq_true, List.all_eq_true] at hplain
    refine callName?_eq_none ?_ hfunction ht.paren
    rw [List.mem_append, List.mem_append]
    rintro ((hc | hc) | hc)
    · exact absurd (hplain.2 _ hc) (by decide)
    · exact absurd hc (by decide)
    · exact hparen hc
  | quoted sheet => exact callName?_of_halts (halts_cons (by decide))

theorem operand_isReference (formula : List Char → Parsed) {w t : List Char} {sheet : Option String} {a : Address}
    (h : IsReference w sheet a) (ht : Apart t) : operand formula (w ++ t) = rangeTail (sheet, a) t := by
  have hbegins := h.begins.append t
  have hblank : Halts isBlank (w ++ t) := hbegins.halts fun c hc =>
    isBlank_eq_false_of_isFormulaStart (isFormulaStart_of_isOperandStart (isOperandStart_of_isReferenceStart hc))
  rw [operand_of_reference hblank (callName?_isReference h ht) (hbegins.halts_beq (by decide)),
    reference_isReference h ht]
  rfl

theorem rangeTail_of_ends (r : Reference) {t : List Char} (ht : Ends 0 t) : rangeTail r t = .ok (.cell r.1 r.2, t) := by
  rw [rangeTail, ht.eat?_eq_none (c := ':') (w := []) rfl (by decide) (by decide)]

theorem jointSheet_of_joins {first second sheet : Option String} (h : Joins first second sheet) :
    jointSheet first second = .ok sheet := by
  cases h with
  | first => cases first <;> rfl
  | second => cases second <;> rfl
  | both s => exact if_pos rfl

theorem rangeTail_colon (first : Reference) {b c t w : List Char} {second sheet : Option String} {stop : Address}
    (hb : AreBlanks b) (hc : AreBlanks c) (hsecond : IsReference w second stop) (hsheet : Joins first.1 second sheet)
    (ht : Apart t) : rangeTail first (b ++ ':' :: (c ++ (w ++ t))) = .ok (.range sheet first.2 stop, t) := by
  have hcolon : eat? ":" (b ++ ':' :: (c ++ (w ++ t))) = some (c ++ (w ++ t)) := by
    rw [eat?_blanks hb]
    exact eat?_append ":" (halts_cons (by decide))
  have hreference : reference (c ++ (w ++ t)) = .ok (some ((second, stop), t)) := by
    have hskip : reference (c ++ (w ++ t)) = reference (w ++ t) := by
      rw [reference, skipBlanks_append hc, reference]
    rw [hskip, reference_isReference hsecond ht]
  rw [rangeTail, hcolon]
  dsimp only
  rw [hreference]
  dsimp only [bind, Except.bind]
  rw [jointSheet_of_joins hsheet]
  rfl

theorem operand_truth (formula : List Char → Parsed) (b : Bool) {t : List Char} (ht : Apart t) :
    operand formula (truthChars b ++ t) = .ok (.truth b, t) := by
  have hfirst : ∀ {p : Char → Bool}, (∀ c ∈ truthChars b, p c = false) → Halts p (truthChars b ++ t) :=
    fun hp => halts_word (truthChars_ne_nil b) hp t
  have hcall : callName? (truthChars b ++ t) = none :=
    callName?_eq_none (by cases b <;> decide) (Halts.imp ht.name fun c => isNameChar_of_isFunctionChar) ht.paren
  rw [operand_of_literal (hfirst (by cases b <;> decide)) hcall (hfirst (by cases b <;> decide))
    (reference_truthChars b ht)]
  unfold literal
  rw [truth?_truthChars b ht.name]

/-- A word that begins with none of the characters that the other forms begin with is a number or a text. -/
theorem operand_eq_literal (formula : List Char → Parsed) {s : List Char} (hblank : Halts isBlank s)
    (hname : Halts isNameStart s) (hletter : Halts isLetter s) (hmarks : ∀ d ∈ ['(', '\'', '$'], Halts (· == d) s) :
    operand formula s = literal s := by
  have hfunction : Halts isFunctionStart s := by
    intro c hc
    have hunder : isNameStart c = false := hname c hc
    have hl := hletter c hc
    rw [isNameStart, Bool.or_eq_false_iff] at hunder
    rw [isFunctionStart, hl, hunder.2]
    rfl
  exact operand_of_literal hblank (callName?_of_halts hfunction) (hmarks _ (by simp))
    (reference_eq_none hblank (hmarks _ (by simp)) hname hletter (hmarks _ (by simp)))

theorem operand_number (formula : List Char → Parsed) {w t : List Char} {x : Float} (h : IsNumeral w)
    (hx : Number.read? w = some x) (ht : Apart t) : operand formula (w ++ t) = .ok (.number x, t) := by
  have hfirst : ∀ {p : Char → Bool}, (∀ c ∈ plainChars, p c = false) → Halts p (w ++ t) := by
    intro p hp
    obtain ⟨c, u, rfl, hc⟩ := h.begins
    exact halts_cons (hp c (mem_plainChars hc))
  rw [operand_eq_literal formula (hfirst (by decide)) (hfirst (by decide)) (hfirst (by decide))
    (fun d hd => hfirst (by revert d; decide))]
  unfold literal
  rw [truth?_eq_none (hfirst (by decide))]
  dsimp only
  rw [number?_isNumeral h hx ht.name]

theorem operand_text (formula : List Char → Parsed) (s : String) {t : List Char} (ht : Apart t) :
    operand formula ('"' :: (doubled '"' s.toList ++ ['"']) ++ t) = .ok (.text s, t) := by
  have hshape : '"' :: (doubled '"' s.toList ++ ['"']) ++ t = '"' :: (doubled '"' s.toList ++ '"' :: t) := by
    simp only [List.cons_append, List.append_assoc, List.nil_append]
  have hfirst : ∀ {p : Char → Bool}, p '"' = false → Halts p ('"' :: (doubled '"' s.toList ++ '"' :: t)) :=
    fun hp => halts_cons hp
  have hnumber : number? ('"' :: (doubled '"' s.toList ++ '"' :: t)) = none := by
    rw [number?, (hfirst (by decide)).takeWhile, (hfirst (by decide)).dropWhile, splitFraction_of_halts (hfirst (by decide))]
    dsimp only
    rw [splitExponent_of_halts (hfirst (by decide))]
    rfl
  rw [hshape, operand_eq_literal formula (hfirst (by decide)) (hfirst (by decide)) (hfirst (by decide))
    (fun d hd => hfirst (by revert d; decide))]
  unfold literal
  rw [truth?_eq_none (hfirst (by decide))]
  dsimp only
  rw [hnumber]
  simp only
  rw [quoted?_doubled _ ht.quote]
  dsimp only
  rw [String.ofList_toList]

/-! ## Levels are read -/

/-- The reader of a level, counted from signs and operands on; formulas inside are less than `d` deep. -/
def reader (d : Nat) : Nat → List Char → Parsed
  | 0 => factor (formula d)
  | j + 1 => level (operatorsAt j) (reader d j)

/-- An operand is read from a text. -/
def ReadsOperand (s : List Char) (e : Expr) : Prop :=
  ∀ d t, s.length ≤ d → Ends 0 t → operand (formula d) (s ++ t) = .ok (e, t)

/-- Signs and an operand are read from a text, whatever the limits. -/
def ReadsSigned (s : List Char) (e : Expr) : Prop :=
  ∀ d limit t, s.length ≤ d → s.length ≤ limit → Ends 0 t → signed (operand (formula d)) limit (s ++ t) = .ok (e, t)

/-- A level is read from a text. -/
def ReadsAt (j : Nat) (s : List Char) (e : Expr) : Prop :=
  ∀ d t, s.length ≤ d → Ends j t → reader d j (s ++ t) = .ok (e, t)

/-- The level `j + 1` takes a text as its first operands and is then about to take more of them. -/
def LeadsAt (j : Nat) (s : List Char) (e : Expr) : Prop :=
  ∀ d t, s.length ≤ d → Ends j t → ∃ limit, t.length ≤ limit ∧
    reader d (j + 1) (s ++ t) = chain (operatorsAt j) (reader d j) limit e t

/-- How a formula of a level is read. -/
def Reads : Nat → List Char → Expr → Prop
  | 0 => ReadsSigned
  | j + 1 => LeadsAt j

/-- The arguments of a call are read with the parenthesis after them. -/
def ReadsArguments (s : List Char) (args : List Expr) : Prop :=
  ∀ d limit t function, s.length ≤ d → s.length ≤ limit → arguments (formula d) function limit (s ++ t) = .ok (args, t)

theorem ReadsSigned.readsAt {s : List Char} {e : Expr} (h : ReadsSigned s e) : ReadsAt 0 s e := by
  intro d t hd ht
  refine h d (s ++ t).length t hd ?_ ht
  rw [List.length_append]
  omega

theorem LeadsAt.readsAt {j : Nat} {s : List Char} {e : Expr} (h : LeadsAt j s e) : ReadsAt (j + 1) s e := by
  intro d t hd ht
  obtain ⟨limit, -, hread⟩ := h d t hd (ht.mono (Nat.le_succ j))
  rw [hread]
  cases limit with
  | zero => rfl
  | succ limit => rw [chain, ht.operator?_eq_none]

theorem Reads.readsAt {s : List Char} {e : Expr} : {j : Nat} → Reads j s e → ReadsAt j s e
  | 0, h => ReadsSigned.readsAt h
  | _ + 1, h => LeadsAt.readsAt h

theorem ReadsAt.leadsAt {j : Nat} {s : List Char} {e : Expr} (h : ReadsAt j s e) : LeadsAt j s e := by
  intro d t hd ht
  refine ⟨t.length, Nat.le_refl _, ?_⟩
  rw [reader, level, h d t hd ht]
  rfl

theorem IsFormula.halts_isSecondMark {j : Nat} {s : List Char} {e : Expr} (h : IsFormula j s e) (t : List Char) :
    Halts isSecondMark (s ++ t) := by
  obtain ⟨b, u, hb, rfl, hu⟩ := h.begins
  have hmark : ∀ c, isSecondMark c = true → isBlank c = false ∧ isFormulaStart c = false := by
    intro c hc
    simp only [isSecondMark, Bool.or_eq_true, beq_iff_eq] at hc
    obtain rfl | rfl := hc <;> decide
  have hother : ∀ c, (isBlank c = true ∨ isFormulaStart c = true) → isSecondMark c = false := by
    intro c hc
    cases hsecond : isSecondMark c with
    | false => rfl
    | true =>
      obtain ⟨hblank, hstart⟩ := hmark c hsecond
      rw [hblank, hstart] at hc
      simp at hc
  cases b with
  | nil => exact (hu.append t).halts fun c hc => hother c (.inr hc)
  | cons c b => exact halts_cons (hother c (.inl (hb c (List.mem_cons_self ..))))

theorem LeadsAt.joined {j : Nat} {op : BinaryOp} {token : String} {b s t : List Char} {l r : Expr}
    (hop : op.strength + j = 3) (htoken : token ∈ op.spellings) (hb : AreBlanks b) (hl : LeadsAt j s l)
    (hr : ReadsAt j t r) (hsecond : ∀ u, Halts isSecondMark (t ++ u)) :
    LeadsAt j (s ++ (b ++ (token.toList ++ t))) (.binary op l r) := by
  intro d u hd hu
  have hlength : 1 ≤ token.toList.length := by
    have hall : ∀ op : BinaryOp, ∀ token ∈ op.spellings, 1 ≤ token.toList.length := by
      intro op
      cases op <;> decide
    exact hall op token htoken
  have hshape : s ++ (b ++ (token.toList ++ t)) ++ u = s ++ (b ++ (token.toList ++ (t ++ u))) := by
    simp only [List.append_assoc]
  simp only [List.length_append] at hd
  obtain ⟨limit, hlimit, hread⟩ :=
    hl d (b ++ (token.toList ++ (t ++ u))) (by omega) (ends_spelling hop htoken hb _)
  simp only [List.length_append] at hlimit
  obtain ⟨limit, rfl⟩ : ∃ k, limit = k + 1 := ⟨limit - 1, by omega⟩
  refine ⟨limit, by omega, ?_⟩
  rw [hshape, hread, chain, operator?_blanks hb, operator?_spelling hop htoken (hsecond u)]
  dsimp only
  rw [hr d u (by omega) hu]
  rfl

theorem ReadsSigned.minus {b s : List Char} {e : Expr} (hb : AreBlanks b) (h : ReadsSigned s e) :
    ReadsSigned (b ++ '-' :: s) (.negate e) := by
  intro d limit t hd hlimit ht
  simp only [List.length_append, List.length_cons] at hd hlimit
  obtain ⟨limit, rfl⟩ : ∃ k, limit = k + 1 := ⟨limit - 1, by omega⟩
  have hsign : eat? "-" (b ++ ('-' :: s ++ t)) = some (s ++ t) := by
    rw [eat?_blanks hb]
    exact eat?_append "-" (halts_cons (by decide))
  rw [List.append_assoc, signed, hsign]
  dsimp only
  rw [h d limit t (by omega) (by omega) ht]
  rfl

theorem ReadsSigned.plus {b s : List Char} {e : Expr} (hb : AreBlanks b) (h : ReadsSigned s e) :
    ReadsSigned (b ++ '+' :: s) e := by
  intro d limit t hd hlimit ht
  simp only [List.length_append, List.length_cons] at hd hlimit
  obtain ⟨limit, rfl⟩ : ∃ k, limit = k + 1 := ⟨limit - 1, by omega⟩
  have hminus : eat? "-" (b ++ ('+' :: s ++ t)) = none := by
    rw [eat?_blanks hb]
    exact eat?_eq_none (c := '-') (w := []) rfl (halts_cons (by decide)) (halts_cons (by decide))
  have hsign : eat? "+" (b ++ ('+' :: s ++ t)) = some (s ++ t) := by
    rw [eat?_blanks hb]
    exact eat?_append "+" (halts_cons (by decide))
  rw [List.append_assoc, signed, hminus]
  dsimp only
  rw [hsign]
  dsimp only
  exact h d limit t (by omega) (by omega) ht

theorem ReadsOperand.readsSigned {b s : List Char} {e : Expr} (hb : AreBlanks b) (hbegins : Begins isOperandStart s)
    (h : ReadsOperand s e) : ReadsSigned (b ++ s) e := by
  intro d limit t hd _ ht
  rw [List.length_append] at hd
  have hfront := hbegins.append t
  have hblank : Halts isBlank (s ++ t) :=
    hfront.halts fun c hc => isBlank_eq_false_of_isFormulaStart (isFormulaStart_of_isOperandStart hc)
  have hread := h d t (by omega) ht
  rw [List.append_assoc]
  cases limit with
  | zero => rw [signed, operand_blanks hb, hread]
  | succ limit =>
    rw [signed, eat?_blanks hb, eat?_eq_none (c := '-') (w := []) rfl hblank (hfront.halts_beq (by decide))]
    dsimp only
    rw [eat?_blanks hb, eat?_eq_none (c := '+') (w := []) rfl hblank (hfront.halts_beq (by decide))]
    dsimp only
    rw [operand_blanks hb, hread]

theorem ReadsAt.formula {s : List Char} {e : Expr} (h : ReadsAt 3 s e) {d : Nat} (hd : s.length < d) {t : List Char}
    (ht : Ends 3 t) : formula d (s ++ t) = .ok (e, t) := by
  obtain ⟨d, rfl⟩ : ∃ k, d = k + 1 := ⟨d - 1, by omega⟩
  exact h d t (by omega) ht

theorem ends_close {b : List Char} (hb : AreBlanks b) (t : List Char) : Ends 3 (b ++ ')' :: t) :=
  .stop hb (stops_cons (by decide))

theorem eat?_close {b : List Char} (hb : AreBlanks b) (t : List Char) : eat? ")" (b ++ ')' :: t) = some t := by
  rw [eat?_blanks hb]
  exact eat?_append ")" (halts_cons (by decide))

theorem readsOperand_parens {s b : List Char} {e : Expr} (h : ReadsAt 3 s e) (hb : AreBlanks b) :
    ReadsOperand ('(' :: (s ++ (b ++ [')']))) e := by
  intro d t hd ht
  simp only [List.length_append, List.length_cons] at hd
  have hshape : '(' :: (s ++ (b ++ [')'])) ++ t = '(' :: (s ++ (b ++ ')' :: t)) := by
    simp only [List.cons_append, List.append_assoc, List.nil_append]
  have hopen : eat? "(" ('(' :: (s ++ (b ++ ')' :: t))) = some (s ++ (b ++ ')' :: t)) :=
    eat?_append "(" (halts_cons (by decide))
  rw [hshape, operand, skipBlanks_eq_self (halts_cons (by decide))]
  dsimp only
  rw [callName?_of_halts (halts_cons (by decide))]
  dsimp only
  rw [hopen]
  dsimp only
  rw [h.formula (by omega) (ends_close hb t)]
  dsimp only [bind, Except.bind]
  rw [eat?_close hb]
  rfl

theorem readsArguments_last {s b : List Char} {e : Expr} (h : ReadsAt 3 s e) (hb : AreBlanks b) :
    ReadsArguments (s ++ (b ++ [')'])) [e] := by
  intro d limit t function hd hlimit
  simp only [List.length_append, List.length_cons] at hd hlimit
  obtain ⟨limit, rfl⟩ : ∃ k, limit = k + 1 := ⟨limit - 1, by omega⟩
  have hshape : s ++ (b ++ [')']) ++ t = s ++ (b ++ ')' :: t) := by
    simp only [List.append_assoc, List.cons_append, List.nil_append]
  rw [hshape, arguments, h.formula (by omega) (ends_close hb t)]
  dsimp only [bind, Except.bind]
  rw [eat?_close hb]
  rfl

theorem readsArguments_next {s b u : List Char} {e : Expr} {args : List Expr} (h : ReadsAt 3 s e) (hb : AreBlanks b)
    (hrest : ReadsArguments u args) : ReadsArguments (s ++ (b ++ ',' :: u)) (e :: args) := by
  intro d limit t function hd hlimit
  simp only [List.length_append, List.length_cons] at hd hlimit
  obtain ⟨limit, rfl⟩ : ∃ k, limit = k + 1 := ⟨limit - 1, by omega⟩
  have hshape : s ++ (b ++ ',' :: u) ++ t = s ++ (b ++ ',' :: (u ++ t)) := by
    simp only [List.append_assoc, List.cons_append]
  have hends : Ends 3 (b ++ ',' :: (u ++ t)) := .stop hb (stops_cons (by decide))
  have hclose : eat? ")" (b ++ ',' :: (u ++ t)) = none := by
    rw [eat?_blanks hb]
    exact eat?_eq_none (c := ')') (w := []) rfl (halts_cons (by decide)) (halts_cons (by decide))
  have hcomma : eat? "," (b ++ ',' :: (u ++ t)) = some (u ++ t) := by
    rw [eat?_blanks hb]
    exact eat?_append "," (halts_cons (by decide))
  rw [hshape, arguments, h.formula (by omega) hends]
  dsimp only [bind, Except.bind]
  rw [hclose]
  dsimp only
  rw [hcomma]
  dsimp only
  rw [hrest d limit t function (by omega) (by omega)]
  rfl

theorem readsOperand_callEmpty {name : String} (hname : isFunctionName name = true) {b : List Char}
    (hb : AreBlanks b) : ReadsOperand (name.toList ++ '(' :: (b ++ [')'])) (.call name []) := by
  intro d t _ _
  have hshape : name.toList ++ '(' :: (b ++ [')']) ++ t = name.toList ++ '(' :: (b ++ ')' :: t) := by
    simp only [List.append_assoc, List.cons_append, List.nil_append]
  rw [hshape, operand_call _ hname, callTail, eat?_close hb]
  dsimp only
  rw [String.ofList_toList]

theorem readsOperand_call {name : String} (hname : isFunctionName name = true) {s : List Char} {args : List Expr}
    (h : ReadsArguments s args) (hclose : ∀ t, eat? ")" (s ++ t) = none) :
    ReadsOperand (name.toList ++ '(' :: s) (.call name args) := by
  intro d t hd _
  simp only [List.length_append, List.length_cons] at hd
  have hshape : name.toList ++ '(' :: s ++ t = name.toList ++ '(' :: (s ++ t) := by
    simp only [List.append_assoc, List.cons_append]
  have hlimit : s.length ≤ (s ++ t).length + 1 := by
    rw [List.length_append]
    omega
  rw [hshape, operand_call _ hname, callTail, hclose]
  dsimp only
  rw [h d _ t _ (by omega) hlimit]
  dsimp only [bind, Except.bind]
  rw [String.ofList_toList]
  rfl

theorem AreArguments.eat?_close_eq_none {s : List Char} {args : List Expr} (h : AreArguments s args) (t : List Char) :
    eat? ")" (s ++ t) = none := by
  obtain ⟨w, v, e, hw, rfl⟩ : ∃ w v e, IsFormula 3 w e ∧ s = w ++ v := by
    cases h with
    | last h hb => exact ⟨_, _, _, h, rfl⟩
    | next h hb hrest => exact ⟨_, _, _, h, rfl⟩
  obtain ⟨b, u, hb, rfl, hu⟩ := hw.begins
  have hfront := (hu.append v).append t
  rw [List.append_assoc, List.append_assoc, eat?_blanks hb, ← List.append_assoc]
  exact eat?_eq_none (c := ')') (w := []) rfl (hfront.halts fun c hc => isBlank_eq_false_of_isFormulaStart hc)
    (hfront.halts_beq (by decide))

mutual

theorem IsFormula.reads : {j : Nat} → {s : List Char} → {e : Expr} → IsFormula j s e → Reads j s e
  | _, _, _, .minus hb h => ReadsSigned.minus hb h.reads
  | _, _, _, .plus hb h => ReadsSigned.plus hb h.reads
  | _, _, _, .operand hb h => h.reads.readsSigned hb h.begins
  -- What leads at a level may still be joined to a right operand, so the two levels are read by different statements.
  | _, _, _, .single h => h.reads.readsAt.leadsAt
  | _, _, _, .joined hop htoken hb hl hr =>
    LeadsAt.joined hop htoken hb hl.reads hr.reads.readsAt fun u => hr.halts_isSecondMark u

theorem IsOperand.reads : {s : List Char} → {e : Expr} → IsOperand s e → ReadsOperand s e
  | _, _, .callEmpty hname hb => readsOperand_callEmpty hname hb
  | _, _, .call hname h => readsOperand_call hname h.reads h.eat?_close_eq_none
  | _, _, .parens h hb => readsOperand_parens h.reads.readsAt hb
  | _, _, .cell h => fun d t _ ht => by
    rw [operand_isReference _ h ht.apart, rangeTail_of_ends _ ht]
  | _, _, .range hfirst hb hc hsecond hsheet => fun d t _ ht => by
    simp only [List.append_assoc, List.cons_append]
    rw [operand_isReference _ hfirst (apart_colon hb _), rangeTail_colon _ hb hc hsecond hsheet ht.apart]
  | _, _, .truth b => fun d t _ ht => operand_truth _ b ht.apart
  | _, _, .number h hx => fun d t _ ht => operand_number _ h hx ht.apart
  | _, _, .text s => fun d t _ ht => operand_text _ s ht.apart

theorem AreArguments.reads : {s : List Char} → {args : List Expr} → AreArguments s args → ReadsArguments s args
  | _, _, .last h hb => readsArguments_last h.reads.readsAt hb
  | _, _, .next h hb hrest => readsArguments_next h.reads.readsAt hb hrest.reads

end

/-! ## Whole texts -/

theorem isFormula_of_parseChars {s : List Char} {e : Expr} (h : parseChars s = .ok e) :
    ∃ w b, dropEquals (trimmed s) = w ++ b ∧ AreBlanks b ∧ IsFormula 3 w e := by
  unfold parseChars at h
  simp only [bind_eq_ok] at h
  obtain ⟨⟨e', rest⟩, hread, h⟩ := h
  split at h
  next hrest =>
    cases h
    obtain ⟨w, hsplit, hw⟩ := takesOnly_formula _ hread
    obtain ⟨b, hb, hblanks⟩ := exists_blanks rest
    rw [hrest, List.append_nil] at hblanks
    exact ⟨w, rest, hsplit, hblanks ▸ hb, hw⟩
  next => cases h

theorem parseChars_of_isFormula {s w b : List Char} {e : Expr} (hs : dropEquals (trimmed s) = w ++ b)
    (hb : AreBlanks b) (hw : IsFormula 3 w e) : parseChars s = .ok e := by
  have hends : Ends 3 b := by
    have h := Ends.stop hb (stops_nil 3)
    rwa [List.append_nil] at h
  -- The depth that the parser is given is the length of the text, and a formula nests no deeper than that.
  have hlength : w.length < (w ++ b).length + 1 := by
    rw [List.length_append]
    omega
  have hskip : skipBlanks b = [] := by
    have h := skipBlanks_append hb []
    rwa [List.append_nil] at h
  rw [parseChars, hs]
  dsimp only
  rw [hw.reads.readsAt.formula hlength hends]
  dsimp only [bind, Except.bind]
  rw [hskip]
  rfl

/-- A text is read as a formula exactly when the grammar has it: blanks at its ends do not count, nor does one equals
sign before it. -/
theorem parse_eq_ok_iff {s : String} {e : Expr} :
    parse s = .ok e ↔ ∃ w b, dropEquals (trimmed s.toList) = w ++ b ∧ AreBlanks b ∧ IsFormula 3 w e := by
  constructor
  · exact isFormula_of_parseChars
  · rintro ⟨w, b, hs, hb, hw⟩
    exact parseChars_of_isFormula hs hb hw

theorem IsFormula.unique {s : List Char} {e f : Expr} (he : IsFormula 3 s e) (hf : IsFormula 3 s f) : e = f := by
  have hends : Ends 3 [] := (stops_nil 3).ends
  have hread := he.reads.readsAt.formula (Nat.lt_succ_self _) hends
  rw [hf.reads.readsAt.formula (Nat.lt_succ_self _) hends] at hread
  cases hread
  rfl

end Spreadsheet.Formula
