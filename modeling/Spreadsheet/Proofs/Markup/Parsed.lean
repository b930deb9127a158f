import Spreadsheet.Proofs.Markup.RoundTrip

/-! # Trees that have been read

Reading a part guarantees most of what it takes to read it again. What is left to ask for is that the part is well
formed: reading does not look at the characters of names.

* `Node.isNamed`: the tags of a tree are made of names.
* `next_sound`: a token that has been read is written so that it is read again.
* `isWritablePart_of_parse`: so is a part. -/

set_option autoImplicit false

namespace Spreadsheet.Markup

open Text Text.Utf8

/-! ## Names in a tree -/

namespace Node

mutual

/-- All tags of a tree are made of names, and a document type says something. -/
def isNamed : Node → Bool
  | document _ => false
  | element t cs => t.isNamed && allNamed cs
  | doctype s => !s.isEmpty
  | _ => true

def allNamed : List Node → Bool
  | [] => true
  | n :: rest => n.isNamed && allNamed rest

end

/-- Whether a part is well formed, as far as reading it does not tell: its names are names, and no byte order mark
stands outside its elements. -/
def isWellFormed (part : Node) : Bool :=
  allNamed part.children && part.children.all fun
    | text s => !s.toList.contains '\uFEFF'
    | _ => true

theorem allNamed_iff {cs : List Node} : allNamed cs = true ↔ ∀ n ∈ cs, n.isNamed = true := by
  induction cs with
  | nil => simp [allNamed]
  | cons n cs ih => rw [allNamed, Bool.and_eq_true, ih, List.forall_mem_cons]

/-- A tree that is read back if its names are names. -/
def IsSound (n : Node) : Prop := n.isNamed = true → n.IsWritable

end Node

/-- A tag that is read back if its names are names. -/
def Tag.IsSound (t : Tag) : Prop := t.isNamed = true → t.IsWritable

/-- A token of which the same is true. -/
def Token.IsSound : Token → Prop
  | startTag t => t.IsSound
  | emptyTag t => t.IsSound
  | endTag _ => True
  | leaf n => n.IsSound

/-! ## Tags -/

theorem key_of_rawAttribute {place : Source → Nat} {seen : List SeenKey} {x : Symbol} {s : Source} {a : RawAttribute}
    (h : rawAttribute place seen x s = .ok a) : ∀ k ∈ seen, k.1 ≠ a.key := by
  unfold rawAttribute at h
  dsimp only at h
  split at h
  next =>
    split at h
    · cases h
    next hnone =>
      split at h
      next =>
        cases h
        intro k hk heq
        exact List.find?_eq_none.mp hnone k hk (beq_iff_eq.mpr heq)
      next => cases h
  next => cases h

theorem nodup_of_attributes {place : Source → Nat} {seen : List SeenKey} {limit : Nat} {s : Source}
    {l : List (String × String)} (h : attributes place seen limit s = .ok l) :
    (l.map (·.1)).Nodup ∧ ∀ a ∈ l, ∀ k ∈ seen, k.1 ≠ written a.1.toList := by
  induction limit generalizing seen s l with
  | zero =>
    cases h
    exact ⟨List.nodup_nil, fun a ha => by cases ha⟩
  | succ limit ih =>
    rw [attributes] at h
    split at h
    next =>
      cases h
      exact ⟨List.nodup_nil, fun a ha => by cases ha⟩
    next =>
      split at h
      next => cases h
      next a hraw =>
        simp only [bind_eq_ok, pure_eq_ok] at h
        obtain ⟨key, hkey, value, -, others, hothers, rfl⟩ := h
        obtain ⟨hnodup, hnew⟩ := ih hothers
        have hwritten : a.key = written key.toList := decoded_eq_ok.mp hkey
        refine ⟨List.nodup_cons.mpr ⟨fun hmem => ?_, hnodup⟩, fun b hb k hk => ?_⟩
        · obtain ⟨b, hb, heq⟩ := List.mem_map.mp hmem
          have heq : b.1 = key := heq
          refine hnew b hb _ (List.mem_cons_self ..) ?_
          rw [heq, ← hwritten]
        · obtain rfl | hb := List.mem_cons.mp hb
          · rw [← hwritten]
            exact key_of_rawAttribute hraw k hk
          · exact hnew b hb k (List.mem_cons_of_mem _ hk)

theorem isSound_of_tagOf {body : Source} {t : Tag} (h : tagOf body = .ok t) : t.IsSound := by
  simp only [tagOf, bind_eq_ok, pure_eq_ok] at h
  obtain ⟨name, -, l, hl, rfl⟩ := h
  exact fun hnamed => ⟨hnamed, (nodup_of_attributes hl).1⟩

theorem isSound_of_openingToken {body : Source} {t : Token} (h : openingToken body = .ok t) : t.IsSound := by
  rw [openingToken] at h
  split at h
  · obtain ⟨tag, htag, rfl⟩ := map_eq_ok.mp h
    exact isSound_of_tagOf htag
  · obtain ⟨tag, htag, rfl⟩ := map_eq_ok.mp h
    exact isSound_of_tagOf htag

/-! ## Comments and sections -/

theorem isChar_iff {c : Char} {x : Symbol} : isChar c x = true ↔ x = .char c := beq_iff_eq

theorem upToClosing?_eq_some {twice : Char} {s body rest : Source} (h : upToClosing? twice s = some (body, rest)) :
    s = body ++ .char twice :: .char twice :: .char '>' :: rest ∧ ∀ other,
      upToClosing? twice (body ++ .char twice :: .char twice :: .char '>' :: other) = some (body, other) := by
  fun_induction upToClosing? twice s generalizing body with
  | case1 x y z s hclose =>
    cases h
    simp only [Bool.and_eq_true, isChar_iff] at hclose
    obtain ⟨⟨rfl, rfl⟩, rfl⟩ := hclose
    refine ⟨rfl, fun other => ?_⟩
    rw [List.nil_append, upToClosing?, if_pos (by simp [isChar_iff])]
  | case2 x y z s hclose ih =>
    obtain ⟨⟨body, r⟩, hr, heq⟩ := Option.map_eq_some_iff.mp h
    cases heq
    obtain ⟨hs, hother⟩ := ih hr
    refine ⟨by rw [hs, List.cons_append], fun other => ?_⟩
    -- The symbols that were compared all stand before what follows.
    have hstart : ∃ w, body ++ .char twice :: .char twice :: .char '>' :: other = y :: z :: w := by
      cases body with
      | nil =>
        cases hs
        exact ⟨_, rfl⟩
      | cons b body =>
        cases body with
        | nil =>
          cases hs
          exact ⟨_, rfl⟩
        | cons c body =>
          cases hs
          exact ⟨_, rfl⟩
    obtain ⟨w, hw⟩ := hstart
    have hrest := hother other
    rw [hw] at hrest
    rw [List.cons_append, hw, upToClosing?, if_neg hclose, hrest]
    rfl
  | case3 => cases h

theorem next_comment (s : Source) : next (.char '<' :: .char '!' :: .char '-' :: .char '-' :: s) =
    (match upToClosing? '-' s with
    | some (body, rest) => found ((decoded body).map fun t => .leaf (.comment t)) rest
    | none => .error (.unexpectedEnd .comment)) := rfl

theorem next_cdata (s : Source) :
    next (.char '<' :: .char '!' :: .char '[' :: (written ['C', 'D', 'A', 'T', 'A'] ++ .char '[' :: s)) =
      (match upToClosing? ']' s with
      | some (body, rest) => found ((decoded body).map fun t => .leaf (.cdata t)) rest
      | none => .error (.unexpectedEnd .cdata)) := rfl

theorem isReadable_comment {s rest body : Source} {t : String}
    (h : upToClosing? '-' s = some (body, rest)) (ht : decoded body = .ok t) : (Node.comment t).IsReadable := by
  intro other
  have hbody : body = written t.toList := decoded_eq_ok.mp ht
  have hclosing := (upToClosing?_eq_some h).2 other
  have hchars : written (Node.comment t).chars ++ other = .char '<' :: .char '!' :: .char '-' :: .char '-' ::
      (body ++ .char '-' :: .char '-' :: .char '>' :: other) := by
    rw [hbody]
    simp [Node.chars, enclosed]
  rw [hchars, next_comment, hclosing]
  dsimp only
  rw [ht]
  rfl

theorem isReadable_cdata {s rest body : Source} {t : String}
    (h : upToClosing? ']' s = some (body, rest)) (ht : decoded body = .ok t) : (Node.cdata t).IsReadable := by
  intro other
  have hbody : body = written t.toList := decoded_eq_ok.mp ht
  have hclosing := (upToClosing?_eq_some h).2 other
  have hchars : written (Node.cdata t).chars ++ other = .char '<' :: .char '!' :: .char '[' ::
      (written ['C', 'D', 'A', 'T', 'A'] ++ .char '[' :: (body ++ .char ']' :: .char ']' :: .char '>' :: other)) := by
    rw [hbody]
    simp [Node.chars, enclosed]
  rw [hchars, next_cdata, hclosing]
  dsimp only
  rw [ht]
  rfl

/-! ## Declarations and instructions -/

/-- Whether the inside of a `<?` is that of a declaration: `xml` and a blank begin it. -/
def isDeclaration : List Char → Bool
  | 'x' :: 'm' :: 'l' :: c :: _ => isSpaceChar c
  | _ => false

def questionNode (s : String) : Node := if isDeclaration s.toList then .declaration s else .instruction s

theorem questionToken_written {s : String} (hne : s ≠ "") :
    questionToken (written (s.toList ++ ['?'])) = .ok (.leaf (questionNode s)) := by
  have hlast : written (s.toList ++ ['?']) = written s.toList ++ [.char '?'] := written_append ..
  have hinside : written s.toList ≠ [] := fun h => hne (String.toList_eq_nil_iff.mp (List.map_eq_nil_iff.mp h))
  have hread : decoded (written s.toList) = .ok s := decoded_written s
  rw [questionToken, hlast, List.getLast?_concat, List.dropLast_concat, if_pos ⟨rfl, hinside⟩, questionNode]
  dsimp only
  rw [hread]
  split
  next y tail heq =>
    simp only [written, List.map_eq_cons_iff] at heq
    obtain ⟨_, _, hs, hx, _, _, rfl, hm, _, _, rfl, hl, c, w, rfl, rfl, -⟩ := heq
    cases hx
    cases hm
    cases hl
    rw [hs]
    rfl
  next hnone =>
    have hfalse : isDeclaration s.toList = false := by
      unfold isDeclaration
      split
      next heq => exact (hnone _ _ (congrArg written heq)).elim
      next => rfl
    rw [hfalse]
    rfl

theorem next_question {s : String} (hne : s ≠ "") (hclose : '>' ∉ s.toList) (rest : Source) :
    next (written (enclosed "<?" s "?>") ++ rest) = .ok (some (.leaf (questionNode s), rest)) := by
  have hinside : '>' ∉ s.toList ++ ['?'] := by
    rw [List.mem_append]
    rintro (h | h)
    · exact hclose h
    · exact absurd h (by decide)
  have hchars : written (enclosed "<?" s "?>") ++ rest =
      .char '<' :: .char '?' :: (written (s.toList ++ ['?']) ++ .char '>' :: rest) := by
    simp [enclosed]
  have hnext : next (.char '<' :: .char '?' :: (written (s.toList ++ ['?']) ++ .char '>' :: rest)) =
      found (questionToken (upTo '>' (written (s.toList ++ ['?']) ++ .char '>' :: rest)).1)
        (upTo '>' (written (s.toList ++ ['?']) ++ .char '>' :: rest)).2 := rfl
  rw [hchars, hnext, upTo_written hinside, questionToken_written hne]
  rfl

theorem chars_questionNode (s : String) : (questionNode s).chars = enclosed "<?" s "?>" := by
  rw [questionNode]
  split <;> rfl

theorem isWritable_questionNode {s : String} (hne : s ≠ "") (hclose : '>' ∉ s.toList) :
    (questionNode s).IsWritable := by
  have hread : (questionNode s).IsReadable := by
    intro rest
    rw [chars_questionNode]
    exact next_question hne hclose rest
  unfold questionNode at hread ⊢
  split
  next hdeclaration =>
    rw [if_pos hdeclaration] at hread
    exact hread
  next hinstruction =>
    rw [if_neg hinstruction] at hread
    exact hread

theorem isSound_of_questionToken {s : Source} {t : Token} (h : questionToken (upTo '>' s).1 = .ok t) : t.IsSound := by
  have hquestion := h
  rw [questionToken] at h
  split at h
  next hlast =>
    obtain ⟨text, htext, -⟩ := map_eq_ok.mp h
    obtain ⟨init, hinit⟩ := List.getLast?_eq_some_iff.mp hlast.1
    have hinside : init = written text.toList := by
      rw [← decoded_eq_ok.mp htext, hinit, List.dropLast_concat]
    have hbody : (upTo '>' s).1 = written (text.toList ++ ['?']) := by
      rw [hinit, hinside, written_append]
      rfl
    have hne : text ≠ "" := by
      rintro rfl
      rw [hinit, hinside] at hlast
      exact hlast.2 rfl
    have hclose : '>' ∉ text.toList := by
      intro hmem
      have hsymbol : Symbol.char '>' ∈ (upTo '>' s).1 := by
        rw [hbody]
        exact List.mem_map.mpr ⟨'>', List.mem_append_left _ hmem, rfl⟩
      have hoff := mem_takeWhile_pos hsymbol
      simp [isChar_char] at hoff
    rw [hbody, questionToken_written hne] at hquestion
    cases hquestion
    exact fun _ => isWritable_questionNode hne hclose
  next => cases h

/-! ## Document types -/

/-- What closes at the first `>` that follows it, given how many `<` are open. -/
def Closes (opened : Int) (body : Source) : Prop :=
  ∀ rest, upToBalanced? opened (body ++ .char '>' :: rest) = some (body, rest)

def openedAfter (opened : Int) (x : Symbol) : Int :=
  if isChar '<' x then opened + 1 else if isChar '>' x then opened - 1 else opened

theorem closes_nil {opened : Int} : Closes opened [] ↔ opened = 0 := by
  have hstep : ∀ rest, upToBalanced? opened (.char '>' :: rest) =
      if opened = 0 then some ([], rest)
      else (upToBalanced? (opened - 1) rest).map fun found => (.char '>' :: found.1, found.2) := by
    intro rest
    rw [upToBalanced?]
    by_cases h : opened = 0
    · rw [if_pos h, if_pos (by simp [isChar_char, h])]
    · rw [if_neg h, if_neg (by simp [h])]
      rfl
  constructor
  · intro h
    have hend := h []
    rw [List.nil_append, hstep] at hend
    by_cases hzero : opened = 0
    · exact hzero
    · rw [if_neg hzero] at hend
      cases hend
  · intro h rest
    rw [List.nil_append, hstep, if_pos h]

theorem closes_cons {opened : Int} {x : Symbol} {body : Source} :
    Closes opened (x :: body) ↔ ¬ (isChar '>' x = true ∧ opened = 0) ∧ Closes (openedAfter opened x) body := by
  have hstep : ∀ rest, upToBalanced? opened (x :: (body ++ .char '>' :: rest)) =
      if isChar '>' x = true ∧ opened = 0 then some ([], body ++ .char '>' :: rest)
      else (upToBalanced? (openedAfter opened x) (body ++ .char '>' :: rest)).map
        fun found => (x :: found.1, found.2) := by
    intro rest
    rw [upToBalanced?]
    by_cases h : isChar '>' x = true ∧ opened = 0
    · rw [if_pos h, if_pos (by simp [h.1, h.2])]
    · rw [if_neg h, if_neg (by simpa using h)]
      rfl
  constructor
  · intro h
    have hopen : ¬ (isChar '>' x = true ∧ opened = 0) := by
      intro hclose
      have hend := h []
      rw [List.cons_append, hstep, if_pos hclose] at hend
      cases hend
    refine ⟨hopen, fun rest => ?_⟩
    have hrest := h rest
    rw [List.cons_append, hstep, if_neg hopen] at hrest
    obtain ⟨⟨b, r⟩, hb, heq⟩ := Option.map_eq_some_iff.mp hrest
    cases heq
    exact hb
  · rintro ⟨hopen, h⟩ rest
    rw [List.cons_append, hstep, if_neg hopen, h rest]
    rfl

theorem closes_of_upToBalanced? {opened : Int} {s body rest : Source}
    (h : upToBalanced? opened s = some (body, rest)) : Closes opened body := by
  induction s generalizing opened body with
  | nil => cases h
  | cons x s ih =>
    rw [upToBalanced?] at h
    split at h
    next hclose =>
      cases h
      simp only [Bool.and_eq_true, beq_iff_eq] at hclose
      exact closes_nil.mpr hclose.2
    next hopen =>
      obtain ⟨⟨b, r⟩, hb, heq⟩ := Option.map_eq_some_iff.mp h
      cases heq
      exact closes_cons.mpr ⟨by simpa using hopen, ih hb⟩

/-- A symbol that neither opens nor closes anything. -/
def IsPlain (x : Symbol) : Prop := isChar '<' x = false ∧ isChar '>' x = false

theorem openedAfter_of_isPlain {x : Symbol} (h : IsPlain x) (opened : Int) : openedAfter opened x = opened := by
  rw [openedAfter, h.1, h.2]
  rfl

theorem closes_append_left {w : Source} (hw : ∀ x ∈ w, IsPlain x) {opened : Int} {body : Source} :
    Closes opened (w ++ body) ↔ Closes opened body := by
  induction w with
  | nil => rfl
  | cons x w ih =>
    have hx := hw x (List.mem_cons_self ..)
    rw [List.cons_append, closes_cons, openedAfter_of_isPlain hx, ih fun y hy => hw y (List.mem_cons_of_mem _ hy), hx.2]
    simp

theorem closes_append_right {w : Source} (hw : ∀ x ∈ w, IsPlain x) {opened : Int} {body : Source} :
    Closes opened (body ++ w) ↔ Closes opened body := by
  induction body generalizing opened with
  | nil =>
    have h : Closes opened (w ++ []) ↔ Closes opened [] := closes_append_left hw
    rw [List.append_nil] at h
    exact h
  | cons x body ih => rw [List.cons_append, closes_cons, closes_cons, ih]

theorem isBlank_of_isSpace {c : Char} (h : isSpace (.char c) = true) : isBlank c = true := by
  simp only [isSpace, Bool.or_eq_true, beq_iff_eq] at h
  obtain ((rfl | rfl) | rfl) | rfl := h <;> decide

theorem isPlain_of_isBlank {c : Char} (h : isBlank c = true) : IsPlain (.char c) := by
  have hne : ∀ d : Char, isBlank d = false → c ≠ d := by
    rintro d hd rfl
    rw [h] at hd
    cases hd
  rw [IsPlain, isChar_char, isChar_char]
  exact ⟨beq_eq_false_iff_ne.mpr (hne '<' (by decide)), beq_eq_false_iff_ne.mpr (hne '>' (by decide))⟩

theorem doctypeToken_written {s : String} (hne : s.toList ≠ []) (hfirst : Halts isBlank s.toList)
    (hlast : Halts isBlank s.toList.reverse) :
    doctypeToken (.char ' ' :: written s.toList) = .ok (.leaf (.doctype s)) := by
  have hstart : (Symbol.char ' ' :: written s.toList).dropWhile isSpace = written s.toList := by
    rw [List.dropWhile_cons, if_pos (by decide)]
    refine Halts.dropWhile fun x hx => ?_
    rw [written, List.head?_map, Option.mem_def, Option.map_eq_some_iff] at hx
    obtain ⟨c, hc, rfl⟩ := hx
    have hblank := hfirst c hc
    cases hspace : isSpace (.char c) with
    | false => rfl
    | true =>
      rw [isBlank_of_isSpace hspace] at hblank
      cases hblank
  have htrim : trim s = s := by
    rw [trim, trimmed_eq_self hfirst hlast, String.ofList_toList]
  rw [doctypeToken, hstart]
  split
  next hnil => exact absurd (List.map_eq_nil_iff.mp hnil) hne
  next =>
    rw [decoded_written]
    change Except.ok (Token.leaf (.doctype (trim s))) = _
    rw [htrim]

theorem next_doctype (s : Source) :
    next (.char '<' :: .char '!' :: (written ['D', 'O', 'C', 'T', 'Y', 'P', 'E'] ++ .char ' ' :: s)) =
      (match upToBalanced? 0 (.char ' ' :: s) with
      | some (body, rest) => found (doctypeToken body) rest
      | none => .error (.unexpectedEnd .doctype)) := rfl

theorem isReadable_doctype {s : String} (hne : s.toList ≠ []) (hfirst : Halts isBlank s.toList)
    (hlast : Halts isBlank s.toList.reverse) (hcloses : Closes 0 (written s.toList)) : (Node.doctype s).IsReadable := by
  intro other
  have hbalanced : upToBalanced? 0 (.char ' ' :: (written s.toList ++ .char '>' :: other)) =
      some (.char ' ' :: written s.toList, other) := by
    have hspace : ∀ x ∈ [Symbol.char ' '], IsPlain x := by
      intro x hx
      rw [List.mem_singleton.mp hx]
      exact isPlain_of_isBlank (by decide)
    exact (closes_append_left hspace).mpr hcloses other
  have hchars : written (Node.doctype s).chars ++ other = .char '<' :: .char '!' ::
      (written ['D', 'O', 'C', 'T', 'Y', 'P', 'E'] ++ .char ' ' :: (written s.toList ++ .char '>' :: other)) := by
    simp [Node.chars, enclosed]
  rw [hchars, next_doctype, hbalanced]
  dsimp only
  rw [doctypeToken_written hne hfirst hlast]
  rfl

theorem closes_trimmed {body : Source} {s : List Char} (hcloses : Closes 0 body)
    (hs : body.dropWhile isSpace = written s) : Closes 0 (written (trimmed s)) := by
  obtain ⟨before, after, hsplit, hbefore, hafter⟩ := exists_blanks_trimmed s
  have hplain : ∀ w : List Char, (∀ c ∈ w, isBlank c = true) → ∀ x ∈ written w, IsPlain x := by
    intro w hw x hx
    obtain ⟨c, hc, rfl⟩ := List.mem_map.mp hx
    exact isPlain_of_isBlank (hw c hc)
  have hspaces : ∀ x ∈ body.takeWhile isSpace, IsPlain x := by
    intro x hx
    have hspace := mem_takeWhile_pos hx
    cases x with
    | char c => exact isPlain_of_isBlank (isBlank_of_isSpace hspace)
    | broken bytes => cases hspace
  have hinner : Closes 0 (written s) := by
    rw [← List.takeWhile_append_dropWhile (p := isSpace) (l := body), closes_append_left hspaces, hs] at hcloses
    exact hcloses
  rw [hsplit, written_append, written_append, closes_append_left (hplain _ hbefore),
    closes_append_right (hplain _ hafter)] at hinner
  exact hinner

theorem isSound_of_doctypeToken {body : Source} {t : Token} (hcloses : Closes 0 body) (h : doctypeToken body = .ok t) :
    t.IsSound := by
  rw [doctypeToken] at h
  split at h
  next => cases h
  next inner hinner =>
    obtain ⟨s, hs, rfl⟩ := map_eq_ok.mp h
    have hclosed := closes_trimmed hcloses (decoded_eq_ok.mp hs)
    intro hnamed
    have htrim : (trim s).toList = trimmed s.toList := String.toList_ofList
    have hne : (trim s).toList ≠ [] := by
      intro hnil
      rw [Node.isNamed, String.toList_eq_nil_iff.mp hnil] at hnamed
      cases hnamed
    refine isReadable_doctype hne ?_ ?_ ?_
    · rw [htrim]
      exact halts_trimmed _
    · rw [htrim]
      exact halts_reverse_trimmed _
    · rw [htrim]
      exact hclosed

/-! ## Tokens -/

theorem next_sound {s rest : Source} {t : Token} (h : next s = .ok (some (t, rest))) : t.IsSound := by
  cases takes_of_next h with
  | comment hclosing htext => exact fun _ => isReadable_comment hclosing htext
  | cdata hword hclosing htext => exact fun _ => isReadable_cdata hclosing htext
  | doctype hword hbalanced htoken => exact isSound_of_doctypeToken (closes_of_upToBalanced? hbalanced) htoken
  | closing htoken =>
    obtain ⟨name, -, rfl⟩ := map_eq_ok.mp htoken
    exact trivial
  | question htoken => exact isSound_of_questionToken htoken
  | opening htoken => exact isSound_of_openingToken htoken
  | text hx htext => exact fun _ => trivial

theorem scanUpTo_sound (limit : Nat) (s : Source) : ∀ p ∈ (scanUpTo limit s).tokens, p.1.IsSound := by
  induction limit generalizing s with
  | zero => exact fun p hp => by cases hp
  | succ limit ih =>
    rw [scanUpTo]
    split
    · exact fun p hp => by cases hp
    · exact fun p hp => by cases hp
    next hnext =>
      intro p hp
      obtain rfl | hp := List.mem_cons.mp hp
      · exact next_sound hnext
      · exact ih _ p hp

/-! ## Trees -/

namespace Builder

/-- All that has been put together is read back if its names are names. -/
structure IsSound (b : Builder) : Prop where
  opened : ∀ e ∈ b.opened, e.1.IsSound ∧ ∀ n ∈ e.2, n.IsSound
  finished : ∀ n ∈ b.finished, n.IsSound

theorem IsSound.add {b : Builder} (h : b.IsSound) {n : Node} (hn : n.IsSound) : (b.add n).IsSound := by
  unfold Builder.add
  split
  next hnone =>
    refine ⟨h.opened, fun m hm => ?_⟩
    obtain rfl | hm := List.mem_cons.mp hm
    · exact hn
    · exact h.finished m hm
  next tag children outer hopened =>
    have hinner := h.opened (tag, children) (hopened ▸ List.mem_cons_self ..)
    refine ⟨fun e he => ?_, h.finished⟩
    obtain rfl | he := List.mem_cons.mp he
    · refine ⟨hinner.1, fun m hm => ?_⟩
      obtain rfl | hm := List.mem_cons.mp hm
      · exact hn
      · exact hinner.2 m hm
    · exact h.opened e (hopened ▸ List.mem_cons_of_mem _ he)

theorem isSound_element {t : Tag} (ht : t.IsSound) {cs : List Node} (hcs : ∀ n ∈ cs, n.IsSound) :
    (Node.element t cs).IsSound := by
  intro hnamed
  rw [Node.isNamed, Bool.and_eq_true, Node.allNamed_iff] at hnamed
  exact ⟨ht hnamed.1, Node.allWritable_iff.mpr fun n hn => hcs n hn (hnamed.2 n hn)⟩

theorem IsSound.step {size : Nat} {b c : Builder} (h : b.IsSound) {t : Token} (ht : t.IsSound) {rest : Source}
    (hstep : step size b t rest = .ok c) : c.IsSound := by
  cases t with
  | startTag tag =>
    cases hstep
    refine ⟨fun e he => ?_, h.finished⟩
    obtain rfl | he := List.mem_cons.mp he
    · exact ⟨ht, fun n hn => by cases hn⟩
    · exact h.opened e he
  | emptyTag tag =>
    cases hstep
    exact h.add (isSound_element ht fun n hn => by cases hn)
  | leaf n =>
    cases hstep
    exact h.add ht
  | endTag name =>
    rw [Builder.step] at hstep
    split at hstep
    next => cases hstep
    next tag children outer hopened =>
      split at hstep
      next =>
        cases hstep
        have hinner := h.opened (tag, children) (hopened ▸ List.mem_cons_self ..)
        have houter : Builder.IsSound { b with opened := outer } :=
          ⟨fun e he => h.opened e (hopened ▸ List.mem_cons_of_mem _ he), h.finished⟩
        exact houter.add (isSound_element hinner.1 fun n hn => hinner.2 n (List.mem_reverse.mp hn))
      next => cases hstep

theorem IsSound.run {size : Nat} {b c : Builder} (h : b.IsSound) {tokens : List (Token × Source)}
    (htokens : ∀ p ∈ tokens, p.1.IsSound) (hrun : run size b tokens = .ok c) : c.IsSound := by
  induction tokens generalizing b with
  | nil =>
    cases hrun
    exact h
  | cons p tokens ih =>
    rw [Builder.run] at hrun
    split at hrun
    next hstep =>
      exact ih (h.step (htokens p (List.mem_cons_self ..)) hstep)
        (fun q hq => htokens q (List.mem_cons_of_mem _ hq)) hrun
    next => cases hrun

end Builder

theorem whole_of_parse {bytes : Bytes} {part : Node} (h : parse bytes = .ok part) : part = .document part.children := by
  rw [parse, build] at h
  split at h
  · cases h
  · split at h
    · cases h
    · cases h
    · cases h
      rfl

theorem isWritablePart_of_parse {bytes : Bytes} {part : Node} (h : parse bytes = .ok part)
    (hwell : part.isWellFormed = true) : part.IsWritablePart := by
  have hnone : Builder.IsSound ⟨[], []⟩ := ⟨fun e he => (nomatch he), fun n hn => (nomatch hn)⟩
  rw [parse, build] at h
  split at h
  next => cases h
  next b hrun =>
    split at h
    next => cases h
    next => cases h
    next =>
      cases h
      have hsound := hnone.run (scanUpTo_sound _ _) hrun
      rw [Node.isWellFormed, Bool.and_eq_true, Node.allNamed_iff, List.all_eq_true] at hwell
      refine ⟨rfl, Node.allWritable_iff.mpr fun n hn => ?_, fun s hs => ?_⟩
      · exact hsound.finished n (List.mem_reverse.mp hn) (hwell.1 n hn)
      · have hmark := hwell.2 _ hs
        simpa using hmark

end Spreadsheet.Markup
