import Mathlib.Data.List.Forall2
import Mathlib.Data.Nat.Digits.Defs
import Spreadsheet.Book.EscapeScan
import Spreadsheet.Proofs.Outcome

/-! # Escapes in texts

An escape is `_xHHHH_` with four hexadecimal digits that number a character. Texts are read from left to right: an escape
that is met is replaced, and what begins none is kept, so that no digit of a sequence that turns out to be no escape is lost
for the next one.

* `IsEscape`: the escapes of a character.
* `Piece`, `IsLeftmost`: a text cut into characters that are kept and escapes, from left to right.
* `decodeEscapes_leftmost`: a decoded text is the text cut in the only such way. -/

set_option autoImplicit false

namespace Spreadsheet.Book

open Markup

/-! ## Escapes -/

/-- The value of a hexadecimal digit, with its letter in either case. -/
def HasHexValue (d : Char) (n : Nat) : Prop :=
  n < 10 ∧ d.toNat = '0'.toNat + n ∨
    10 ≤ n ∧ n < 16 ∧ (d.toNat = 'a'.toNat + (n - 10) ∨ d.toNat = 'A'.toNat + (n - 10))

/-- The number of a surrogate, which is no character. -/
def IsSurrogate (n : Nat) : Prop := 0xD800 ≤ n ∧ n ≤ 0xDFFF

/-- An escape: four hexadecimal digits with the number of a character, between `_x` and an underscore. -/
def IsEscape (e : List Char) (c : Char) : Prop :=
  ∃ digits values, e = '_' :: 'x' :: (digits ++ ['_']) ∧ digits.length = 4 ∧ List.Forall₂ HasHexValue digits values ∧
    ¬IsSurrogate (Nat.ofDigits 16 values.reverse) ∧ c = Char.ofNat (Nat.ofDigits 16 values.reverse)

theorem hexValue?_eq_some {d : Char} {n : Nat} : hexValue? d = some n ↔ HasHexValue d n := by
  have hle : ∀ c c' : Char, c ≤ c' ↔ c.toNat ≤ c'.toNat := fun c c' => Iff.rfl
  simp only [hexValue?, HasHexValue, hle]
  have h0 : '0'.toNat = 48 := rfl
  have h9 : '9'.toNat = 57 := rfl
  have ha : 'a'.toNat = 97 := rfl
  have hf : 'f'.toNat = 102 := rfl
  have hA : 'A'.toNat = 65 := rfl
  have hF : 'F'.toNat = 70 := rfl
  rw [h0, h9, ha, hf, hA, hF]
  split_ifs <;> simp only [Option.some.injEq, false_iff] <;> omega

theorem HasHexValue.lt {d : Char} {n : Nat} (h : HasHexValue d n) : n < 16 := by
  unfold HasHexValue at h
  omega

theorem HasHexValue.ne_mark {d : Char} {n : Nat} (h : HasHexValue d n) : d ≠ '_' := by
  rintro rfl
  have hmark : hexValue? '_' = none := by decide
  rw [hexValue?_eq_some.mpr h] at hmark
  cases hmark

theorem readDigitsFrom_eq_ok {digits : List Char} {m n : Nat} : readDigitsFrom 16 hexValue? m digits = .ok n ↔
    ∃ values, List.Forall₂ HasHexValue digits values ∧ n = Nat.ofDigits 16 (values.reverse ++ [m]) := by
  induction digits generalizing m with
  | nil => simp [readDigitsFrom, eq_comm]
  | cons d digits ih =>
    have hstep : ∀ (values : List Nat) v, Nat.ofDigits 16 (values.reverse ++ [16 * m + v]) =
        Nat.ofDigits 16 ((v :: values).reverse ++ [m]) := by
      intro values v
      simp only [Nat.ofDigits_append, List.reverse_cons, List.length_reverse, List.length_singleton,
        Nat.ofDigits_singleton, pow_succ, List.append_assoc]
      ring
    rw [readDigitsFrom]
    cases hd : hexValue? d with
    | none =>
      simp only [reduceCtorEq, false_iff]
      rintro ⟨values, hvalues, -⟩
      obtain ⟨v, values, hv, -, rfl⟩ := List.forall₂_cons_left_iff.mp hvalues
      rw [hexValue?_eq_some.mpr hv] at hd
      cases hd
    | some v =>
      rw [ih]
      constructor
      · rintro ⟨values, hvalues, rfl⟩
        exact ⟨v :: values, .cons (hexValue?_eq_some.mp hd) hvalues, hstep values v⟩
      · rintro ⟨all, hall, rfl⟩
        obtain ⟨w, values, hw, hvalues, rfl⟩ := List.forall₂_cons_left_iff.mp hall
        obtain rfl : w = v := Option.some.inj ((hexValue?_eq_some.mpr hw).symm.trans hd)
        exact ⟨values, hvalues, (hstep values w).symm⟩

theorem charOf?_eq_some {n : Nat} (hn : n < 0x10000) {c : Char} :
    charOf? n = some c ↔ ¬IsSurrogate n ∧ c = Char.ofNat n := by
  rw [charOf?, IsSurrogate]
  by_cases h : n.isValidChar
  · have hvalid : n < 0xD800 ∨ 0xDFFF < n ∧ n < 0x110000 := h
    have hchar : Char.ofNat n = Char.ofNatAux n h := dif_pos h
    rw [dif_pos h, hchar, Option.some.injEq, eq_comm, iff_and_self]
    omega
  · have hvalid : ¬(n < 0xD800 ∨ 0xDFFF < n ∧ n < 0x110000) := h
    rw [dif_neg h]
    constructor
    · intro hc
      cases hc
    · omega

theorem lt_of_mem_values {digits : List Char} {values : List Nat} (h : List.Forall₂ HasHexValue digits values) :
    ∀ v ∈ values, v < 16 := by
  induction h with
  | nil => simp
  | cons hd _ ih => simpa [hd.lt] using ih

theorem ofDigits_reverse_lt {digits : List Char} {values : List Nat} (h : List.Forall₂ HasHexValue digits values)
    (hlength : digits.length = 4) : Nat.ofDigits 16 values.reverse < 0x10000 := by
  have hvalues : ∀ v ∈ values.reverse, v < 16 := fun v hv => lt_of_mem_values h v (List.mem_reverse.mp hv)
  have hlt := Nat.ofDigits_lt_base_pow_length (by decide) hvalues
  rw [List.length_reverse, ← h.length_eq, hlength] at hlt
  exact hlt

theorem namedChar?_eq_some {digits : List Char} (hlength : digits.length = 4) {c : Char} :
    namedChar? digits = some c ↔ IsEscape ('_' :: 'x' :: (digits ++ ['_'])) c := by
  rw [namedChar?, Option.bind_eq_some_iff]
  constructor
  · rintro ⟨n, hn, hc⟩
    obtain ⟨values, hvalues, rfl⟩ := readDigitsFrom_eq_ok.mp (eq_ok_of_toOption hn)
    rw [Nat.ofDigits_append_zero] at hc
    obtain ⟨hsurrogate, rfl⟩ := (charOf?_eq_some (ofDigits_reverse_lt hvalues hlength)).mp hc
    exact ⟨digits, values, rfl, hlength, hvalues, hsurrogate, rfl⟩
  · rintro ⟨others, values, heq, -, hvalues, hsurrogate, hc⟩
    simp only [List.cons.injEq, true_and, List.append_left_inj] at heq
    subst heq
    refine ⟨Nat.ofDigits 16 values.reverse, ?_, (charOf?_eq_some (ofDigits_reverse_lt hvalues hlength)).mpr ⟨hsurrogate, hc⟩⟩
    rw [readDigitsFrom_eq_ok.mpr ⟨values, hvalues, rfl⟩, Nat.ofDigits_append_zero]
    rfl

theorem escape?_eq_some {s rest : List Char} {c : Char} :
    escape? s = some (c, rest) ↔ ∃ e, IsEscape e c ∧ s = e ++ rest := by
  constructor
  · intro h
    unfold escape? at h
    split at h
    next d₁ d₂ d₃ d₄ tail =>
      obtain ⟨c', hc', heq⟩ := Option.map_eq_some_iff.mp h
      cases heq
      have hlength : [d₁, d₂, d₃, d₄].length = 4 := rfl
      exact ⟨_, (namedChar?_eq_some hlength).mp hc', rfl⟩
    next => cases h
  · rintro ⟨_, he, rfl⟩
    obtain ⟨digits, values, rfl, hlength, -⟩ := id he
    obtain ⟨d₁, d₂, d₃, d₄, rfl⟩ : ∃ d₁ d₂ d₃ d₄, digits = [d₁, d₂, d₃, d₄] := by
      match digits, hlength with
      | [d₁, d₂, d₃, d₄], _ => exact ⟨d₁, d₂, d₃, d₄, rfl⟩
    exact congrArg (Option.map fun c => (c, rest)) ((namedChar?_eq_some hlength).mpr he)

theorem escape?_eq_none {s : List Char} : escape? s = none ↔ ∀ e c, IsEscape e c → ¬e <+: s := by
  constructor
  · rintro h e c he ⟨rest, rfl⟩
    rw [escape?_eq_some.mpr ⟨e, he, rfl⟩] at h
    cases h
  · intro h
    rw [Option.eq_none_iff_forall_ne_some]
    rintro ⟨c, rest⟩ hsome
    obtain ⟨e, he, rfl⟩ := escape?_eq_some.mp hsome
    exact h e c he ⟨rest, rfl⟩

theorem IsEscape.append_inj {e e' rest rest' : List Char} {c c' : Char} (he : IsEscape e c) (he' : IsEscape e' c')
    (h : e ++ rest = e' ++ rest') : e = e' ∧ c = c' ∧ rest = rest' := by
  have hsome := (escape?_eq_some.mpr ⟨e, he, rfl⟩).symm.trans ((congrArg escape? h).trans (escape?_eq_some.mpr ⟨e', he', rfl⟩))
  cases hsome
  exact ⟨List.append_cancel_right h, rfl, rfl⟩

theorem IsEscape.ne_nil {e : List Char} {c : Char} (h : IsEscape e c) : e ≠ [] := by
  obtain ⟨digits, values, rfl, -⟩ := h
  simp

theorem escape?_eq_none_of_head {c : Char} {s : List Char} (h : ¬(c = '_' ∧ s.head? = some 'x')) :
    escape? (c :: s) = none := by
  rw [escape?_eq_none]
  rintro e c' ⟨digits, values, rfl, -⟩ ⟨rest, heq⟩
  simp only [List.cons_append, List.cons.injEq] at heq
  obtain ⟨rfl, rfl⟩ := heq
  exact h ⟨rfl, rfl⟩

/-! ## Texts cut from left to right -/

/-- A part of a text: a character that is kept, or an escape of a character. -/
inductive Piece where
  | kept (c : Char)
  | escape (e : List Char) (c : Char)

def Piece.source : Piece → List Char
  | .kept c => [c]
  | .escape e _ => e

def Piece.char : Piece → Char
  | .kept c => c
  | .escape _ c => c

/-- A text cut into escapes and kept characters, where no escape begins at a character that is kept. -/
structure IsLeftmost (s : List Char) (pieces : List Piece) : Prop where
  source : s = pieces.flatMap Piece.source
  escapes : ∀ e c, .escape e c ∈ pieces → IsEscape e c
  kept : ∀ before c after, pieces = before ++ .kept c :: after →
    ∀ e c', IsEscape e c' → ¬e <+: c :: after.flatMap Piece.source

theorem isLeftmost_nil {s : List Char} : IsLeftmost s [] ↔ s = [] := by
  constructor
  · intro h
    exact h.source
  · rintro rfl
    exact ⟨rfl, by simp, by simp⟩

/-- The first part of a text, with the text after it. -/
inductive IsNext : List Char → Piece → List Char → Prop where
  | kept {c : Char} {rest : List Char} (h : ∀ e c', IsEscape e c' → ¬e <+: c :: rest) : IsNext (c :: rest) (.kept c) rest
  | escape {e : List Char} {c : Char} {rest : List Char} (h : IsEscape e c) : IsNext (e ++ rest) (.escape e c) rest

theorem IsNext.ne_nil {s rest : List Char} {p : Piece} (h : IsNext s p rest) : s ≠ [] := by
  cases h with
  | kept _ => exact List.cons_ne_nil _ _
  | escape h => exact List.append_ne_nil_of_left_ne_nil h.ne_nil _

theorem IsNext.unique {s rest rest' : List Char} {p p' : Piece} (h : IsNext s p rest) (h' : IsNext s p' rest') :
    p' = p ∧ rest' = rest := by
  generalize heq : s = s' at h'
  cases h with
  | kept hnone =>
    cases h' with
    | kept _ =>
      cases heq
      exact ⟨rfl, rfl⟩
    | escape he => exact absurd ⟨_, heq.symm⟩ (hnone _ _ he)
  | escape he =>
    cases h' with
    | kept hnone => exact absurd ⟨_, heq⟩ (hnone _ _ he)
    | escape he' =>
      obtain ⟨rfl, rfl, rfl⟩ := he.append_inj he' heq
      exact ⟨rfl, rfl⟩

theorem exists_isNext {s : List Char} (hs : s ≠ []) : ∃ p rest, IsNext s p rest ∧ rest.length < s.length := by
  cases hescape : escape? s with
  | none =>
    obtain ⟨c, rest, rfl⟩ := List.exists_cons_of_ne_nil hs
    exact ⟨.kept c, rest, .kept (escape?_eq_none.mp hescape), by simp⟩
  | some found =>
    obtain ⟨c, rest⟩ := found
    obtain ⟨e, he, rfl⟩ := escape?_eq_some.mp hescape
    exact ⟨.escape e c, rest, .escape he, length_lt_of_escape? hescape⟩

/-- A text is cut by cutting off its first part and then what comes after it. -/
theorem isLeftmost_cons {s : List Char} {p : Piece} {pieces : List Piece} :
    IsLeftmost s (p :: pieces) ↔ ∃ rest, IsNext s p rest ∧ IsLeftmost rest pieces := by
  constructor
  · rintro ⟨rfl, hescapes, hkept⟩
    refine ⟨pieces.flatMap Piece.source, ?_, rfl, fun e c h => hescapes e c (.tail _ h), ?_⟩
    · cases p with
      | kept c => exact .kept (hkept [] c pieces rfl)
      | escape e c => exact .escape (hescapes e c (.head _))
    · rintro before c after rfl
      exact hkept (p :: before) c after rfl
  · rintro ⟨rest, hnext, rfl, hescapes, hkept⟩
    cases hnext with
    | @kept c _ hnone =>
      refine ⟨rfl, ?_, ?_⟩
      · rintro e c' (_ | ⟨_, h⟩)
        exact hescapes e c' h
      · intro before d after h
        obtain ⟨rfl, heq⟩ | ⟨before, rfl, heq⟩ := List.cons_eq_append_iff.mp h
        · cases heq
          exact hnone
        · exact hkept before d after heq
    | @escape e c _ he =>
      refine ⟨rfl, ?_, ?_⟩
      · rintro e' c' (_ | ⟨_, h⟩)
        · exact he
        · exact hescapes e' c' h
      · intro before d after h
        obtain ⟨rfl, heq⟩ | ⟨before, rfl, heq⟩ := List.cons_eq_append_iff.mp h
        · cases heq
        · exact hkept before d after heq

theorem IsLeftmost.unique {s : List Char} {pieces others : List Piece} (h : IsLeftmost s pieces)
    (hothers : IsLeftmost s others) : others = pieces := by
  induction pieces generalizing s others with
  | nil =>
    obtain rfl := isLeftmost_nil.mp h
    cases others with
    | nil => rfl
    | cons p others =>
      obtain ⟨rest, hnext, -⟩ := isLeftmost_cons.mp hothers
      exact absurd rfl hnext.ne_nil
  | cons p pieces ih =>
    obtain ⟨rest, hnext, hrest⟩ := isLeftmost_cons.mp h
    cases others with
    | nil => exact absurd (isLeftmost_nil.mp hothers) hnext.ne_nil
    | cons p' others =>
      obtain ⟨rest', hnext', hrest'⟩ := isLeftmost_cons.mp hothers
      obtain ⟨rfl, rfl⟩ := hnext.unique hnext'
      rw [ih hrest hrest']

/-! ## What is decoded -/

theorem decodeEscapesIn_nil : decodeEscapesIn [] = [] := by rw [decodeEscapesIn]

theorem decodeEscapesIn_kept {c : Char} {s : List Char} (h : escape? (c :: s) = none) :
    decodeEscapesIn (c :: s) = c :: decodeEscapesIn s := by
  rw [decodeEscapesIn]
  split
  next hsome =>
    rw [h] at hsome
    cases hsome
  next => rfl

theorem decodeEscapesIn_escape {e : List Char} {c : Char} (he : IsEscape e c) (rest : List Char) :
    decodeEscapesIn (e ++ rest) = c :: decodeEscapesIn rest := by
  have hsome : escape? (e ++ rest) = some (c, rest) := escape?_eq_some.mpr ⟨e, he, rfl⟩
  obtain ⟨d, s, hs⟩ := List.exists_cons_of_ne_nil (List.append_ne_nil_of_left_ne_nil he.ne_nil rest)
  rw [hs] at hsome ⊢
  rw [decodeEscapesIn]
  split
  next h =>
    rw [hsome] at h
    cases h
    rfl
  next h =>
    rw [hsome] at h
    cases h

theorem IsNext.decodeEscapesIn {s rest : List Char} {p : Piece} (h : IsNext s p rest) :
    decodeEscapesIn s = p.char :: decodeEscapesIn rest := by
  cases h with
  | kept hnone => exact decodeEscapesIn_kept (escape?_eq_none.mpr hnone)
  | escape he => exact decodeEscapesIn_escape he rest

theorem exists_isLeftmost (s : List Char) :
    ∃ pieces, IsLeftmost s pieces ∧ decodeEscapesIn s = pieces.map Piece.char := by
  induction hlength : s.length using Nat.strongRecOn generalizing s with
  | ind n ih =>
    subst hlength
    by_cases hs : s = []
    · subst hs
      exact ⟨[], isLeftmost_nil.mpr rfl, decodeEscapesIn_nil⟩
    · obtain ⟨p, rest, hnext, hlt⟩ := exists_isNext hs
      obtain ⟨pieces, hpieces, hdecode⟩ := ih rest.length hlt rest rfl
      refine ⟨p :: pieces, isLeftmost_cons.mpr ⟨rest, hnext, hpieces⟩, ?_⟩
      rw [hnext.decodeEscapesIn, hdecode, List.map_cons]

theorem decodeEscapesIn_eq_self {s : List Char} (h : ∀ e c, IsEscape e c → ¬e <:+: s) : decodeEscapesIn s = s := by
  induction s with
  | nil => exact decodeEscapesIn_nil
  | cons c s ih =>
    have hnone : escape? (c :: s) = none := escape?_eq_none.mpr fun e d he hstart => h e d he hstart.isInfix
    rw [decodeEscapesIn_kept hnone, ih fun e d he hoccurs => h e d he (hoccurs.trans (List.suffix_cons c s).isInfix)]

theorem decodeEscapesIn_append {l : List Char} (h : '_' ∉ l) (s : List Char) :
    decodeEscapesIn (l ++ s) = l ++ decodeEscapesIn s := by
  induction l with
  | nil => rfl
  | cons c l ih =>
    rw [List.mem_cons, not_or] at h
    rw [List.cons_append, decodeEscapesIn_kept (escape?_eq_none_of_head fun hmark => h.1 hmark.1.symm), ih h.2,
      List.cons_append]

/-! ## The scan -/

theorem exists_value_of_mem_hexRun {limit : Nat} {s : List Char} {d : Char} (h : d ∈ (hexRun limit s).1) :
    ∃ n, HasHexValue d n := by
  induction limit, s using hexRun.induct with
  | case1 limit c s hc ih =>
    rw [hexRun, if_pos hc] at h
    obtain rfl | h := List.mem_cons.mp h
    · obtain ⟨n, hn⟩ := Option.isSome_iff_exists.mp hc
      exact ⟨n, hexValue?_eq_some.mp hn⟩
    · exact ih h
  | case2 limit c s hc =>
    rw [hexRun, if_neg hc] at h
    cases h
  | case3 limit s hs =>
    rw [hexRun] at h
    · cases h
    · exact hs

theorem hexRun_digits {digits : List Char} {values : List Nat} (h : List.Forall₂ HasHexValue digits values)
    (rest : List Char) : hexRun digits.length (digits ++ rest) = (digits, rest) := by
  induction h with
  | nil => cases rest <;> rfl
  | cons hd _ ih => simp [hexRun, hexValue?_eq_some.mpr hd, ih]

theorem closedChar?_eq_some {digits rest : List Char} {c : Char} : closedChar? digits rest = some c ↔
    IsEscape ('_' :: 'x' :: (digits ++ ['_'])) c ∧ ∃ tail, rest = '_' :: tail := by
  rw [closedChar?, Option.ite_none_right_eq_some, List.head?_eq_some_iff]
  constructor
  · rintro ⟨⟨hlength, hmark⟩, h⟩
    exact ⟨(namedChar?_eq_some hlength).mp h, hmark⟩
  · rintro ⟨h, hmark⟩
    have hlength : digits.length = 4 := by
      obtain ⟨others, values, heq, hlength, -⟩ := id h
      simp only [List.cons.injEq, true_and, List.append_left_inj] at heq
      rw [heq, hlength]
    exact ⟨⟨hlength, hmark⟩, (namedChar?_eq_some hlength).mpr h⟩

theorem escape?_eq_none_of_closedChar? {s : List Char} (h : closedChar? (hexRun 4 s).1 (hexRun 4 s).2 = none) :
    escape? ('_' :: 'x' :: s) = none := by
  rw [escape?_eq_none]
  rintro _ c he ⟨rest, heq⟩
  obtain ⟨digits, values, rfl, hlength, hvalues, -⟩ := id he
  simp only [List.cons_append, List.cons.injEq, true_and, List.append_assoc, List.nil_append] at heq
  have hrun := hexRun_digits hvalues ('_' :: rest)
  rw [hlength, heq] at hrun
  rw [hrun, closedChar?_eq_some.mpr ⟨he, rest, rfl⟩] at h
  cases h

theorem mark_not_mem_hexRun (s : List Char) : '_' ∉ (hexRun 4 s).1 := by
  intro h
  obtain ⟨n, hn⟩ := exists_value_of_mem_hexRun h
  exact hn.ne_mark rfl

/-- The scan reads a text as it is read when each escape is looked for at its start. -/
theorem scanEscapes_eq (s : List Char) : scanEscapes s = decodeEscapesIn s := by
  induction s using scanEscapes.induct with
  | case1 => rw [scanEscapes, decodeEscapesIn_nil]
  | case2 s c hclosed ih =>
    obtain ⟨he, tail, htail⟩ := closedChar?_eq_some.mp hclosed
    have hs : '_' :: 'x' :: s = '_' :: 'x' :: ((hexRun 4 s).1 ++ ['_']) ++ tail := by
      conv_lhs => rw [← hexRun_append 4 s, htail]
      simp
    rw [htail, List.tail_cons] at ih
    rw [hs, decodeEscapesIn_escape he, ← ih, ← hs, scanEscapes, hclosed, htail]
    rfl
  | case3 s hclosed ih =>
    have hnone := escape?_eq_none_of_closedChar? hclosed
    have hx : escape? ('x' :: s) = none := escape?_eq_none_of_head (by simp)
    have hs := decodeEscapesIn_append (mark_not_mem_hexRun s) (hexRun 4 s).2
    rw [hexRun_append] at hs
    rw [scanEscapes, hclosed, decodeEscapesIn_kept hnone, decodeEscapesIn_kept hx, ih, hs]
  | case4 c s hstart ih =>
    have hnone : escape? (c :: s) = none := by
      refine escape?_eq_none_of_head ?_
      rintro ⟨rfl, hx⟩
      obtain ⟨tail, rfl⟩ := List.head?_eq_some_iff.mp hx
      exact hstart tail rfl rfl
    rw [scanEscapes, decodeEscapesIn_kept hnone, ih]
    exact hstart

theorem decodeEscapesIn_of_hasEscapeStart {s : List Char} (h : hasEscapeStart s = false) : decodeEscapesIn s = s := by
  induction s with
  | nil => exact decodeEscapesIn_nil
  | cons c s ih =>
    simp only [hasEscapeStart, Bool.or_eq_false_iff, Bool.and_eq_false_imp, beq_iff_eq, beq_eq_false_iff_ne] at h
    rw [decodeEscapesIn_kept (escape?_eq_none_of_head fun hstart => h.1 hstart.1 hstart.2), ih h.2]

theorem decodeScanned_eq (s : String) : decodeScanned s = decodeEscapes s := by
  rw [decodeScanned, decodeEscapes, scanEscapes_eq]
  split
  next => rfl
  next h => rw [decodeEscapesIn_of_hasEscapeStart (eq_false_of_ne_true h), String.ofList_toList]

/-! ## Texts whose escapes are protected -/

/-- A text with each underscore before an `x` written as the escape of an underscore. -/
def protectEscapesIn : List Char → List Char
  | [] => []
  | c :: s => (if c = '_' ∧ s.head? = some 'x' then "_x005f_".toList else [c]) ++ protectEscapesIn s

def protectEscapes (s : String) : String := String.ofList (protectEscapesIn s.toList)

theorem isEscape_mark : IsEscape "_x005f_".toList '_' := by
  have hmark : escape? "_x005f_".toList = some ('_', []) := by decide
  obtain ⟨e, he, heq⟩ := escape?_eq_some.mp hmark
  rwa [heq, List.append_nil]

theorem head?_protectEscapesIn (s : List Char) : (protectEscapesIn s).head? = s.head? := by
  cases s with
  | nil => rfl
  | cons c s =>
    rw [protectEscapesIn]
    split
    next h => simp [h.1]
    next => rfl

theorem decodeEscapesIn_protectEscapesIn (s : List Char) : decodeEscapesIn (protectEscapesIn s) = s := by
  induction s with
  | nil => exact decodeEscapesIn_nil
  | cons c s ih =>
    rw [protectEscapesIn]
    split
    next h => rw [decodeEscapesIn_escape isEscape_mark, ih, h.1]
    next h =>
      rw [← head?_protectEscapesIn] at h
      rw [List.singleton_append, decodeEscapesIn_kept (escape?_eq_none_of_head h), ih]

/-- A decoded string is the string cut from left to right, with each escape replaced by its character. A string without
escapes is kept as it is, and one whose escapes are protected is read as it was. -/
theorem decodeEscapes_leftmost (s : String) :
    decodeScanned s = decodeEscapes s ∧
      (∃ pieces, IsLeftmost s.toList pieces ∧ (∀ others, IsLeftmost s.toList others → others = pieces) ∧
        decodeEscapes s = String.ofList (pieces.map Piece.char)) ∧
      ((∀ e c, IsEscape e c → ¬e <:+: s.toList) → decodeEscapes s = s) ∧
      decodeEscapes (protectEscapes s) = s := by
  refine ⟨decodeScanned_eq s, ?_, ?_, ?_⟩
  · obtain ⟨pieces, hpieces, hdecode⟩ := exists_isLeftmost s.toList
    exact ⟨pieces, hpieces, fun others => hpieces.unique, congrArg String.ofList hdecode⟩
  · intro h
    rw [decodeEscapes, decodeEscapesIn_eq_self h, String.ofList_toList]
  · rw [decodeEscapes, protectEscapes, String.toList_ofList, decodeEscapesIn_protectEscapesIn, String.ofList_toList]

example : decodeEscapes "_x00_x000a_x_x005fx" = "_x00\nx_x005fx" := by decide +kernel

end Spreadsheet.Book
