import Spreadsheet.Text.Utf8

/-! # Encoded text is decoded

* `first_encodeChar`: the bytes of a character are read as that character, whatever follows them.
* `decode_encodeChars`: so the bytes of a text are read as that text.
* `strict_eq_ok`: symbols are a text exactly when all of them are characters. -/

set_option autoImplicit false

namespace Spreadsheet.Text.Utf8

/-! ## Bytes -/

theorem toNat_ofNat {n : Nat} (h : n < 256) : (UInt8.ofNat n).toNat = n := UInt8.toNat_ofNat_of_lt' h

theorem isContinuation_iff {b : UInt8} : isContinuation b = true ↔ 0x80 ≤ b.toNat ∧ b.toNat ≤ 0xBF := by
  simp [isContinuation, UInt8.le_iff_toNat_le]

theorem isContinuation_ofNat {n : Nat} (h : n < 64) : isContinuation (UInt8.ofNat (0x80 + n)) = true := by
  rw [isContinuation_iff, toNat_ofNat (by omega)]
  omega

theorem isSecond_iff {lead b : UInt8} : isSecond lead b = true ↔ 0x80 ≤ b.toNat ∧ b.toNat ≤ 0xBF ∧
    (lead.toNat = 0xE0 → 0xA0 ≤ b.toNat) ∧ (lead.toNat = 0xED → b.toNat ≤ 0x9F) ∧
    (lead.toNat = 0xF0 → 0x90 ≤ b.toNat) ∧ (lead.toNat = 0xF4 → b.toNat ≤ 0x8F) := by
  have heq : ∀ c : UInt8, lead = c ↔ lead.toNat = c.toNat := fun c => UInt8.toNat_inj.symm
  simp only [isSecond, isContinuation, beq_iff_eq, heq]
  repeat' split
  all_goals simp_all [UInt8.le_iff_toNat_le]
  all_goals omega

theorem first_one {lead : UInt8} (h : lead.toNat < 0x80) (rest : Bytes) :
    first lead rest = (.char (Char.ofNat lead.toNat), rest) := by
  unfold first
  rw [if_pos (UInt8.lt_iff_toNat_lt.mpr h)]

theorem first_two {lead b : UInt8} (hlow : 0xC2 ≤ lead.toNat) (hhigh : lead.toNat ≤ 0xDF)
    (hb : isContinuation b = true) (rest : Bytes) :
    first lead (b :: rest) = (complete (lead.toNat - 0xC0) [b], rest) := by
  have hone : ¬ lead < 0x80 := by
    simp [UInt8.lt_iff_toNat_lt]
    omega
  have htwo : (0xC2 ≤ lead && lead ≤ 0xDF) = true := by simpa [UInt8.le_iff_toNat_le] using ⟨hlow, hhigh⟩
  unfold first
  rw [if_neg hone, if_pos htwo]
  dsimp only
  rw [if_pos hb]

theorem first_three {lead b c : UInt8} (hlow : 0xE0 ≤ lead.toNat) (hhigh : lead.toNat ≤ 0xEF)
    (hb : isSecond lead b = true) (hc : isContinuation c = true) (rest : Bytes) :
    first lead (b :: c :: rest) = (complete (lead.toNat - 0xE0) [b, c], rest) := by
  have hone : ¬ lead < 0x80 := by
    simp [UInt8.lt_iff_toNat_lt]
    omega
  have htwo : ¬ (0xC2 ≤ lead && lead ≤ 0xDF) = true := by
    simp [UInt8.le_iff_toNat_le]
    omega
  have hthree : (0xE0 ≤ lead && lead ≤ 0xEF) = true := by simpa [UInt8.le_iff_toNat_le] using ⟨hlow, hhigh⟩
  unfold first
  rw [if_neg hone, if_neg htwo, if_pos hthree]
  dsimp only
  rw [if_pos hb, if_pos hc]

theorem first_four {lead b c d : UInt8} (hlow : 0xF0 ≤ lead.toNat) (hhigh : lead.toNat ≤ 0xF4)
    (hb : isSecond lead b = true) (hc : isContinuation c = true) (hd : isContinuation d = true) (rest : Bytes) :
    first lead (b :: c :: d :: rest) = (complete (lead.toNat - 0xF0) [b, c, d], rest) := by
  have hone : ¬ lead < 0x80 := by
    simp [UInt8.lt_iff_toNat_lt]
    omega
  have htwo : ¬ (0xC2 ≤ lead && lead ≤ 0xDF) = true := by
    simp [UInt8.le_iff_toNat_le]
    omega
  have hthree : ¬ (0xE0 ≤ lead && lead ≤ 0xEF) = true := by
    simp [UInt8.le_iff_toNat_le]
    omega
  have hfour : (0xF0 ≤ lead && lead ≤ 0xF4) = true := by simpa [UInt8.le_iff_toNat_le] using ⟨hlow, hhigh⟩
  unfold first
  rw [if_neg hone, if_neg htwo, if_neg hthree, if_pos hfour]
  dsimp only
  rw [if_pos hb, if_pos hc, if_pos hd]

/-! ## Characters -/

theorem complete_eq {lead : Nat} {others : Bytes} {c : Char} (h : codePoint lead others = c.toNat) :
    complete lead others = .char c := by
  rw [complete, h, Char.ofNat_toNat]

theorem first_encodeChar (c : Char) (rest : Bytes) :
    ∃ lead others, encodeChar c = lead :: others ∧ first lead (others ++ rest) = (.char c, rest) := by
  have hvalid : c.toNat < 0xD800 ∨ 0xDFFF < c.toNat ∧ c.toNat < 0x110000 := c.valid
  unfold encodeChar
  dsimp only
  split
  next h =>
    refine ⟨_, _, rfl, ?_⟩
    rw [List.nil_append, first_one (by rw [toNat_ofNat (by omega)]; exact h), toNat_ofNat (by omega), Char.ofNat_toNat]
  split
  next h =>
    refine ⟨_, _, rfl, ?_⟩
    have hlead := toNat_ofNat (n := 0xC0 + c.toNat / 64) (by omega)
    have hb := toNat_ofNat (n := 0x80 + c.toNat % 64) (by omega)
    rw [List.cons_append, List.nil_append, first_two (by omega) (by omega) (isContinuation_ofNat (by omega)),
      complete_eq (c := c)]
    simp only [codePoint, List.foldl_cons, List.foldl_nil, hlead, hb]
    omega
  split
  next h =>
    refine ⟨_, _, rfl, ?_⟩
    have hlead := toNat_ofNat (n := 0xE0 + c.toNat / 4096) (by omega)
    have hb := toNat_ofNat (n := 0x80 + c.toNat / 64 % 64) (by omega)
    have hc := toNat_ofNat (n := 0x80 + c.toNat % 64) (by omega)
    rw [List.cons_append, List.cons_append, List.nil_append, first_three (by omega) (by omega)
      (isSecond_iff.mpr (by rw [hlead, hb]; omega)) (isContinuation_ofNat (by omega)), complete_eq (c := c)]
    simp only [codePoint, List.foldl_cons, List.foldl_nil, hlead, hb, hc]
    omega
  next h =>
    refine ⟨_, _, rfl, ?_⟩
    have hlead := toNat_ofNat (n := 0xF0 + c.toNat / 262144) (by omega)
    have hb := toNat_ofNat (n := 0x80 + c.toNat / 4096 % 64) (by omega)
    have hc := toNat_ofNat (n := 0x80 + c.toNat / 64 % 64) (by omega)
    have hd := toNat_ofNat (n := 0x80 + c.toNat % 64) (by omega)
    rw [List.cons_append, List.cons_append, List.cons_append, List.nil_append, first_four (by omega) (by omega)
      (isSecond_iff.mpr (by rw [hlead, hb]; omega)) (isContinuation_ofNat (by omega))
      (isContinuation_ofNat (by omega)), complete_eq (c := c)]
    simp only [codePoint, List.foldl_cons, List.foldl_nil, hlead, hb, hc, hd]
    omega

/-! ## Texts -/

theorem decode_encodeChars (s : List Char) : decode (encodeChars s) = s.map .char := by
  induction s with
  | nil => rw [encodeChars, List.flatMap_nil, decode, List.map_nil]
  | cons c s ih =>
    obtain ⟨lead, others, hencode, hfirst⟩ := first_encodeChar c (encodeChars s)
    have hcons : encodeChars (c :: s) = lead :: (others ++ encodeChars s) := by
      rw [encodeChars, List.flatMap_cons, hencode, List.cons_append]
      rfl
    rw [hcons, decode, hfirst, ih, List.map_cons]

theorem strictFrom_eq_ok {index : Nat} {s : List Symbol} {cs : List Char} :
    strictFrom index s = .ok cs ↔ s = cs.map .char := by
  induction s generalizing index cs with
  | nil =>
    cases cs with
    | nil => exact ⟨fun _ => rfl, fun _ => rfl⟩
    | cons c cs => exact ⟨fun h => (nomatch h), fun h => (nomatch h)⟩
  | cons x s ih =>
    cases x with
    | broken bytes =>
      refine ⟨fun h => (nomatch h), fun h => ?_⟩
      cases cs with
      | nil => cases h
      | cons c cs => cases h
    | char d =>
      rw [strictFrom]
      cases cs with
      | nil =>
        refine ⟨fun h => ?_, fun h => (nomatch h)⟩
        cases hrest : strictFrom (index + (Symbol.char d).width) s with
        | error e => rw [hrest] at h; cases h
        | ok cs => rw [hrest] at h; cases h
      | cons c cs =>
        rw [List.map_cons, List.cons.injEq]
        cases hrest : strictFrom (index + (Symbol.char d).width) s with
        | error e =>
          refine ⟨fun h => (nomatch h), fun h => ?_⟩
          rw [ih.mpr h.2] at hrest
          cases hrest
        | ok ds =>
          have hs : s = ds.map .char := ih.mp hrest
          constructor
          · intro h
            cases h
            exact ⟨rfl, hs⟩
          · rintro ⟨hchar, hmap⟩
            cases hchar
            rw [ih.mpr hmap] at hrest
            cases hrest
            rfl

theorem strict_eq_ok {s : List Symbol} {cs : List Char} : strict s = .ok cs ↔ s = cs.map .char := strictFrom_eq_ok

end Spreadsheet.Text.Utf8
