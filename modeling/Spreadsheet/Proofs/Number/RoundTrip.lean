import Spreadsheet.Proofs.Formula.Words
import Spreadsheet.Proofs.Number.Nearest
import Spreadsheet.Proofs.Number.Written

/-! # Every finite number is read back

* `covers_shortest`: the digits of a magnitude round to it.
* `readDecimal?_layout`: the text of a decimal is read as digits with the same value.
* `readsBack_of_isFinite`: the text of a finite number names that number. -/

set_option autoImplicit false

namespace Spreadsheet.Number

open Text Formula Float.Model.UnpackedFloat

/-! ## The shortest digits -/

def Decimal.value (d : Decimal) : Rat := d.digits * 10 ^ d.scale

theorem Decimal.value_stripped (d : Decimal) (steps : Nat) : (d.stripped steps).value = d.value := by
  induction steps generalizing d with
  | zero => rfl
  | succ steps ih =>
    rw [stripped]
    split
    next h =>
      have hdigits : (d.digits : Rat) = (d.digits / 10 : Nat) * 10 := by
        exact_mod_cast (Nat.div_mul_cancel (Nat.dvd_of_mod_eq_zero h.2)).symm
      rw [ih, value, value, hdigits, zpow_add_one₀ (by norm_num)]
      ring
    next => rfl

namespace Magnitude

variable {x : Magnitude}

theorem covers_of_onGrid? {g : Int} {d : Decimal} (h : x.onGrid? g = some d) : x.Covers d.value := by
  unfold onGrid? at h
  dsimp only at h
  split at h
  next => cases h
  next hbelow _ =>
    obtain rfl := Option.some.inj h
    exact reads_iff.mp hbelow
  next _ habove =>
    obtain rfl := Option.some.inj h
    exact reads_iff.mp habove
  next hbelow habove =>
    split at h
    · obtain rfl := Option.some.inj h
      exact reads_iff.mp hbelow
    · obtain rfl := Option.some.inj h
      exact reads_iff.mp habove

theorem covers_of_search {d : Decimal} {steps : Nat} {top : Int} (h : x.search top steps = some d) : x.Covers d.value := by
  induction steps generalizing top with
  | zero => cases h
  | succ steps ih =>
    rw [search] at h
    split at h
    next hgrid =>
      obtain rfl := Option.some.inj h
      exact covers_of_onGrid? hgrid
    next => exact ih h

theorem value_exact (x : Magnitude) : x.exact.value = x.value := by
  rw [exact, Decimal.value, value]
  obtain ⟨n, hn⟩ | ⟨n, hn⟩ : (∃ n : Nat, x.exponent = n) ∨ ∃ n : Nat, x.exponent = -n := by
    obtain h | h := le_total 0 x.exponent
    · exact .inl (Int.eq_ofNat_of_zero_le h)
    · obtain ⟨n, hn⟩ := Int.eq_ofNat_of_zero_le (Int.neg_nonneg_of_nonpos h)
      exact .inr ⟨n, by omega⟩
  · rw [hn, min_eq_right (by omega), Int.toNat_natCast, Int.toNat_neg_natCast]
    push_cast [cast_natPow]
    rw [zpow_natCast, mul_one, pow_zero, mul_one]
  · have hten : (10 : Rat) ^ n = 2 ^ n * 5 ^ n := by rw [← mul_pow]; norm_num
    rw [hn, min_eq_left (by omega), neg_neg, Int.toNat_natCast, Int.toNat_neg_natCast]
    push_cast [cast_natPow]
    rw [zpow_neg, zpow_neg, zpow_natCast, zpow_natCast, hten]
    field_simp

theorem covers_shortest (hx : 0 < x.significand) : x.Covers x.shortest.value := by
  unfold shortest
  cases h : x.search x.scale 17 with
  | none =>
    rw [Option.getD_none, value_exact]
    exact covers_value hx
  | some d => exact covers_of_search h

end Magnitude

/-! ## Text -/

theorem valueFrom_append_zeros (start : Nat) (s : List Char) (n : Nat) :
    Numeral.valueFrom start (s ++ List.replicate n '0') = Numeral.valueFrom start s * 10 ^ n := by
  induction n with
  | zero => rw [List.replicate_zero, List.append_nil, pow_zero, mul_one]
  | succ n ih =>
    have hzero := Numeral.valueFrom_append_digit start (s ++ List.replicate n '0') 0
    rw [List.replicate_succ', ← List.append_assoc]
    refine hzero.trans ?_
    rw [ih, pow_succ]
    ring

theorem valueFrom_zeros_append (n : Nat) (s : List Char) :
    Numeral.valueFrom 0 (List.replicate n '0' ++ s) = Numeral.valueFrom 0 s := by
  induction n with
  | zero => rfl
  | succ n ih => exact ih

theorem areDigits_replicate_zero (n : Nat) : AreDigits (List.replicate n '0') := by
  intro c hc
  rw [(List.mem_replicate.mp hc).2]
  decide

theorem areDigits_ofNat (n : Nat) : AreDigits (Numeral.ofNat n) := fun _ hc => Numeral.isDigit_of_mem_ofNat hc

theorem areDigits_append {s t : List Char} (hs : AreDigits s) (ht : AreDigits t) : AreDigits (s ++ t) :=
  fun c hc => (List.mem_append.mp hc).elim (hs c) (ht c)

theorem readDecimal?_digits {digits : List Char} (h : AreDigits digits) (hne : digits ≠ []) :
    readDecimal? digits = some (nearest digits 0) := by
  have hread := readDecimal?_whole h .none
  rw [List.append_nil, List.isEmpty_eq_false_iff.mpr hne] at hread
  exact hread

theorem readDecimal?_point {digits part : List Char} (h : AreDigits digits) (hne : digits ≠ []) (hpart : AreDigits part) :
    readDecimal? (digits ++ '.' :: part) = some (nearest (digits ++ part) (-part.length)) := by
  have hread := readDecimal?_fraction h hpart .none
  rw [List.append_nil, List.isEmpty_eq_false_iff.mpr hne] at hread
  refine hread.trans ?_
  rw [Bool.false_and, if_neg Bool.false_ne_true, ← zero_sub]
  rfl

theorem readDecimal?_layout (n : Nat) (scale : Int) : ∃ digits g, AreDigits digits ∧
    (Numeral.valueFrom 0 digits * 10 ^ g : Rat) = n * 10 ^ scale ∧
      readDecimal? (layout (Numeral.ofNat n) scale) = some (nearest digits g) := by
  have hdigits := areDigits_ofNat n
  have hne := Numeral.ofNat_ne_nil n
  unfold layout
  split
  next hscale =>
    -- no point, and zeros after the digits
    have hzeros := areDigits_append hdigits (areDigits_replicate_zero scale.toNat)
    refine ⟨_, 0, hzeros, ?_, readDecimal?_digits hzeros (List.append_ne_nil_of_left_ne_nil hne _)⟩
    rw [valueFrom_append_zeros, Numeral.valueFrom_ofNat, zpow_zero, mul_one]
    push_cast
    rw [← zpow_natCast, Int.toNat_of_nonneg hscale]
  next hscale =>
    dsimp only
    split
    next hplaces =>
      -- the point stands among the digits
      refine ⟨Numeral.ofNat n, scale, hdigits, by rw [Numeral.valueFrom_ofNat], ?_⟩
      rw [readDecimal?_point (fun c hc => hdigits c (List.mem_of_mem_take hc)) ?_
        (fun c hc => hdigits c (List.mem_of_mem_drop hc)), List.take_append_drop, List.length_drop]
      · congr 2
        omega
      · rw [Ne, List.take_eq_nil_iff]
        rintro (hzero | hnil)
        · omega
        · exact hne hnil
    next hplaces =>
      -- zeros in front of the digits, after the point
      have hpart := areDigits_append (areDigits_replicate_zero ((-scale).toNat - (Numeral.ofNat n).length)) hdigits
      refine ⟨'0' :: (List.replicate ((-scale).toNat - (Numeral.ofNat n).length) '0' ++ Numeral.ofNat n), scale, ?_, ?_, ?_⟩
      · exact areDigits_append (areDigits_replicate_zero 1) hpart
      · rw [← List.cons_append, ← List.replicate_succ, valueFrom_zeros_append, Numeral.valueFrom_ofNat]
      · refine (readDecimal?_point (areDigits_replicate_zero 1) (List.cons_ne_nil _ _) hpart).trans ?_
        rw [List.length_append, List.length_replicate]
        congr 2
        omega

/-! ## The round trip -/

theorem readDecimal?_write {m : Magnitude} (hm : 0 < m.significand → m.IsCanonical) :
    readDecimal? m.write = some (m.toFloat .positive) := by
  unfold Magnitude.write
  split
  next hzero =>
    rw [Magnitude.toFloat, dif_neg (by omega)]
    decide +kernel
  next hpos =>
    have hcanonical := hm (Nat.pos_of_ne_zero hpos)
    obtain ⟨digits, g, hdigits, hvalue, hread⟩ :=
      readDecimal?_layout (m.shortest.stripped 800).digits (m.shortest.stripped 800).scale
    refine hread.trans (congrArg some (nearest_of_covers hdigits hcanonical ?_))
    rw [hvalue]
    have hcovers := Magnitude.covers_shortest hcanonical.pos
    rwa [← Decimal.value_stripped _ 800] at hcovers

theorem readsBack_of_isFinite {x : Float} (hx : isFinite x = true) : ReadsBack x := by
  have hread := readDecimal?_write (isCanonical_magnitude hx)
  have hplain := isPlainChar_magnitude (magnitude x)
  have hfloat := eq_toFloat hx
  rw [ReadsBack, write_eq_of_isFinite hx]
  split
  next hnegative =>
    rw [signOf, if_pos hnegative] at hfloat
    have hunsigned : readUnsigned? (magnitude x).write = readDecimal? (magnitude x).write := by
      cases hwrite : (magnitude x).write with
      | nil =>
        rw [hwrite] at hread
        cases hread
      | cons c s => exact readUnsigned?_cons_eq_readDecimal? (hplain c (hwrite ▸ List.mem_cons_self ..)) s
    show (readUnsigned? (magnitude x).write).map (-·) = some x
    rw [hunsigned, hread, Option.map_some, neg_toFloat (isCanonical_magnitude hx)]
    exact congrArg some hfloat.symm
  next hnonnegative =>
    rw [signOf, if_neg hnonnegative] at hfloat
    rw [read?_eq_readDecimal? hplain, hread, ← hfloat]

end Spreadsheet.Number
