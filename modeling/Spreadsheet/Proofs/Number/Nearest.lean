import Spreadsheet.Number.Numeral
import Spreadsheet.Proofs.Number.Packing
import Spreadsheet.Proofs.Number.Rounding
import Spreadsheet.Proofs.Text.Numeral

/-! # A decimal is read as the nearest float

* `ofScientific_of_covers`: the logic reads a decimal that rounds to a magnitude as that magnitude.
* `nearest_of_covers`: so does the reader, which leaves decimals that are far out of range alone. -/

set_option autoImplicit false

namespace Spreadsheet.Number

open Text
open Float.Model Float.Model.UnpackedFloat Float.Model.Format

section

variable {x : Magnitude} {m : Nat} {e : Int}

/-! ## Any decimal -/

theorem zpow_two_le_zpow_ten (he : 0 ≤ e) : (2 : Rat) ^ (3 * e) ≤ 10 ^ e := by
  rw [zpow_mul]
  exact zpow_le_zpow_left₀ he (by norm_num) (by norm_num)

theorem zpow_ten_le_zpow_two (he : e ≤ 0) : (10 : Rat) ^ e ≤ 2 ^ (3 * e) := by
  have hinv := inv_anti₀ (by positivity) (zpow_two_le_zpow_ten (e := -e) (by omega))
  rwa [← zpow_neg, ← zpow_neg, neg_neg, mul_neg, neg_neg] at hinv

namespace Magnitude.Covers

variable (h : x.Covers (m * 10 ^ e)) (hx : x.IsCanonical)
include h hx

theorem ne_zero : m ≠ 0 := by
  rintro rfl
  have hle := h.le hx
  rw [Nat.cast_zero, zero_mul] at hle
  exact absurd hle (not_le.mpr (by positivity))

theorem exponent_le : 3 * e < 1024 := by
  by_contra hlarge
  have hone : (1 : Rat) ≤ m := by exact_mod_cast Nat.one_le_iff_ne_zero.mpr (h.ne_zero hx)
  have hpow : (2 : Rat) ^ (3 * e) < 2 ^ (53 + x.exponent) := calc
    (2 : Rat) ^ (3 * e) ≤ 10 ^ e := zpow_two_le_zpow_ten (by omega)
    _ ≤ m * 10 ^ e := le_mul_of_one_le_left (by positivity) hone
    _ < 2 ^ (53 + x.exponent) := h.lt hx
  have hlt := (zpow_lt_zpow_iff_right₀ (by norm_num : (1 : Rat) < 2)).mp hpow
  have hgreatest := hx.greatest
  omega

theorem le_exponent : -1075 < m.log2 + 1 + 3 * e ∨ 0 ≤ e := by
  by_contra hsmall
  rw [not_or] at hsmall
  have hm : m < 2 ^ (m.log2 + 1) := Nat.lt_log2_self
  have hm : (m : Rat) < 2 ^ ((m.log2 : Int) + 1) := by exact_mod_cast hm
  have hpow : (2 : Rat) ^ (-1075 : Int) < 2 ^ ((m.log2 : Int) + 1 + 3 * e) := calc
    (2 : Rat) ^ (-1075 : Int) ≤ m * 10 ^ e := h.le hx
    _ < 2 ^ ((m.log2 : Int) + 1) * 10 ^ e := mul_lt_mul_of_pos_right hm (by positivity)
    _ ≤ 2 ^ ((m.log2 : Int) + 1) * 2 ^ (3 * e) :=
      mul_le_mul_of_nonneg_left (zpow_ten_le_zpow_two (by omega)) (by positivity)
    _ = 2 ^ ((m.log2 : Int) + 1 + 3 * e) := (zpow_add₀ (by norm_num) _ _).symm
  have hlt := (zpow_lt_zpow_iff_right₀ (by norm_num : (1 : Rat) < 2)).mp hpow
  exact hsmall.1 hlt

end Magnitude.Covers

theorem unpackedOfScientific_of_covers (hx : x.IsCanonical) (h : x.Covers (m * 10 ^ e)) :
    UnpackedFloat.ofScientific binary64 m e = .finite .positive x.significand x.exponent hx.pos := by
  have hm := h.ne_zero hx
  have hlarge := h.exponent_le hx
  have hsmall := h.le_exponent hx
  have hlimit : (2 : Int) ^ binary64.exponentBits = 2048 := rfl
  unfold UnpackedFloat.ofScientific
  rw [dif_neg hm, if_neg (by omega), if_neg (by omega)]
  split
  next he =>
    have hvalue : ((m <<< 53 : Nat) : Rat) * 2 ^ (-(53 : Nat) : Int) * ((10 ^ e.toNat : Nat) * 2 ^ (0 : Int)) = m * 10 ^ e := by
      rw [Nat.shiftLeft_eq, zpow_neg, zpow_natCast, zpow_zero]
      push_cast
      rw [← zpow_natCast (10 : Rat), Int.toNat_of_nonneg he]
      field_simp
      norm_num
    refine mul_of_covers hx ?_ ?_ .positive .positive _ _
    · rwa [← hvalue] at h
    · show 2 ^ 52 ≤ (m <<< 53) * 10 ^ e.toNat
      have hten : 0 < 10 ^ e.toNat := by positivity
      rw [Nat.shiftLeft_eq]
      nlinarith [Nat.pos_of_ne_zero hm]
  next he =>
    have hvalue : (m : Rat) * 2 ^ (0 : Int) / ((10 ^ (-e).toNat : Nat) * 2 ^ (0 : Int)) = m * 10 ^ e := by
      rw [zpow_zero, mul_one, mul_one]
      push_cast
      rw [← zpow_natCast (10 : Rat), Int.toNat_of_nonneg (by omega), zpow_neg, div_inv_eq_mul]
    refine div_of_covers hx ?_ .positive .positive _ _
    rwa [← hvalue] at h

/-! ## Small numbers and small powers of ten are floats -/

def Magnitude.ofNat (n : Nat) : Magnitude :=
  ⟨n * 2 ^ (52 - n.log2), n.log2 - 52, n * 2 ^ (52 - n.log2) == 2 ^ 52⟩

theorem Magnitude.isCanonical_ofNat {n : Nat} (hpos : 0 < n) (hlt : n < 2 ^ 53) : (Magnitude.ofNat n).IsCanonical := by
  have hlog : n.log2 < 53 := (Nat.log2_lt hpos.ne').mpr hlt
  have hge : 2 ^ 52 ≤ n * 2 ^ (52 - n.log2) := calc
    2 ^ 52 = 2 ^ n.log2 * 2 ^ (52 - n.log2) := by rw [← pow_add, Nat.add_sub_cancel' (by omega)]
    _ ≤ n * 2 ^ (52 - n.log2) := Nat.mul_le_mul_right _ (Nat.log2_self_le hpos.ne')
  have hlt : n * 2 ^ (52 - n.log2) < 2 ^ 53 := calc
    n * 2 ^ (52 - n.log2) < 2 ^ (n.log2 + 1) * 2 ^ (52 - n.log2) :=
      Nat.mul_lt_mul_of_pos_right Nat.lt_log2_self (Nat.two_pow_pos _)
    _ = 2 ^ 53 := by rw [← pow_add]; congr 1; omega
  refine ⟨?_, hlt, ?_, ?_, .inl hge, ?_⟩ <;> dsimp only [Magnitude.ofNat]
  · omega
  · omega
  · omega
  · rw [beq_iff_eq]
    omega

theorem Magnitude.value_ofNat {n : Nat} (hpos : 0 < n) (hlt : n < 2 ^ 53) : (Magnitude.ofNat n).value = n := by
  have hlog : n.log2 < 53 := (Nat.log2_lt hpos.ne').mpr hlt
  have hexponent : ((n.log2 : Int) - 52) = -((52 - n.log2 : Nat) : Int) := by omega
  rw [Magnitude.value, Magnitude.ofNat, hexponent, zpow_neg, zpow_natCast]
  push_cast
  field_simp

theorem toFloat_toUInt64 {n : Nat} (hpos : 0 < n) (hlt : n < 2 ^ 53) :
    n.toUInt64.toFloat = (Magnitude.ofNat n).toFloat .positive := by
  have hx := Magnitude.isCanonical_ofNat hpos hlt
  have htoNat : n.toUInt64.toNat = n := Nat.mod_eq_of_lt (by omega)
  have hlog : n.log2 < 53 := (Nat.log2_lt hpos.ne').mpr hlt
  have hround : UnpackedFloat.ofNat binary64 n = .finite .positive (Magnitude.ofNat n).significand
      (Magnitude.ofNat n).exponent hx.pos := by
    have hcompare : compare (n : Int) 0 = .gt := compare_gt_iff_gt.mpr (by omega)
    unfold UnpackedFloat.ofNat UnpackedFloat.ofInt UnpackedFloat.normalize
    rw [hcompare]
    show roundWithAccuracy binary64 .positive (n <<< (0 - binary64.targetExponent (totalExponent n 0)).toNat)
      (0 - ((0 - binary64.targetExponent (totalExponent n 0)).toNat : Int)) .exact = _
    rw [targetExponent_totalExponent, show (0 - max ((n.log2 : Int) + 0 - 52) (-1074)).toNat = 52 - n.log2 by omega,
      Nat.shiftLeft_eq]
    refine roundWithAccuracy_of_covers hx (Magnitude.covers_value hx.pos) (represents_exact _) ?_
      (.inr (hx.normal.resolve_right ?_)) .positive
    · rw [Magnitude.value, Magnitude.ofNat]
      dsimp only
      congr 2
      omega
    · dsimp only [Magnitude.ofNat]
      omega
  show Float.ofModel (.pack (UnpackedFloat.ofNat binary64 n.toUInt64.toNat)) = _
  rw [htoNat, hround, Magnitude.toFloat, dif_pos hx.pos]

/-- A float whose value is `10 ^ n`. -/
def isPowerOfTen (n : Nat) : UnpackedFloat → Bool
  | .finite .positive m e _ => m * 2 ^ e.toNat == 10 ^ n * 2 ^ (-e).toNat
  | _ => false

theorem isPowerOfTen_exactlyRepresentablePowersOfTen :
    ∀ n : Fin Float.exactlyRepresentablePowersOfTen.size,
      isPowerOfTen n (Float.exactlyRepresentablePowersOfTen[n]).toModel.unpack = true := by
  decide +kernel

theorem exists_unpack_powerOfTen {n : Nat} (h : n < Float.exactlyRepresentablePowersOfTen.size) :
    ∃ (k : Nat) (f : Int) (hk : 0 < k), (Float.exactlyRepresentablePowersOfTen[n]).toModel.unpack = .finite .positive k f hk ∧
      (k * 2 ^ f : Rat) = 10 ^ n := by
  have hpower := isPowerOfTen_exactlyRepresentablePowersOfTen ⟨n, h⟩
  unfold isPowerOfTen at hpower
  split at hpower
  next k f hk heq =>
    refine ⟨k, f, hk, heq, ?_⟩
    have hvalue : ((k * 2 ^ f.toNat : Nat) : Rat) = (10 ^ n * 2 ^ (-f).toNat : Nat) := by
      exact_mod_cast beq_iff_eq.mp hpower
    push_cast at hvalue
    rw [← zpow_mul_pow_toNat_neg (by norm_num : (2 : Rat) ≠ 0) f, ← mul_assoc] at hvalue
    exact mul_right_cancel₀ (by positivity) hvalue
  next => cases hpower

/-! ## Both ways to read a decimal -/

section

variable {a b : Float} {k n : Nat} {f g : Int} {hk : 0 < k} {hn : 0 < n}

theorem mul_eq_toFloat (hx : x.IsCanonical) (ha : a.toModel.unpack = .finite .positive k f hk)
    (hb : b.toModel.unpack = .finite .positive n g hn) (hv : x.Covers (k * 2 ^ f * (n * 2 ^ g))) (hbits : 2 ^ 52 ≤ k * n) :
    a * b = x.toFloat .positive := by
  show Float.ofModel (.pack (mul binary64 a.toModel.unpack b.toModel.unpack)) = _
  rw [ha, hb, mul_of_covers hx hv hbits, Magnitude.toFloat, dif_pos hx.pos]
  rfl

theorem div_eq_toFloat (hx : x.IsCanonical) (ha : a.toModel.unpack = .finite .positive k f hk)
    (hb : b.toModel.unpack = .finite .positive n g hn) (hv : x.Covers (k * 2 ^ f / (n * 2 ^ g))) :
    a / b = x.toFloat .positive := by
  show Float.ofModel (.pack (div binary64 a.toModel.unpack b.toModel.unpack)) = _
  rw [ha, hb, div_of_covers hx hv, Magnitude.toFloat, dif_pos hx.pos]
  rfl

end

theorem ofScientific_of_covers (hx : x.IsCanonical) (h : x.Covers (m * 10 ^ e)) :
    Float.ofScientific m (e < 0) e.natAbs = x.toFloat .positive := by
  have hm := Nat.pos_of_ne_zero (h.ne_zero hx)
  unfold Float.ofScientific
  split
  next hsmall =>
    have hsize : Float.exactlyRepresentablePowersOfTen.size = 23 := rfl
    obtain ⟨k, f, hk, hpower, hvalue⟩ := exists_unpack_powerOfTen (n := e.natAbs) (by omega)
    have hcanonical := Magnitude.isCanonical_ofNat hm hsmall.1
    have hnat := Magnitude.unpack_toFloat hcanonical .positive
    have hvalueNat := Magnitude.value_ofNat hm hsmall.1
    rw [← toFloat_toUInt64 hm hsmall.1] at hnat
    rw [Magnitude.value] at hvalueNat
    dsimp only
    split
    next he =>
      have hnegative : e = -(e.natAbs : Int) := by
        have he := of_decide_eq_true he
        omega
      refine div_eq_toFloat hx hnat hpower ?_
      rw [hvalueNat, hvalue, div_eq_mul_inv, ← zpow_natCast, ← zpow_neg, ← hnegative]
      exact h
    next he =>
      have hnonnegative : e = (e.natAbs : Int) := by
        have he := of_decide_eq_false (Bool.not_eq_true _ ▸ he)
        omega
      refine mul_eq_toFloat hx hnat hpower ?_ ?_
      · rw [hvalueNat, hvalue, ← zpow_natCast, ← hnonnegative]
        exact h
      · have hnormal := hcanonical.normal.resolve_right (by dsimp only [Magnitude.ofNat]; omega)
        exact hnormal.trans (Nat.le_mul_of_pos_right _ hk)
  next hlarge =>
    have he : (if decide (e < 0) = true then Int.negOfNat e.natAbs else Int.ofNat e.natAbs) = e := by
      split
      next he =>
        have he := of_decide_eq_true he
        rw [Int.negOfNat_eq]
        show -(e.natAbs : Int) = e
        omega
      next he =>
        have he := of_decide_eq_false (Bool.not_eq_true _ ▸ he)
        show (e.natAbs : Int) = e
        omega
    dsimp only
    rw [he]
    show Float.ofModel (.pack (UnpackedFloat.ofScientific binary64 m e)) = _
    rw [unpackedOfScientific_of_covers hx h, Magnitude.toFloat, dif_pos hx.pos]

end

/-! ## The reader -/

theorem valueFrom_mem_Ico {s : List Char} (h : ∀ c ∈ s, Numeral.isDigit c = true) (start : Nat) :
    start * 10 ^ s.length ≤ Numeral.valueFrom start s ∧ Numeral.valueFrom start s < (start + 1) * 10 ^ s.length := by
  induction s generalizing start with
  | nil =>
    rw [List.length_nil, pow_zero, mul_one, mul_one]
    exact ⟨le_rfl, Nat.lt_succ_self start⟩
  | cons c s ih =>
    have hvalue := Numeral.value_le (h c (List.mem_cons_self ..))
    obtain ⟨hlow, hhigh⟩ := ih (fun d hd => h d (List.mem_cons_of_mem _ hd)) (10 * start + Numeral.value c)
    rw [List.length_cons, pow_succ', ← mul_assoc, ← mul_assoc]
    exact ⟨(Nat.mul_le_mul_right _ (by omega)).trans hlow, hhigh.trans_le (Nat.mul_le_mul_right _ (by omega))⟩

theorem valueFrom_zero_mem_Ico {c : Char} {s : List Char} (h : ∀ d ∈ c :: s, Numeral.isDigit d = true) (hc : c ≠ '0') :
    10 ^ s.length ≤ Numeral.valueFrom 0 (c :: s) ∧ Numeral.valueFrom 0 (c :: s) < 10 ^ (s.length + 1) := by
  have hpos : 1 ≤ Numeral.value c := by
    have hdigit := h c (List.mem_cons_self ..)
    have hlow : '0' ≤ c := by
      simp only [Numeral.isDigit, Bool.and_eq_true, decide_eq_true_eq] at hdigit
      exact hdigit.1
    have hlow : 48 ≤ c.toNat := hlow
    have hne : c.toNat ≠ 48 := fun heq => hc (Char.toNat_inj.mp heq)
    rw [Numeral.value]
    omega
  obtain ⟨-, hhigh⟩ := valueFrom_mem_Ico h 0
  obtain ⟨hlow, -⟩ := valueFrom_mem_Ico (fun d hd => h d (List.mem_cons_of_mem _ hd)) (Numeral.value c)
  refine ⟨?_, by rwa [zero_add, one_mul] at hhigh⟩
  show _ ≤ Numeral.valueFrom (10 * 0 + Numeral.value c) s
  rw [Nat.mul_zero, zero_add]
  exact le_trans (Nat.le_mul_of_pos_left _ hpos) hlow

/-- A decimal that rounds to a magnitude is not one of those that the reader does not expand. -/
theorem Magnitude.Covers.top_mem_Icc {x : Magnitude} {n length : Nat} {scale : Int} (h : x.Covers (n * 10 ^ scale))
    (hx : x.IsCanonical) (hlow : 10 ^ length ≤ n) (hhigh : n < 10 ^ (length + 1)) :
    -400 ≤ (length + 1 : Int) + scale ∧ (length + 1 : Int) + scale ≤ 400 := by
  have hten : (0 : Rat) < 10 ^ scale := by positivity
  have hlow : (10 : Rat) ^ ((length : Int) + scale) ≤ n * 10 ^ scale := by
    rw [zpow_add₀ (by norm_num), zpow_natCast]
    exact mul_le_mul_of_nonneg_right (by exact_mod_cast hlow) hten.le
  have hhigh : n * 10 ^ scale < (10 : Rat) ^ ((length + 1 : Nat) + scale) := by
    rw [zpow_add₀ (by norm_num), zpow_natCast]
    exact mul_lt_mul_of_pos_right (by exact_mod_cast hhigh) hten
  have hgreatest := hx.greatest
  constructor
  · by_contra hsmall
    have hpow : (2 : Rat) ^ (-1075 : Int) < 2 ^ (3 * ((length + 1 : Nat) + scale)) :=
      (h.le hx).trans_lt (hhigh.trans_le (zpow_ten_le_zpow_two (by omega)))
    have hlt := (zpow_lt_zpow_iff_right₀ (by norm_num : (1 : Rat) < 2)).mp hpow
    omega
  · by_contra hlarge
    have hpow : (2 : Rat) ^ (3 * ((length : Int) + scale)) < 2 ^ (53 + x.exponent) :=
      (zpow_two_le_zpow_ten (by omega)).trans_lt (hlow.trans_lt (h.lt hx))
    have hlt := (zpow_lt_zpow_iff_right₀ (by norm_num : (1 : Rat) < 2)).mp hpow
    omega

theorem nearest_of_covers {x : Magnitude} {digits : List Char} {scale : Int}
    (hdigits : ∀ c ∈ digits, Numeral.isDigit c = true) (hx : x.IsCanonical)
    (h : x.Covers (Numeral.valueFrom 0 digits * 10 ^ scale)) : nearest digits scale = x.toFloat .positive := by
  have hne := h.ne_zero hx
  rw [← Numeral.valueFrom_dropWhile_zero] at h hne
  have hsignificant : ∀ c ∈ digits.dropWhile (· == '0'), Numeral.isDigit c = true :=
    fun c hc => hdigits c ((List.dropWhile_sublist _).subset hc)
  have hhead := List.head?_dropWhile_not (· == '0') digits
  unfold nearest
  generalize digits.dropWhile (· == '0') = significant at h hne hsignificant hhead
  cases significant with
  | nil => exact absurd rfl hne
  | cons c s =>
    have hc : c ≠ '0' := ne_of_beq_false hhead
    obtain ⟨hlow, hhigh⟩ := valueFrom_zero_mem_Ico hsignificant hc
    obtain ⟨hsmall, hlarge⟩ := h.top_mem_Icc hx hlow hhigh
    dsimp only
    rw [List.length_cons, if_neg, if_neg, ofScientific_of_covers hx h]
    · push_cast
      omega
    · rw [List.isEmpty_cons, Bool.false_or, decide_eq_true_eq]
      push_cast
      omega

end Spreadsheet.Number
