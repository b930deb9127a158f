import Mathlib.Algebra.Order.Field.Power
import Mathlib.Algebra.Order.Ring.Rat
import Mathlib.Tactic.Linarith
import Mathlib.Tactic.Positivity
import Mathlib.Tactic.Ring
import Spreadsheet.Number.Binary

/-! # The rationals that round to a magnitude

* `orderScaled_eq_lt` and its like: the exact comparison is that of the rationals.
* `Magnitude.Covers`: the interval of the rationals that round to a magnitude; `reads_iff` says that `reads` decides it.
* `Magnitude.IsCanonical`: the magnitudes of binary64 other than zero. -/

set_option autoImplicit false

namespace Spreadsheet.Number

/-! ## Exact comparison -/

theorem cast_natPow (a n : Nat) : ((Nat.pow a n : Nat) : Rat) = (a : Rat) ^ n := Nat.cast_pow a n

theorem zpow_mul_pow_toNat_neg {b : Rat} (hb : b ≠ 0) (i : Int) : b ^ i * b ^ (-i).toNat = b ^ i.toNat := by
  rw [← zpow_natCast, ← zpow_natCast, ← zpow_add₀ hb]
  congr 1
  omega

section

variable {a n : Nat} {i j : Int}

theorem exists_orderScaled_eq : ∃ q : Rat, 0 < q ∧ ∃ l r : Nat, orderScaled a i n j = compare l r ∧
    (l : Rat) = a * 10 ^ i * q ∧ (r : Rat) = n * 2 ^ j * q := by
  refine ⟨2 ^ (-j).toNat * 10 ^ (-i).toNat, by positivity, _, _, rfl, ?_, ?_⟩
  · push_cast [cast_natPow]
    rw [← zpow_mul_pow_toNat_neg (by norm_num : (10 : Rat) ≠ 0) i]
    ring
  · push_cast [cast_natPow]
    rw [← zpow_mul_pow_toNat_neg (by norm_num : (2 : Rat) ≠ 0) j]
    ring

theorem orderScaled_eq_lt : orderScaled a i n j = .lt ↔ (a * 10 ^ i : Rat) < n * 2 ^ j := by
  obtain ⟨q, hq, l, r, horder, hl, hr⟩ := exists_orderScaled_eq (a := a) (i := i) (n := n) (j := j)
  rw [horder, compare_lt_iff_lt, ← Nat.cast_lt (α := Rat), hl, hr, mul_lt_mul_iff_left₀ hq]

theorem orderScaled_eq_gt : orderScaled a i n j = .gt ↔ (n * 2 ^ j : Rat) < a * 10 ^ i := by
  obtain ⟨q, hq, l, r, horder, hl, hr⟩ := exists_orderScaled_eq (a := a) (i := i) (n := n) (j := j)
  rw [horder, compare_gt_iff_gt, ← Nat.cast_lt (α := Rat), hl, hr, mul_lt_mul_iff_left₀ hq]

theorem orderScaled_eq_eq : orderScaled a i n j = .eq ↔ (a * 10 ^ i : Rat) = n * 2 ^ j := by
  obtain ⟨q, hq, l, r, horder, hl, hr⟩ := exists_orderScaled_eq (a := a) (i := i) (n := n) (j := j)
  rw [horder, compare_eq_iff_eq, ← Nat.cast_inj (R := Rat), hl, hr, mul_left_inj' hq.ne']

end

namespace Magnitude

/-! ## The interval of a magnitude -/

def value (x : Magnitude) : Rat := x.significand * 2 ^ x.exponent

def low (x : Magnitude) : Rat :=
  (if x.narrowBelow then 4 * x.significand - 1 else 4 * x.significand - 2 : Nat) * 2 ^ (x.exponent - 2)

def high (x : Magnitude) : Rat := (4 * x.significand + 2 : Nat) * 2 ^ (x.exponent - 2)

/-- A rational that rounds to the magnitude; the ends of the interval do when the significand is even. -/
structure Covers (x : Magnitude) (v : Rat) : Prop where
  low_le : x.low ≤ v
  le_high : v ≤ x.high
  strict : x.significand % 2 = 1 → x.low < v ∧ v < x.high

theorem reads_iff {x : Magnitude} {d : Nat} {g : Int} : x.reads d g = true ↔ x.Covers (d * 10 ^ g) := by
  have hiff : x.Covers (d * 10 ^ g) ↔ (x.low < d * 10 ^ g ∨ x.significand % 2 = 0 ∧ d * 10 ^ g = x.low) ∧
      ((d * 10 ^ g : Rat) < x.high ∨ x.significand % 2 = 0 ∧ d * 10 ^ g = x.high) := by
    constructor
    · rintro ⟨hlow, hhigh, hstrict⟩
      obtain heven | hodd := Nat.mod_two_eq_zero_or_one x.significand
      · exact ⟨hlow.lt_or_eq.imp id fun h => ⟨heven, h.symm⟩, hhigh.lt_or_eq.imp id fun h => ⟨heven, h⟩⟩
      · exact ⟨.inl (hstrict hodd).1, .inl (hstrict hodd).2⟩
    · rintro ⟨hlow, hhigh⟩
      refine ⟨?_, ?_, fun hodd => ⟨?_, ?_⟩⟩
      · exact hlow.elim le_of_lt fun h => h.2.ge
      · exact hhigh.elim le_of_lt fun h => h.2.le
      · exact hlow.resolve_right fun h => by omega
      · exact hhigh.resolve_right fun h => by omega
  rw [hiff]
  unfold reads
  simp only [Bool.and_eq_true, Bool.or_eq_true, beq_iff_eq, orderScaled_eq_gt, orderScaled_eq_lt, orderScaled_eq_eq]
  rfl

theorem high_eq (x : Magnitude) : x.high = (x.significand + 1 / 2) * 2 ^ x.exponent := by
  rw [high, zpow_sub₀ (by norm_num)]
  push_cast
  ring

theorem low_eq {x : Magnitude} (hx : 0 < x.significand) :
    x.low = (x.significand - if x.narrowBelow then 1 / 4 else 1 / 2) * 2 ^ x.exponent := by
  rw [low, zpow_sub₀ (by norm_num)]
  split
  · rw [Nat.cast_sub (by omega)]
    push_cast
    ring
  · rw [Nat.cast_sub (by omega)]
    push_cast
    ring

theorem half_le_low {x : Magnitude} (hx : 0 < x.significand) : (x.significand - 1 / 2) * 2 ^ x.exponent ≤ x.low := by
  rw [low_eq hx]
  refine mul_le_mul_of_nonneg_right ?_ (by positivity)
  split <;> linarith

theorem covers_value {x : Magnitude} (hx : 0 < x.significand) : x.Covers x.value := by
  have hpow : (0 : Rat) < 2 ^ x.exponent := by positivity
  have hlow : x.low < x.value := by
    rw [low_eq hx, value]
    refine mul_lt_mul_of_pos_right ?_ hpow
    split <;> linarith
  have hhigh : x.value < x.high := by
    rw [high_eq, value]
    exact mul_lt_mul_of_pos_right (by linarith) hpow
  exact ⟨hlow.le, hhigh.le, fun _ => ⟨hlow, hhigh⟩⟩

/-! ## Magnitudes of binary64 -/

/-- A magnitude of binary64 other than zero, with as many bits as the exponent lets it have. -/
structure IsCanonical (x : Magnitude) : Prop where
  pos : 0 < x.significand
  lt : x.significand < 2 ^ 53
  least : -1074 ≤ x.exponent
  greatest : x.exponent ≤ 971
  normal : 2 ^ 52 ≤ x.significand ∨ x.exponent = -1074
  narrow : x.narrowBelow = true ↔ x.significand = 2 ^ 52 ∧ -1074 < x.exponent

section

variable {x : Magnitude} {v : Rat}

theorem Covers.lt (h : x.Covers v) (hx : x.IsCanonical) : v < (2 : Rat) ^ (53 + x.exponent) := by
  have hlt : (x.significand : Rat) + 1 ≤ 2 ^ 53 := by exact_mod_cast hx.lt
  refine h.le_high.trans_lt ?_
  rw [high_eq, zpow_add₀ (by norm_num)]
  refine mul_lt_mul_of_pos_right ?_ (by positivity)
  show (x.significand + 1 / 2 : Rat) < 2 ^ 53
  linarith

theorem Covers.le (h : x.Covers v) (hx : x.IsCanonical) : (2 : Rat) ^ (-1075 : Int) ≤ v := by
  have hone : (1 : Rat) ≤ x.significand := by exact_mod_cast hx.pos
  calc (2 : Rat) ^ (-1075 : Int) = 1 / 2 * 2 ^ (-1074 : Int) := by
        rw [show (-1075 : Int) = -1 + -1074 from rfl, zpow_add₀ (by norm_num), zpow_neg_one, one_div]
    _ ≤ 1 / 2 * 2 ^ x.exponent := by
        gcongr
        · norm_num
        · exact hx.least
    _ ≤ (x.significand - 1 / 2) * 2 ^ x.exponent := by
        refine mul_le_mul_of_nonneg_right ?_ (by positivity)
        linarith
    _ ≤ v := (half_le_low hx.pos).trans h.low_le

/-- A rational below all the numbers with the magnitude's exponent lies in the narrow half of the interval. -/
theorem Covers.of_lt (h : x.Covers v) (hx : x.IsCanonical) (hlt : v < (2 : Rat) ^ (52 + x.exponent))
    (hexponent : -1074 < x.exponent) :
    x.significand = 2 ^ 52 ∧ (2 ^ 52 - 1 / 4) * (2 : Rat) ^ x.exponent ≤ v := by
  have hsignificand : x.significand = 2 ^ 52 := by
    have hle : (x.significand - 1 / 2 : Rat) < 2 ^ (52 : Int) := by
      rw [zpow_add₀ (by norm_num)] at hlt
      exact lt_of_mul_lt_mul_right (((half_le_low hx.pos).trans h.low_le).trans_lt hlt) (by positivity)
    have hle : (x.significand : Rat) < 2 ^ 52 + 1 := by
      have hle : (x.significand - 1 / 2 : Rat) < 2 ^ 52 := hle
      linarith
    have hle : x.significand < 2 ^ 52 + 1 := by exact_mod_cast hle
    have hge := hx.normal.resolve_right (by omega)
    omega
  have hlow := h.low_le
  rw [low_eq hx.pos, if_pos (hx.narrow.mpr ⟨hsignificand, hexponent⟩), hsignificand] at hlow
  exact ⟨hsignificand, by exact_mod_cast hlow⟩

end

end Magnitude

end Spreadsheet.Number
