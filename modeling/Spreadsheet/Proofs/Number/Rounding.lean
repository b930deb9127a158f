import Mathlib.Tactic.FieldSimp
import Spreadsheet.Proofs.Number.Magnitude

/-! # Products and quotients of floats are rounded to the nearest

The logic computes with floats through `Float.Model`: a mantissa is shifted until it has the bits of the format, a round
bit and a sticky bit keep what is lost, and the mantissa is rounded last.

* `Represents`: the rational that a mantissa stands for with its two bits; a shift halves it.
* `roundWithAccuracy_of_covers`: a rational that rounds to a magnitude is rounded to it.
* `mul_of_covers`, `div_of_covers`: the same for an exact product and an exact quotient. -/

set_option autoImplicit false

namespace Spreadsheet.Number

open Float.Model Float.Model.UnpackedFloat

/-! ## Round bit and sticky bit -/

/-- A rational that a mantissa stands for: the round bit counts one half, the sticky bit says that there is more. -/
def Represents : ExtendedMantissa → Rat → Prop
  | ⟨m, false, false⟩, x => x = m
  | ⟨m, false, true⟩, x => m < x ∧ x < m + 1 / 2
  | ⟨m, true, false⟩, x => x = m + 1 / 2
  | ⟨m, true, true⟩, x => m + 1 / 2 < x ∧ x < m + 1

theorem represents_exact (m : Nat) : Represents (.ofMantissaAndAccuracy m .exact) m := rfl

theorem represents_div (a : Nat) {b : Nat} (hb : 0 < b) :
    Represents (.ofMantissaAndAccuracy (a / b) (accuracyOfFraction (a % b) b)) (a / b) := by
  have hb' : (0 : Rat) < b := by exact_mod_cast hb
  have hdiv : (b : Rat) * (a / b : Nat) + (a % b : Nat) = a := by exact_mod_cast Nat.div_add_mod a b
  have hlt : ((a % b : Nat) : Rat) < b := by exact_mod_cast Nat.mod_lt a hb
  generalize a / b = q at *
  unfold accuracyOfFraction
  split
  next h =>
    rw [h, Nat.cast_zero, add_zero] at hdiv
    show (a / b : Rat) = q
    rw [div_eq_iff hb'.ne', ← hdiv, mul_comm]
  next h =>
    have hpos : (0 : Rat) < (a % b : Nat) := by exact_mod_cast Nat.pos_of_ne_zero h
    generalize a % b = r at *
    cases hcompare : compare (2 * r) b with
    | lt =>
      have hhalf : (2 : Rat) * r < b := by exact_mod_cast compare_lt_iff_lt.mp hcompare
      show (q : Rat) < a / b ∧ (a / b : Rat) < q + 1 / 2
      rw [lt_div_iff₀ hb', div_lt_iff₀ hb']
      constructor <;> linarith
    | eq =>
      have hhalf : (2 : Rat) * r = b := by exact_mod_cast compare_eq_iff_eq.mp hcompare
      show (a / b : Rat) = q + 1 / 2
      rw [div_eq_iff hb'.ne']
      linarith
    | gt =>
      have hhalf : (b : Rat) < 2 * r := by exact_mod_cast compare_gt_iff_gt.mp hcompare
      show (q : Rat) + 1 / 2 < a / b ∧ (a / b : Rat) < q + 1
      rw [lt_div_iff₀ hb', div_lt_iff₀ hb']
      constructor <;> linarith

/-- A natural number nearest to a rational, the even one of two that are equally near. -/
structure IsNearest (s : Nat) (x : Rat) : Prop where
  low : s - 1 / 2 ≤ x
  high : x ≤ s + 1 / 2
  strict : s % 2 = 1 → s - 1 / 2 < x ∧ x < s + 1 / 2

namespace Represents

variable {em : ExtendedMantissa} {x : Rat}

theorem le (h : Represents em x) : em.mantissa ≤ x := by
  obtain ⟨m, r, t⟩ := em
  cases r <;> cases t <;> simp only [Represents] at h ⊢ <;> linarith

theorem lt (h : Represents em x) : x < em.mantissa + 1 := by
  obtain ⟨m, r, t⟩ := em
  cases r <;> cases t <;> simp only [Represents] at h ⊢ <;> linarith

theorem shiftRightOne (h : Represents em x) : Represents em.shiftRightOne (x / 2) := by
  obtain ⟨m, r, t⟩ := em
  have hm : (m : Rat) = 2 * (m / 2 : Nat) + (m % 2 : Nat) := by exact_mod_cast (Nat.div_add_mod m 2).symm
  -- the last bit of the mantissa becomes the round bit
  obtain hbit | hbit := Nat.mod_two_eq_zero_or_one m <;> rw [hbit] at hm <;> push_cast at hm <;>
    cases r <;> cases t <;>
      simp only [Represents, ExtendedMantissa.shiftRightOne, hbit, hm, bne_self_eq_false, Bool.or_self, Bool.or_true,
        Bool.or_false, show ((1 : Nat) != 0) = true from rfl] at h ⊢ <;>
      first | linarith | (constructor <;> linarith)

theorem shiftRight (h : Represents em x) (n : Nat) : Represents (em >>> n) (x / 2 ^ n) := by
  induction n with
  | zero => rwa [pow_zero, div_one]
  | succ n ih =>
    rw [pow_succ, ← div_div]
    exact ih.shiftRightOne

theorem roundedMantissa_eq {s : Nat} (h : Represents em x) (hs : IsNearest s x) : em.roundedMantissa = s := by
  obtain ⟨m, r, t⟩ := em
  obtain ⟨hlow, hhigh, hstrict⟩ := hs
  have hle : (m : Rat) < s + 1 := by
    have hm : (m : Rat) ≤ x := h.le
    linarith
  have hge : (s : Rat) < m + 2 := by
    have hm : x < (m : Rat) + 1 := h.lt
    linarith
  have hle : m < s + 1 := by exact_mod_cast hle
  have hge : s < m + 2 := by exact_mod_cast hge
  obtain rfl | rfl : s = m ∨ s = m + 1 := by omega
  · cases r <;> cases t <;> simp only [Represents] at h <;>
      simp only [ExtendedMantissa.roundedMantissa, ExtendedMantissa.accuracy, Accuracy.roundToNearestEven]
    · have heven : ¬s % 2 = 1 := fun hodd => by linarith [hstrict hodd]
      omega
    · linarith
  · push_cast at hlow hhigh hstrict
    cases r <;> cases t <;> simp only [Represents] at h <;>
      simp only [ExtendedMantissa.roundedMantissa, ExtendedMantissa.accuracy, Accuracy.roundToNearestEven]
    · linarith
    · linarith
    · have heven : ¬(m + 1) % 2 = 1 := fun hodd => by linarith [hstrict hodd]
      omega

end Represents

/-! ## The exponent that a mantissa is shifted to -/

open Format

theorem targetExponent_totalExponent (m : Nat) (e : Int) :
    binary64.targetExponent (totalExponent m e) = max (m.log2 + e - 52) (-1074) := by
  show max ((m.log2 : Int) + 1 + e - 53) (-1074) = _
  congr 1
  omega

section

variable {m s : Nat} {e k : Int} {acc : Accuracy} {w v : Rat}

/-- The bits that a mantissa has say where its target is; a mantissa with too few of them is not shifted back. -/
theorem targetExponent_eq (hw : Represents (.ofMantissaAndAccuracy m acc) w) (hv : w * 2 ^ e = v)
    (hlow : (2 : Rat) ^ (52 + k) ≤ v ∨ k = -1074) (hhigh : v < (2 : Rat) ^ (53 + k)) (hk : -1074 ≤ k)
    (hbits : e ≤ -1074 ∨ 2 ^ 52 ≤ m) : binary64.targetExponent (totalExponent m e) = k ∧ e ≤ k := by
  have hmantissa : (ExtendedMantissa.ofMantissaAndAccuracy m acc).mantissa = m := by
    unfold ExtendedMantissa.ofMantissaAndAccuracy
    split <;> rfl
  have hle := hw.le
  have hlt := hw.lt
  rw [hmantissa] at hle hlt
  have hpow : (0 : Rat) < 2 ^ e := by positivity
  have hbelow : v < (2 : Rat) ^ ((m.log2 : Int) + 1 + e) := by
    have hm : m + 1 ≤ 2 ^ (m.log2 + 1) := Nat.lt_log2_self
    have hm : (m : Rat) + 1 ≤ 2 ^ (m.log2 + 1) := by exact_mod_cast hm
    rw [← hv, zpow_add₀ (by norm_num)]
    refine mul_lt_mul_of_pos_right (hlt.trans_le ?_) hpow
    exact_mod_cast hm
  have habove : m ≠ 0 → (2 : Rat) ^ ((m.log2 : Int) + e) ≤ v := by
    intro hm
    have hm : ((2 ^ m.log2 : Nat) : Rat) ≤ m := by exact_mod_cast Nat.log2_self_le hm
    rw [← hv, zpow_add₀ (by norm_num)]
    refine mul_le_mul_of_nonneg_right (le_trans ?_ hle) hpow.le
    exact_mod_cast hm
  have hfew : k = -1074 ∨ 52 + k < m.log2 + 1 + e :=
    hlow.symm.imp id fun h => (zpow_lt_zpow_iff_right₀ (by norm_num : (1 : Rat) < 2)).mp (h.trans_lt hbelow)
  have hmany : m = 0 ∨ m.log2 + e < 53 + k := by
    by_cases hm : m = 0
    · exact .inl hm
    · exact .inr ((zpow_lt_zpow_iff_right₀ (by norm_num : (1 : Rat) < 2)).mp ((habove hm).trans_lt hhigh))
  have hlog : e ≤ -1074 ∨ 52 ≤ m.log2 := hbits.imp id fun h => (Nat.le_log2 (by omega)).mpr h
  rw [targetExponent_totalExponent]
  obtain rfl | hmany := hmany
  · rw [Nat.log2_zero] at *
    omega
  · omega

theorem shiftToExponent_represents (hw : Represents (.ofMantissaAndAccuracy m acc) w) (hv : w * 2 ^ e = v) (he : e ≤ k) :
    (shiftToExponent m e acc k).2 = k ∧ Represents (shiftToExponent m e acc k).1 (v / 2 ^ k) := by
  constructor
  · show e + ((k - e).toNat : Int) = k
    omega
  · have hshift := hw.shiftRight (k - e).toNat
    have hx : w / 2 ^ (k - e).toNat = v / 2 ^ k := by
      rw [← hv, ← zpow_natCast, Int.toNat_of_nonneg (by omega), zpow_sub₀ (by norm_num), div_div_eq_mul_div]
    rwa [hx] at hshift

theorem shiftToTargetExponent_of_lt (hpos : 0 < s) (hlt : s < 2 ^ 53) (hk : -1074 ≤ k)
    (hnormal : 2 ^ 52 ≤ s ∨ k = -1074) : shiftToTargetExponent binary64 s k .exact = (⟨s, false, false⟩, k) := by
  have hlog : s.log2 < 53 := (Nat.log2_lt hpos.ne').mpr hlt
  have hlog' : 52 ≤ s.log2 ∨ k = -1074 := hnormal.imp (Nat.le_log2 hpos.ne').mpr id
  have htarget : binary64.targetExponent (totalExponent s k) = k := by
    rw [targetExponent_totalExponent]
    omega
  unfold shiftToTargetExponent shiftToExponent
  rw [htarget]
  dsimp only
  rw [sub_self]
  exact congrArg _ (add_zero k)

theorem shiftToTargetExponent_carry (hk : -1074 ≤ k) :
    shiftToTargetExponent binary64 (2 ^ 53) k .exact = (⟨2 ^ 52, false, false⟩, k + 1) := by
  have htarget : binary64.targetExponent (totalExponent (2 ^ 53) k) = k + 1 := by
    rw [targetExponent_totalExponent, Nat.log2_two_pow]
    omega
  unfold shiftToTargetExponent shiftToExponent
  rw [htarget]
  dsimp only
  rw [show (k + 1 - k).toNat = 1 by omega]
  rfl

/-! ## Rounding -/

theorem roundWithAccuracy_eq (hw : Represents (.ofMantissaAndAccuracy m acc) w) (hv : w * 2 ^ e = v)
    (htarget : binary64.targetExponent (totalExponent m e) = k) (he : e ≤ k) (hs : IsNearest s (v / 2 ^ k))
    {em : ExtendedMantissa} {k' : Int} (hcarry : shiftToTargetExponent binary64 s k .exact = (em, k'))
    (hpos : 0 < em.mantissa) (sign : Sign) :
    roundWithAccuracy binary64 sign m e acc = .finite sign em.mantissa k' hpos := by
  obtain ⟨hexponent, hrepresents⟩ := shiftToExponent_represents (k := k) hw hv he
  have hfirst : (shiftToTargetExponent binary64 m e acc).2 = k ∧
      (shiftToTargetExponent binary64 m e acc).1.roundedMantissa = s := by
    unfold shiftToTargetExponent
    rw [htarget]
    exact ⟨hexponent, hrepresents.roundedMantissa_eq hs⟩
  unfold roundWithAccuracy
  dsimp only
  rw [hfirst.1, hfirst.2, hcarry]
  exact dif_neg hpos.ne'

end

section

variable {x : Magnitude} {v : Rat}

theorem Magnitude.Covers.isNearest (h : x.Covers v) (hx : x.IsCanonical) :
    IsNearest x.significand (v / 2 ^ x.exponent) := by
  have hpow : (0 : Rat) < 2 ^ x.exponent := by positivity
  obtain ⟨hlow, hhigh, hstrict⟩ := h
  have hhalf := Magnitude.half_le_low hx.pos
  rw [Magnitude.high_eq] at hhigh hstrict
  refine ⟨?_, ?_, fun hodd => ⟨?_, ?_⟩⟩
  · exact (le_div_iff₀ hpow).mpr (hhalf.trans hlow)
  · exact (div_le_iff₀ hpow).mpr hhigh
  · exact (lt_div_iff₀ hpow).mpr (hhalf.trans_lt (hstrict hodd).1)
  · exact (div_lt_iff₀ hpow).mpr (hstrict hodd).2

/-- In the narrow half of its interval a magnitude is reached by rounding up from the exponent below. -/
theorem isNearest_carry {k : Int} (h : (2 ^ 52 - 1 / 4) * (2 : Rat) ^ k ≤ v) (hlt : v < (2 : Rat) ^ (52 + k)) :
    IsNearest (2 ^ 53) (v / 2 ^ (k - 1)) ∧ (2 : Rat) ^ (52 + (k - 1)) ≤ v := by
  have hpow : (0 : Rat) < 2 ^ (k - 1) := by positivity
  have hdouble : (2 : Rat) ^ k = 2 * 2 ^ (k - 1) := by
    rw [zpow_sub₀ (by norm_num)]
    ring
  have hge : (2 ^ 53 - 1 / 2) * (2 : Rat) ^ (k - 1) ≤ v := by
    refine le_trans (le_of_eq ?_) h
    rw [hdouble]
    ring
  have hlt : v < 2 ^ 53 * (2 : Rat) ^ (k - 1) := by
    refine hlt.trans_le (le_of_eq ?_)
    rw [zpow_add₀ (by norm_num), hdouble]
    norm_num
    ring
  refine ⟨⟨?_, ?_, fun hodd => absurd hodd (by decide)⟩, ?_⟩
  · push_cast
    exact (le_div_iff₀ hpow).mpr hge
  · push_cast
    have hlt := (div_lt_iff₀ hpow).mpr hlt
    linarith
  · refine le_trans ?_ hge
    rw [zpow_add₀ (by norm_num)]
    refine mul_le_mul_of_nonneg_right ?_ hpow.le
    norm_num

theorem roundWithAccuracy_of_covers (hx : x.IsCanonical) (hv : x.Covers v) {m : Nat} {e : Int} {acc : Accuracy} {w : Rat}
    (hw : Represents (.ofMantissaAndAccuracy m acc) w) (heq : w * 2 ^ e = v) (hbits : e ≤ -1074 ∨ 2 ^ 52 ≤ m)
    (sign : Sign) : roundWithAccuracy binary64 sign m e acc = .finite sign x.significand x.exponent hx.pos := by
  by_cases hlow : (2 : Rat) ^ (52 + x.exponent) ≤ v ∨ x.exponent = -1074
  · obtain ⟨htarget, he⟩ := targetExponent_eq hw heq hlow (hv.lt hx) hx.least hbits
    exact roundWithAccuracy_eq hw heq htarget he (hv.isNearest hx)
      (shiftToTargetExponent_of_lt hx.pos hx.lt hx.least hx.normal) hx.pos sign
  · rw [not_or, not_le] at hlow
    obtain ⟨hlt, hne⟩ := hlow
    have hexponent : -1074 < x.exponent := lt_of_le_of_ne hx.least (Ne.symm hne)
    obtain ⟨hsignificand, hge⟩ := hv.of_lt hx hlt hexponent
    obtain ⟨hnearest, hge⟩ := isNearest_carry hge hlt
    rw [show 52 + x.exponent = 53 + (x.exponent - 1) by omega] at hlt
    obtain ⟨htarget, he⟩ := targetExponent_eq hw heq (.inl hge) hlt (by omega) hbits
    rw [roundWithAccuracy_eq hw heq htarget he hnearest (shiftToTargetExponent_carry (by omega)) (by decide) sign]
    obtain ⟨s, k, b⟩ := x
    dsimp only at hsignificand ⊢
    subst hsignificand
    rw [sub_add_cancel]

end

/-! ## Products and quotients -/

section

variable {x : Magnitude} {m n : Nat} {e f : Int}

theorem mul_of_covers (hx : x.IsCanonical) (hv : x.Covers (m * 2 ^ e * (n * 2 ^ f))) (hbits : 2 ^ 52 ≤ m * n)
    (s t : Sign) (hm : 0 < m) (hn : 0 < n) :
    mul binary64 (.finite s m e hm) (.finite t n f hn) = .finite (s * t) x.significand x.exponent hx.pos := by
  refine roundWithAccuracy_of_covers hx hv (represents_exact (m * n)) ?_ (.inr hbits) (s * t)
  rw [zpow_add₀ (by norm_num)]
  push_cast
  ring

theorem div_of_covers (hx : x.IsCanonical) (hv : x.Covers (m * 2 ^ e / (n * 2 ^ f))) (s t : Sign) (hm : 0 < m)
    (hn : 0 < n) :
    div binary64 (.finite s m e hm) (.finite t n f hn) = .finite (s / t) x.significand x.exponent hx.pos := by
  show roundWithAccuracy binary64 (s / t) (divCore binary64 m e n f).1 (divCore binary64 m e n f).2.1
    (divCore binary64 m e n f).2.2 = _
  have hmax : binary64.targetExponent (totalExponent m e - totalExponent n f) =
      max (m.log2 + 1 + e - (n.log2 + 1 + f) - 53) (-1074) := rfl
  unfold divCore
  dsimp only
  rw [hmax]
  have hle : min (e - f) (max (m.log2 + 1 + e - (n.log2 + 1 + f) - 53) (-1074)) ≤ e - f := min_le_left _ _
  have htarget : min (e - f) (max (m.log2 + 1 + e - (n.log2 + 1 + f) - 53) (-1074)) ≤ -1074 ∨
      min (e - f) (max (m.log2 + 1 + e - (n.log2 + 1 + f) - 53) (-1074)) ≤ m.log2 + e - (n.log2 + f) - 53 := by omega
  generalize min (e - f) (max (m.log2 + 1 + e - (n.log2 + 1 + f) - 53) (-1074)) = k at hle htarget ⊢
  refine roundWithAccuracy_of_covers hx hv (represents_div _ hn) ?_ (htarget.imp id fun h => ?_) (s / t)
  · have hpow := zpow_ne_zero k (by norm_num : (2 : Rat) ≠ 0)
    rw [Nat.shiftLeft_eq]
    push_cast
    rw [← zpow_natCast, Int.toNat_of_nonneg (by omega), zpow_sub₀ (by norm_num), zpow_sub₀ (by norm_num)]
    field_simp
  · rw [Nat.le_div_iff_mul_le hn, Nat.shiftLeft_eq]
    calc 2 ^ 52 * n ≤ 2 ^ 52 * 2 ^ (n.log2 + 1) := Nat.mul_le_mul_left _ Nat.lt_log2_self.le
      _ = 2 ^ (52 + (n.log2 + 1)) := (pow_add ..).symm
      _ ≤ 2 ^ (m.log2 + (e - f - k).toNat) := Nat.pow_le_pow_right (by norm_num) (by omega)
      _ = 2 ^ m.log2 * 2 ^ (e - f - k).toNat := pow_add ..
      _ ≤ m * 2 ^ (e - f - k).toNat := Nat.mul_le_mul_right _ (Nat.log2_self_le hm.ne')

end

end Spreadsheet.Number
