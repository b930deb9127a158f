import Mathlib
import Spreadsheet.Proofs.Number.Magnitude

/-! # The bits of a float and its magnitude

* `Magnitude.toFloat`: the float of a magnitude with a sign.
* `eq_toFloat`: a finite float is that of its magnitude and its sign.
* `unpack_toFloat`: the logic computes with the significand and the exponent of a magnitude. -/

set_option autoImplicit false

namespace Spreadsheet.Number

open Float.Model Float.Model.UnpackedFloat Float.Model.Format

theorem toNat_packComponents (s : Sign) (e : BitVec 11) (m : BitVec 52) :
    (packComponents binary64 s e m).toNat = s.toBitVec.toNat * signWeight + e.toNat * exponentWeight + m.toNat := by
  unfold packComponents
  rw [BitVec.toNat_append, BitVec.toNat_append, ← Nat.shiftLeft_add_eq_or_of_lt e.isLt,
    ← Nat.shiftLeft_add_eq_or_of_lt m.isLt, Nat.shiftLeft_eq, Nat.shiftLeft_eq]
  simp only [signWeight, exponentWeight]
  omega

def signOf (x : Float) : Sign := if isNegative x then .negative else .positive

def Magnitude.toFloat (x : Magnitude) (sign : Sign) : Float :=
  .ofModel (.pack (if h : 0 < x.significand then .finite sign x.significand x.exponent h else .zero sign))

theorem toBits_eq (x : Float) : x.toBits.toNat = (signOf x).toBitVec.toNat * signWeight + magnitudeBits x := by
  have hlt : x.toBits.toNat < 2 * signWeight := x.toBits.toNat_lt
  unfold signOf magnitudeBits isNegative
  split
  next h =>
    have hge := of_decide_eq_true h
    rw [Nat.mod_eq_sub_mod hge, Nat.mod_eq_of_lt (by omega)]
    show _ = 1 * signWeight + _
    omega
  next h =>
    have hlt := of_decide_eq_false (Bool.not_eq_true _ ▸ h)
    rw [Nat.mod_eq_of_lt (by omega)]
    show _ = 0 * signWeight + _
    omega

/-! ## Packing -/

section

variable {m : Nat} {e : Int} (s : Sign) (hm : 0 < m)

theorem pack_subnormal (hlt : m < 2 ^ 52) :
    UnpackedFloat.pack binary64 (.finite s m (-1074) hm) = packComponents binary64 s (0#11) (BitVec.ofNat 52 m) := by
  have hlog : m.log2 < 52 := (Nat.log2_lt hm.ne').mpr hlt
  unfold UnpackedFloat.pack
  dsimp only
  rw [if_neg (by decide), if_neg (by show ¬m.log2 + 1 = 53; omega)]

theorem pack_normal (hge : 2 ^ 52 ≤ m) (hlt : m < 2 ^ 53) (hleast : -1074 ≤ e) (hgreatest : e ≤ 971) :
    UnpackedFloat.pack binary64 (.finite s m e hm) =
      packComponents binary64 s (BitVec.ofNat 11 (e + 1075).toNat) (BitVec.ofNat 52 m) := by
  have hlog : m.log2 = 52 := (Nat.log2_eq_iff hm.ne').mpr ⟨hge, hlt⟩
  have hexponent : e + exponentBias binary64 + (52 : Nat) = e + 1075 := by
    show e + 1023 + 52 = e + 1075
    omega
  unfold UnpackedFloat.pack
  dsimp only
  rw [hexponent, if_neg (by omega), if_pos (by rw [hlog]; rfl)]

end

/-- The bits of a magnitude: the exponent counts from the least one of a normal number, and the highest bit of a normal
significand is left out. -/
def Magnitude.bits (x : Magnitude) : Nat :=
  if x.significand < exponentWeight then x.significand
  else (x.exponent + 1075).toNat * exponentWeight + (x.significand - exponentWeight)

theorem Magnitude.toBits_toFloat {x : Magnitude} (hx : 0 < x.significand → x.IsCanonical) (sign : Sign) :
    (x.toFloat sign).toBits.toNat = sign.toBitVec.toNat * signWeight + x.bits := by
  show (UnpackedFloat.pack binary64 (if h : 0 < x.significand then .finite sign x.significand x.exponent h
    else .zero sign)).toNat = _
  unfold bits
  split
  next hpos =>
    have hx := hx hpos
    obtain ⟨s, e, b⟩ := x
    have hlt := hx.lt
    have hleast := hx.least
    have hgreatest := hx.greatest
    have hnormal := hx.normal
    dsimp only at *
    split
    next hsubnormal =>
      simp only [exponentWeight] at hsubnormal
      obtain rfl : e = -1074 := hnormal.resolve_left (by omega)
      rw [pack_subnormal _ _ (by omega), toNat_packComponents, BitVec.toNat_zero, zero_mul, add_zero,
        BitVec.toNat_ofNat, Nat.mod_eq_of_lt (by omega)]
    next hge =>
      simp only [exponentWeight] at hge ⊢
      rw [pack_normal _ _ (by omega) hlt hleast hgreatest, toNat_packComponents, BitVec.toNat_ofNat, BitVec.toNat_ofNat,
        Nat.mod_eq_of_lt (by omega : (e + 1075).toNat < 2 ^ 11)]
      simp only [exponentWeight]
      omega
  next hzero =>
    have hzero : x.significand = 0 := by omega
    rw [hzero, if_pos (by decide)]
    show (packComponents binary64 sign 0 0).toNat = _
    rw [toNat_packComponents]
    simp

section

variable {x : Float}

theorem magnitude_of_lt (h : magnitudeBits x < exponentWeight) : magnitude x = ⟨magnitudeBits x, -1074, false⟩ := by
  unfold magnitude
  rw [Nat.div_eq_of_lt h, Nat.mod_eq_of_lt h]
  rfl

theorem magnitude_of_le (h : exponentWeight ≤ magnitudeBits x) :
    magnitude x = ⟨exponentWeight + magnitudeBits x % exponentWeight, (magnitudeBits x / exponentWeight : Nat) - 1075,
      magnitudeBits x % exponentWeight == 0 && 1 < magnitudeBits x / exponentWeight⟩ := by
  unfold magnitude
  exact if_neg (Nat.div_pos h (by decide)).ne'

theorem bits_magnitude (x : Float) : (magnitude x).bits = magnitudeBits x := by
  obtain h | h := Nat.lt_or_ge (magnitudeBits x) exponentWeight
  · rw [magnitude_of_lt h]
    exact if_pos h
  · rw [magnitude_of_le h, Magnitude.bits, if_neg (Nat.not_lt.mpr (Nat.le_add_right ..))]
    dsimp only
    rw [sub_add_cancel, Int.toNat_natCast, Nat.add_sub_cancel_left, mul_comm, Nat.div_add_mod]

theorem isCanonical_magnitude (hx : isFinite x = true) (hpos : 0 < (magnitude x).significand) :
    (magnitude x).IsCanonical := by
  have hlt : magnitudeBits x < 0x7FF * exponentWeight := by simpa [isFinite] using hx
  have hweight : exponentWeight = 2 ^ 52 := rfl
  obtain h | h := Nat.lt_or_ge (magnitudeBits x) exponentWeight
  · rw [magnitude_of_lt h] at hpos ⊢
    refine ⟨hpos, ?_, ?_, ?_, .inr rfl, ?_⟩ <;> dsimp only
    · omega
    · omega
    · omega
    · exact ⟨fun hfalse => Bool.noConfusion hfalse, fun hexponent => by omega⟩
  · have hdiv : 2 ^ 52 * (magnitudeBits x / exponentWeight) + magnitudeBits x % exponentWeight = magnitudeBits x :=
      Nat.div_add_mod ..
    have hmod : magnitudeBits x % exponentWeight < 2 ^ 52 := Nat.mod_lt _ (by decide)
    rw [magnitude_of_le h] at hpos ⊢
    generalize magnitudeBits x / exponentWeight = q at *
    generalize magnitudeBits x % exponentWeight = r at *
    refine ⟨hpos, ?_, ?_, ?_, .inl ?_, ?_⟩ <;> dsimp only
    · omega
    · omega
    · omega
    · omega
    · rw [Bool.and_eq_true, beq_iff_eq, decide_eq_true_eq]
      omega

end

theorem eq_toFloat {x : Float} (hx : isFinite x = true) : x = (magnitude x).toFloat (signOf x) := by
  refine Float.toBits_inj.mp (UInt64.toNat_inj.mp ?_)
  rw [toBits_eq, Magnitude.toBits_toFloat (isCanonical_magnitude hx), bits_magnitude]

/-! ## Unpacking -/

theorem toNat_one_append (m : BitVec 52) : (1#1 ++ m).toNat = 2 ^ 52 + m.toNat := by
  rw [BitVec.toNat_append, ← Nat.shiftLeft_add_eq_or_of_lt m.isLt]
  rfl

section

variable {m : Nat} {e : Int} (s : Sign) (hm : 0 < m)

theorem unpack_subnormal (hlt : m < 2 ^ 52) :
    UnpackedFloat.unpack binary64 (packComponents binary64 s (0#11) (BitVec.ofNat 52 m)) = .finite s m (-1074) hm := by
  have hmantissa : (BitVec.ofNat 52 m).toNat = m := by
    rw [BitVec.toNat_ofNat]
    omega
  have hzero : BitVec.ofNat 52 m ≠ 0#52 := fun h => by
    have h := congrArg BitVec.toNat h
    rw [hmantissa, BitVec.toNat_zero] at h
    omega
  unfold UnpackedFloat.unpack
  simp only [unpackMantissa_packComponents, unpackExponent_packComponents, unpackSign_packComponents,
    Sign.ofBitVec_toBitVec]
  rw [if_neg (by decide), if_true, dif_neg hzero]
  simp only [hmantissa]
  rfl

theorem unpack_normal (hge : 2 ^ 52 ≤ m) (hlt : m < 2 ^ 53) (hleast : -1074 ≤ e) (hgreatest : e ≤ 971) :
    UnpackedFloat.unpack binary64 (packComponents binary64 s (BitVec.ofNat 11 (e + 1075).toNat) (BitVec.ofNat 52 m)) =
      .finite s m e hm := by
  have hexponent : (BitVec.ofNat 11 (e + 1075).toNat).toNat = (e + 1075).toNat := by
    rw [BitVec.toNat_ofNat, Nat.mod_eq_of_lt (by omega)]
  have hfinite : BitVec.ofNat 11 (e + 1075).toNat ≠ -1#11 := fun h => by
    have h := congrArg BitVec.toNat h
    have hones : (-1#11).toNat = 2047 := rfl
    rw [hexponent, hones] at h
    omega
  have hzero : BitVec.ofNat 11 (e + 1075).toNat ≠ 0#11 := fun h => by
    have h := congrArg BitVec.toNat h
    rw [hexponent, BitVec.toNat_zero] at h
    omega
  have hmantissa : 2 ^ 52 + (BitVec.ofNat 52 m).toNat = m := by
    rw [BitVec.toNat_ofNat]
    omega
  have hbias : ((BitVec.ofNat 11 (e + 1075).toNat).toNat : Int) - (exponentBias binary64 + (52 : Nat)) = e := by
    rw [hexponent]
    show ((e + 1075).toNat : Int) - (1023 + 52) = e
    omega
  unfold UnpackedFloat.unpack
  simp only [unpackMantissa_packComponents, unpackExponent_packComponents, unpackSign_packComponents,
    Sign.ofBitVec_toBitVec, toNat_one_append]
  rw [if_neg hfinite, if_neg hzero]
  simp only [hmantissa, hbias]

end

theorem Magnitude.unpack_toFloat {x : Magnitude} (hx : x.IsCanonical) (sign : Sign) :
    (x.toFloat sign).toModel.unpack = .finite sign x.significand x.exponent hx.pos := by
  show UnpackedFloat.unpack binary64 (UnpackedFloat.pack binary64 (if h : 0 < x.significand then
    .finite sign x.significand x.exponent h else .zero sign)) = _
  rw [dif_pos hx.pos]
  obtain ⟨s, e, b⟩ := x
  by_cases hnormal : 2 ^ 52 ≤ s
  · rw [pack_normal _ _ hnormal hx.lt hx.least hx.greatest, unpack_normal _ _ hnormal hx.lt hx.least hx.greatest]
  · obtain rfl : e = -1074 := hx.normal.resolve_left hnormal
    rw [pack_subnormal _ _ (Nat.lt_of_not_le hnormal), unpack_subnormal _ _ (Nat.lt_of_not_le hnormal)]

theorem neg_toFloat {x : Magnitude} (hx : 0 < x.significand → x.IsCanonical) (sign : Sign) :
    -(x.toFloat sign) = x.toFloat (-sign) := by
  show Float.ofModel (.pack (x.toFloat sign).toModel.unpack.neg) = _
  by_cases hpos : 0 < x.significand
  · rw [Magnitude.unpack_toFloat (hx hpos), Magnitude.toFloat, dif_pos hpos]
    rfl
  · have hzero : (x.toFloat sign).toModel.unpack = .zero sign := by
      rw [Magnitude.toFloat, dif_neg hpos]
      cases sign <;> rfl
    rw [hzero, Magnitude.toFloat, dif_neg hpos]
    rfl

end Spreadsheet.Number
