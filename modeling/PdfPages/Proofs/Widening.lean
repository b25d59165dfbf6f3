import Mathlib
import PdfPages.Number

/-!
# Widening is exact

A single widened to a double and narrowed again is the number that it was: both conversions
round, and neither finds anything to round here.

A format has a number for a mantissa and an exponent if the mantissa takes no more bits than
there are and, unless the exponent is the least one, fills them: `Fits`. Such numbers survive
packing, and rounding gives them back from their mantissa with any zeros appended. Singles fit
double precision once their mantissa is shifted to the left end.
-/

namespace PdfPages.Number

open Float.Model (Format UnpackedFloat totalExponent)
open Float.Model.UnpackedFloat

variable {format : Format} {mantissa : Nat} {exponent : Int} {sign : Sign}

/-! ## The numbers of a format -/

/-- The format has a number with this mantissa and this exponent. -/
structure Fits (format : Format) (mantissa : Nat) (exponent : Int) : Prop where
  pos : 0 < mantissa
  lt : mantissa < 2 ^ format.mantissaBits
  low : format.minExponent ≤ exponent
  /-- The exponent with its bias is below the one that infinities and NaN are packed with. -/
  high : exponent + format.mantissaBitsWithoutImplicit ≤ format.exponentBias
  /-- The leading bit is missing at the least exponent only. -/
  full : 2 ^ format.mantissaBitsWithoutImplicit ≤ mantissa ∨ exponent = format.minExponent

theorem minExponent_eq (format : Format) :
    format.minExponent = 1 - format.exponentBias - format.mantissaBitsWithoutImplicit := by
  have hpow : 1 ≤ 2 ^ (format.exponentBits - 1) := Nat.one_le_two_pow
  unfold Format.minExponent Format.exponentBias Format.mantissaBits
  push_cast [hpow]
  omega

theorem two_pow_exponentBits (format : Format) :
    2 ^ format.exponentBits = 2 * format.exponentBias + 2 := by
  have hpow : 1 ≤ 2 ^ (format.exponentBits - 1) := Nat.one_le_two_pow
  obtain ⟨n, hn⟩ := Nat.exists_eq_add_of_lt format.he
  unfold Format.exponentBias
  rw [hn] at hpow ⊢
  simp only [Nat.zero_add, Nat.add_sub_cancel, Nat.pow_succ] at hpow ⊢
  omega

theorem two_pow_mantissaBits (format : Format) :
    2 ^ format.mantissaBits = 2 * 2 ^ format.mantissaBitsWithoutImplicit := by
  rw [Format.mantissaBits, Nat.add_comm, Nat.pow_succ, Nat.mul_comm]

/-! ## Packing -/

theorem toNat_leading {n : Nat} (v : BitVec n) : (1#1 ++ v).toNat = 2 ^ n + v.toNat := by
  rw [BitVec.toNat_append, ← Nat.shiftLeft_add_eq_or_of_lt v.isLt]
  simp [Nat.shiftLeft_eq]

theorem eq_top_iff {n : Nat} (x : BitVec n) : x = -1#n ↔ x.toNat = 2 ^ n - 1 := by
  rw [BitVec.toNat_eq, BitVec.neg_one_eq_allOnes, BitVec.toNat_allOnes]

/-- Whatever is unpacked to a finite number is a number of the format. -/
theorem fits_of_unpack {b : BitVec format.numBits} {hpos : 0 < mantissa}
    (hbias : 0 < format.exponentBias)
    (h : UnpackedFloat.unpack format b = .finite sign mantissa exponent hpos) :
    Fits format mantissa exponent := by
  have hcap := two_pow_exponentBits format
  have hmin := minExponent_eq format
  have htwo := two_pow_mantissaBits format
  have hv := (@unpackMantissa format b).isLt
  have hx := (@unpackExponent format b).isLt
  unfold UnpackedFloat.unpack at h
  dsimp only at h
  split at h
  case isTrue => split at h <;> cases h
  case isFalse htop =>
    rw [eq_top_iff] at htop
    split at h
    case isTrue hleast =>
      rw [BitVec.toNat_eq, BitVec.toNat_zero] at hleast
      split at h
      case isTrue => cases h
      case isFalse =>
        cases h
        exact ⟨hpos, by omega, by omega, by omega, .inr (by omega)⟩
    case isFalse hleast =>
      rw [BitVec.toNat_eq, BitVec.toNat_zero] at hleast
      cases h
      have hlead := toNat_leading (@unpackMantissa format b)
      exact ⟨hpos, by omega, by omega, by omega, .inl (by omega)⟩

variable {x : BitVec format.exponentBits} {v : BitVec format.mantissaBitsWithoutImplicit}

/-- Between the least exponent and the top the leading bit is implied. -/
theorem unpack_leading (hx : 0 < x.toNat) (htop : x.toNat + 1 < 2 ^ format.exponentBits)
    (hpos : 0 < mantissa) (hv : 2 ^ format.mantissaBitsWithoutImplicit + v.toNat = mantissa) :
    UnpackedFloat.unpack format (packComponents format sign x v) = .finite sign mantissa
      (x.toNat - (format.exponentBias + format.mantissaBitsWithoutImplicit)) hpos := by
  have hx0 : x ≠ 0#_ := by
    rw [BitVec.toNat_ne, BitVec.toNat_zero]
    omega
  have hxtop : x ≠ -1#_ := by
    rw [ne_eq, eq_top_iff]
    omega
  subst hv
  unfold UnpackedFloat.unpack
  simp only [unpackMantissa_packComponents, unpackExponent_packComponents,
    unpackSign_packComponents, Sign.ofBitVec_toBitVec, hx0, hxtop, toNat_leading, if_false]

/-- At the least exponent there is no leading bit. -/
theorem unpack_least (hpos : 0 < mantissa) (hv : v.toNat = mantissa) :
    UnpackedFloat.unpack format (packComponents format sign 0#_ v) =
      .finite sign mantissa format.minExponent hpos := by
  have hcap := two_pow_exponentBits format
  have hxtop : 0#(format.exponentBits) ≠ -1#_ := by
    rw [ne_eq, eq_top_iff, BitVec.toNat_zero]
    omega
  have hv0 : v ≠ 0#_ := by
    rw [BitVec.toNat_ne, BitVec.toNat_zero]
    omega
  subst hv
  unfold UnpackedFloat.unpack
  simp only [unpackMantissa_packComponents, unpackExponent_packComponents,
    unpackSign_packComponents, Sign.ofBitVec_toBitVec, hxtop, hv0, if_false, if_true, dite_false]
  rw [minExponent_eq, BitVec.toNat_zero]
  congr 1
  omega

/-- A number of the format survives packing. -/
theorem unpack_pack (h : Fits format mantissa exponent) :
    UnpackedFloat.unpack format
        (UnpackedFloat.pack format (.finite sign mantissa exponent h.pos)) =
      .finite sign mantissa exponent h.pos := by
  have hcap := two_pow_exponentBits format
  have hmin := minExponent_eq format
  have htwo := two_pow_mantissaBits format
  obtain ⟨hpos, hlt, hlow, hhigh, hfull⟩ := h
  -- what is packed is the exponent with its bias, a number between 1 and that of the infinities
  obtain ⟨biased, hbiased⟩ : ∃ biased : Nat, (biased : Int) =
      exponent + format.exponentBias + format.mantissaBitsWithoutImplicit :=
    ⟨_, Int.toNat_of_nonneg (by omega)⟩
  have hbits : mantissa.log2 + 1 = format.mantissaBits ↔
      2 ^ format.mantissaBitsWithoutImplicit ≤ mantissa := by
    have hlog := (Nat.log2_lt hpos.ne').mpr hlt
    rw [← Nat.le_log2 hpos.ne']
    unfold Format.mantissaBits at hlog ⊢
    omega
  unfold UnpackedFloat.pack
  dsimp only
  rw [← hbiased, Int.toNat_natCast, if_neg (by omega)]
  by_cases hlead : 2 ^ format.mantissaBitsWithoutImplicit ≤ mantissa
  · have hx : (BitVec.ofNat format.exponentBits biased).toNat = biased := by
      rw [BitVec.toNat_ofNat, Nat.mod_eq_of_lt (by omega)]
    have hv : 2 ^ format.mantissaBitsWithoutImplicit +
        (BitVec.ofNat format.mantissaBitsWithoutImplicit mantissa).toNat = mantissa := by
      rw [BitVec.toNat_ofNat, Nat.mod_eq_sub_mod hlead, Nat.mod_eq_of_lt (by omega)]
      omega
    rw [if_pos (hbits.mpr hlead), unpack_leading (by omega) (by omega) hpos hv]
    congr 1
    omega
  · have hv : (BitVec.ofNat format.mantissaBitsWithoutImplicit mantissa).toNat = mantissa := by
      rw [BitVec.toNat_ofNat, Nat.mod_eq_of_lt (by omega)]
    rw [if_neg (mt hbits.mp hlead), unpack_least hpos hv]
    congr 1
    omega

/-! ## Rounding what fits -/

/-- Rounding aims at the exponent that a number of the format has. -/
theorem Fits.targetExponent_eq (h : Fits format mantissa exponent) :
    format.targetExponent (totalExponent mantissa exponent) = exponent := by
  obtain ⟨hpos, hlt, hlow, -, hfull⟩ := h
  have hlog : mantissa.log2 < format.mantissaBits := (Nat.log2_lt hpos.ne').mpr hlt
  unfold Format.targetExponent totalExponent
  rcases hfull with hfull | hmin
  · have hfill : format.mantissaBitsWithoutImplicit ≤ mantissa.log2 :=
      (Nat.le_log2 hpos.ne').mpr hfull
    have hbits : format.mantissaBits = 1 + format.mantissaBitsWithoutImplicit := rfl
    omega
  · omega

theorem log2_shiftLeft (hpos : 0 < mantissa) (k : Nat) :
    (mantissa <<< k).log2 = mantissa.log2 + k := by
  rw [Nat.shiftLeft_eq, Nat.log2_eq_iff (by positivity), Nat.pow_add, Nat.add_right_comm,
    Nat.pow_add]
  exact ⟨Nat.mul_le_mul_right _ (Nat.log2_self_le hpos.ne'),
    Nat.mul_lt_mul_of_pos_right Nat.lt_log2_self (Nat.two_pow_pos k)⟩

/-- With zeros appended to the mantissa the value is the same. -/
theorem totalExponent_shiftLeft (hpos : 0 < mantissa) (k : Nat) :
    totalExponent (mantissa <<< k) (exponent - k) = totalExponent mantissa exponent := by
  unfold totalExponent
  rw [log2_shiftLeft hpos]
  omega

/-- Zeros that are shifted out leave nothing to round. -/
theorem shiftRight_shiftLeft (m k : Nat) :
    ExtendedMantissa.mk (m <<< k) false false >>> k = ⟨m, false, false⟩ := by
  induction k generalizing m with
  | zero => rfl
  | succ k ih =>
      show (ExtendedMantissa.mk (m <<< (k + 1)) false false >>> k).shiftRightOne = _
      rw [Nat.add_comm, Nat.shiftLeft_add, ih]
      simp [ExtendedMantissa.shiftRightOne, Nat.shiftLeft_eq]

theorem shiftToTargetExponent_shiftLeft (h : Fits format mantissa exponent) (k : Nat) :
    shiftToTargetExponent format (mantissa <<< k) (exponent - k) .exact =
      (⟨mantissa, false, false⟩, exponent) := by
  unfold shiftToTargetExponent shiftToExponent
  have hk : (exponent - (exponent - k)).toNat = k := by omega
  rw [totalExponent_shiftLeft h.pos, h.targetExponent_eq]
  simp only [hk, ExtendedMantissa.ofMantissaAndAccuracy, shiftRight_shiftLeft]
  congr 1
  omega

/-- A second shift, for mantissas that were rounded up to one bit more, finds nothing to do. -/
theorem roundWithAccuracy_shiftLeft (h : Fits format mantissa exponent) (k : Nat) :
    roundWithAccuracy format sign (mantissa <<< k) (exponent - k) .exact =
      .finite sign mantissa exponent h.pos := by
  have hagain : shiftToTargetExponent format mantissa exponent .exact =
      (⟨mantissa, false, false⟩, exponent) := by
    simpa using shiftToTargetExponent_shiftLeft h 0
  unfold roundWithAccuracy
  rw [shiftToTargetExponent_shiftLeft h]
  dsimp only [ExtendedMantissa.roundedMantissa, ExtendedMantissa.accuracy,
    Accuracy.roundToNearestEven]
  rw [hagain]
  exact dif_neg h.pos.ne'

/-- A number is rounded to itself, whatever zeros its mantissa carries. -/
theorem round_shiftLeft (h : Fits format mantissa exponent) (k : Nat) :
    UnpackedFloat.round format sign (mantissa <<< k) (exponent - k) =
      .finite sign mantissa exponent h.pos := by
  have hk : (exponent - k - exponent).toNat = 0 := by omega
  unfold UnpackedFloat.round decreaseExponent
  rw [totalExponent_shiftLeft h.pos, h.targetExponent_eq]
  simpa [hk] using roundWithAccuracy_shiftLeft h k

/-- Rounding appends the zeros that a number of the format needs. -/
theorem round_of_fits {k : Nat} (hpos : 0 < mantissa)
    (h : Fits format (mantissa <<< k) (exponent - k)) :
    UnpackedFloat.round format sign mantissa exponent =
      .finite sign (mantissa <<< k) (exponent - k) h.pos := by
  have htarget := h.targetExponent_eq
  rw [totalExponent_shiftLeft hpos] at htarget
  have hk : (exponent - (exponent - k)).toNat = k := by omega
  unfold UnpackedFloat.round decreaseExponent
  rw [htarget]
  simpa [hk] using roundWithAccuracy_shiftLeft h 0

/-! ## Singles as doubles -/

/-- A single fits double precision with its leading bit shifted to the left end. -/
theorem Fits.toDouble (h : Fits .binary32 mantissa exponent) :
    Fits .binary64 (mantissa <<< (52 - mantissa.log2))
      (exponent - (52 - mantissa.log2 : Nat)) := by
  obtain ⟨hpos, hlt, hlow, hhigh, -⟩ := h
  have hlog : mantissa.log2 < 24 := (Nat.log2_lt hpos.ne').mpr hlt
  have hshift : (mantissa <<< (52 - mantissa.log2)).log2 = 52 := by
    rw [log2_shiftLeft hpos]
    omega
  have hpos' : 0 < mantissa <<< (52 - mantissa.log2) := by
    rw [Nat.shiftLeft_eq]
    positivity
  obtain ⟨hfull, hlt'⟩ := (Nat.log2_eq_iff hpos'.ne').mp hshift
  rw [show Format.binary32.minExponent = -149 by decide] at hlow
  rw [show Format.binary32.exponentBias = 127 by decide] at hhigh
  have hlow' : Format.binary64.minExponent = -1074 := by decide
  have hhigh' : Format.binary64.exponentBias = 1023 := by decide
  dsimp only at hhigh
  exact ⟨hpos', hlt', by omega, by dsimp only; omega, .inl hfull⟩

/-- A finite single is nearest to the double that is nearest to it. -/
theorem nearest_nearest (h : Fits .binary32 mantissa exponent) :
    nearest .binary32 (Float.Model.pack
      (nearest .binary64 (.finite sign mantissa exponent h.pos))).unpack =
      .finite sign mantissa exponent h.pos := by
  show nearest .binary32 (Float.Model.pack (.round .binary64 sign mantissa exponent)).unpack = _
  rw [round_of_fits h.pos h.toDouble]
  show nearest .binary32 (UnpackedFloat.unpack .binary64 (UnpackedFloat.pack .binary64 _)) = _
  rw [unpack_pack h.toDouble]
  exact round_shiftLeft h _

/-- Narrowing brings back every single that was widened, infinities and NaN included. -/
theorem narrow_widen (x : Float32) : narrow (widen x) = x := by
  have hpack : Float32.Model.pack x.toModel.unpack = x.toModel := by
    have hbits := pack_unpack_of_valid x.toModel.valid
    unfold Float32.Model.pack Float32.Model.unpack
    simp only [hbits]
  have hback : nearest .binary32 (Float.Model.pack (nearest .binary64 x.toModel.unpack)).unpack =
      x.toModel.unpack := by
    cases hu : x.toModel.unpack with
    | infinity sign => cases sign <;> rfl
    | notANumber => rfl
    | zero sign => cases sign <;> rfl
    | finite sign mantissa exponent hpos =>
        exact nearest_nearest (fits_of_unpack (by decide) hu)
  show Float32.ofModel (.pack (nearest .binary32
    (Float.Model.pack (nearest .binary64 x.toModel.unpack)).unpack)) = x
  rw [hback, hpack]

/-- The least positive single is a number like any other in double precision. -/
example : (widen (.ofBits 0x00000001)).toBits = 0x36a0000000000000 ∧
    (narrow (.ofBits 0x36a0000000000000)).toBits = 0x00000001 := by decide

end PdfPages.Number
