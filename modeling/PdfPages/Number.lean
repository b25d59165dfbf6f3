/-!
# Conversions between number formats

Page boxes hold single-precision numbers, documents hold 64-bit integers and
double-precision reals. Each conversion below rounds once, to the nearest number of
the target format with ties going to the even mantissa, and an overflow gives an
infinity. All of them are defined on the unpacked sign, mantissa and exponent, so
they compute in the logic as well as in the compiled program.
-/

namespace PdfPages.Number

open Float.Model (Format UnpackedFloat)

/-- The number of `format` that is nearest to `x`. -/
def nearest (format : Format) : UnpackedFloat → UnpackedFloat
  | .finite sign mantissa exponent _ => .round format sign mantissa exponent
  | x => x

/-- The double nearest to an integer. -/
def ofInt64 (n : Int64) : Float := .ofModel (.ofInt64 n)

/-- The single nearest to a double. -/
def narrow (x : Float) : Float32 := .ofModel (.pack (nearest .binary32 x.toModel.unpack))

/-- The double equal to a single. -/
def widen (x : Float32) : Float := .ofModel (.pack (nearest .binary64 x.toModel.unpack))

/-- The single nearest to an integer. -/
def narrowInt (n : Int) : Float32 := .ofModel (.ofInt n)

/-- The integer left of `x` once its fraction is dropped; none for infinities and NaN. -/
def wholePart? : UnpackedFloat → Option Int
  | .finite sign mantissa exponent _ =>
      some (sign.apply (mantissa <<< exponent.toNat >>> (-exponent).toNat : Nat))
  | .zero _ => some 0
  | .infinity _ | .notANumber => none

/-- The whole part of a finite double that fits 64 bits. -/
def truncate? (x : Float) : Option Int64 :=
  match wholePart? x.toModel.unpack with
  | some n =>
      if Int64.minValue.toInt ≤ n ∧ n ≤ Int64.maxValue.toInt then some (Int64.ofInt n) else none
  | none => none

/-- The fraction is dropped wherever what is left of the double fits 64 bits, and only there. -/
theorem truncate?_eq_some_iff {x : Float} {n : Int64} :
    truncate? x = some n ↔ wholePart? x.toModel.unpack = some n.toInt := by
  unfold truncate?
  cases wholePart? x.toModel.unpack with
  | none => simp
  | some whole =>
      dsimp only
      by_cases hfits : Int64.minValue.toInt ≤ whole ∧ whole ≤ Int64.maxValue.toInt
      · rw [if_pos hfits, Option.some.injEq, Option.some.injEq, ← Int64.toInt_inj,
          Int64.toInt_ofInt_of_le hfits.1 (Int.lt_add_one_of_le hfits.2)]
      · rw [if_neg hfits]
        refine ⟨(fun h => nomatch h), fun h => absurd ?_ hfits⟩
        rw [Option.some.inj h]
        exact ⟨n.minValue_le_toInt, n.toInt_le⟩

/-- Dropping is not rounding down, and the least integer has no counterpart. -/
example : truncate? (.ofBits 0xbffe666666666666) = some (-1) ∧
    truncate? (.ofBits 0xc3e0000000000000) = some (-9223372036854775808) ∧
    truncate? (.ofBits 0x43e0000000000000) = none := by decide

end PdfPages.Number
