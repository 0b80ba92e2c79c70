import LittleScheme.Number.Basic
import Mathlib

/-!
# Integers as doubles

The double nearest to an integer is zero only for the integer zero. Rounding keeps at least the leading
bit of a magnitude, and a mantissa that is not zero is still there once the double has been packed into
its bits. So a number can be tested for zero as a double, whichever kind of number it is.
-/
namespace LittleScheme.Inexact

open Float.Model Float.Model.UnpackedFloat

theorem minExponent_eq : Format.binary64.minExponent = -1074 := rfl

theorem exponentBias_eq : ((Format.binary64.exponentBias : Nat) : Int) = 1023 := rfl

/-! ### Rounding a magnitude -/

theorem mantissa_shiftRight (em : ExtendedMantissa) (k : Nat) :
    (em >>> k).mantissa = em.mantissa >>> k := by
  change (Nat.repeat ExtendedMantissa.shiftRightOne k em).mantissa = _
  induction k with
  | zero => rfl
  | succ k ih =>
      rw [Nat.repeat, Nat.shiftRight_succ, ← ih]
      rfl

theorem mantissa_le_roundedMantissa (em : ExtendedMantissa) :
    em.mantissa ≤ em.roundedMantissa := by
  unfold ExtendedMantissa.roundedMantissa Accuracy.roundToNearestEven
  split <;> omega

theorem mantissa_ofMantissaAndAccuracy (n : Nat) (accuracy : Accuracy) :
    (ExtendedMantissa.ofMantissaAndAccuracy n accuracy).mantissa = n := by
  unfold ExtendedMantissa.ofMantissaAndAccuracy
  split <;> rfl

/-- A magnitude is shifted until it has 53 bits, unless it has no more. -/
theorem shiftToTargetExponent_eq {n : Nat} {e : Int} (he : -1074 ≤ e) (accuracy : Accuracy) :
    (shiftToTargetExponent .binary64 n e accuracy).1.mantissa = n >>> (n.log2 - 52) ∧
      (shiftToTargetExponent .binary64 n e accuracy).2 = e + (n.log2 - 52 : Nat) := by
  have hbits : (Format.binary64.mantissaBits : Int) = 53 := rfl
  have hshift : (Format.binary64.targetExponent (totalExponent n e) - e).toNat = n.log2 - 52 := by
    simp only [Format.targetExponent, totalExponent, hbits, minExponent_eq]
    omega
  simp only [shiftToTargetExponent, shiftToExponent, hshift, mantissa_shiftRight,
    mantissa_ofMantissaAndAccuracy, and_self]

/-- The shift keeps the leading bit. -/
theorem shifted_bounds {n : Nat} (hn : 0 < n) :
    0 < n >>> (n.log2 - 52) ∧ n >>> (n.log2 - 52) < 2 ^ 53 := by
  have hlow := Nat.log2_self_le (Nat.ne_of_gt hn)
  have hhigh := Nat.lt_log2_self (n := n)
  rw [Nat.shiftRight_eq_div_pow]
  constructor
  · exact Nat.div_pos (Nat.le_trans (Nat.pow_le_pow_right (by decide) (by omega)) hlow)
      (Nat.two_pow_pos _)
  · rw [Nat.div_lt_iff_lt_mul (Nat.two_pow_pos _), ← Nat.pow_add]
    exact Nat.lt_of_lt_of_le hhigh (Nat.pow_le_pow_right (by decide) (by omega))

/-- A finite double other than zero, with a mantissa and an exponent that its bits have room for. -/
inductive Regular : UnpackedFloat → Prop
  | finite {sign : Sign} {m : Nat} {e : Int} {h : 0 < m} (hm : m < 2 ^ 53) (he : -1074 ≤ e) :
      Regular (.finite sign m e h)

theorem regular_roundWithAccuracy {n : Nat} {e : Int} (hn : 0 < n) (he : -1074 ≤ e) (sign : Sign)
    (accuracy : Accuracy) : Regular (roundWithAccuracy .binary64 sign n e accuracy) := by
  obtain ⟨hm₁, he₁⟩ := shiftToTargetExponent_eq (n := n) he accuracy
  simp only [roundWithAccuracy]
  generalize shiftToTargetExponent .binary64 n e accuracy = first at hm₁ he₁ ⊢
  have hpos : 0 < first.1.roundedMantissa :=
    Nat.lt_of_lt_of_le (hm₁ ▸ (shifted_bounds hn).1) (mantissa_le_roundedMantissa _)
  obtain ⟨hm₂, he₂⟩ :=
    shiftToTargetExponent_eq (n := first.1.roundedMantissa) (e := first.2) (by omega) .exact
  have hbounds := shifted_bounds hpos
  rw [← hm₂] at hbounds
  rw [dif_neg (Nat.ne_of_gt hbounds.1)]
  exact .finite hbounds.2 (by omega)

theorem regular_ofUInt64 {n : UInt64} (hn : 0 < n.toNat) :
    Regular (UnpackedFloat.ofUInt64 .binary64 n) := by
  have hcompare : Ord.compare (n.toNat : Int) 0 = .gt := Int.compare_eq_gt.2 (by omega)
  simp only [UnpackedFloat.ofUInt64, UnpackedFloat.ofNat, UnpackedFloat.ofInt, UnpackedFloat.normalize,
    hcompare, UnpackedFloat.round, decreaseExponent, Int.toNat_natCast]
  refine regular_roundWithAccuracy ?_ ?_ _ _
  · rw [Nat.shiftLeft_eq]
    exact Nat.mul_pos hn (Nat.two_pow_pos _)
  · have htarget : -1074 ≤ Format.binary64.targetExponent (totalExponent n.toNat 0) :=
      Int.le_max_right _ _
    omega

/-! ### Packing -/

theorem Regular.neg {u : UnpackedFloat} (h : Regular u) : Regular u.neg := by
  cases h with
  | finite hm he => exact .finite hm he

/-- The fields of the bits are zero. -/
def BlankFields (b : BitVec Format.binary64.numBits) : Prop :=
  (unpackExponent b).toNat = 0 ∧ (unpackMantissa b).toNat = 0

theorem blankFields_packComponents {s : Sign} {e : BitVec Format.binary64.exponentBits}
    {m : BitVec Format.binary64.mantissaBitsWithoutImplicit} :
    BlankFields (packComponents .binary64 s e m) ↔ e.toNat = 0 ∧ m.toNat = 0 := by
  rw [BlankFields, unpackExponent_packComponents, unpackMantissa_packComponents]

theorem not_blankFields_packedInfinity (s : Sign) : ¬ BlankFields (packedInfinity .binary64 s) := by
  rw [packedInfinity, blankFields_packComponents]
  decide

/-- Something is left in the bits of a double other than zero. -/
theorem Regular.not_blankFields {u : UnpackedFloat} (h : Regular u) :
    ¬ BlankFields (UnpackedFloat.pack .binary64 u) := by
  cases h with
  | @finite s m e hpos hm he =>
      rw [UnpackedFloat.pack]
      split
      · exact not_blankFields_packedInfinity s
      · rename_i hsmall
        change ¬ 2 ^ 11 ≤ (e + 1023 + 52).toNat + 1 at hsmall
        split
        -- With 53 bits of mantissa the exponent field is at least one.
        · rw [blankFields_packComponents, BitVec.toNat_ofNat]
          change ¬ ((e + 1023 + 52).toNat % 2 ^ 11 = 0 ∧ _)
          rw [Nat.mod_eq_of_lt (by omega)]
          omega
        -- With fewer bits the whole mantissa stands in its field.
        · rename_i hlog
          have hbits : Format.binary64.mantissaBits = 53 := rfl
          have hlow : m < 2 ^ 52 := by
            have := (Nat.log2_lt (Nat.ne_of_gt hpos)).2 hm
            exact (Nat.log2_lt (Nat.ne_of_gt hpos)).1 (by omega)
          rw [blankFields_packComponents, BitVec.toNat_ofNat m]
          change ¬ (_ ∧ m % 2 ^ 52 = 0)
          rw [Nat.mod_eq_of_lt hlow]
          omega

/-- What is read from the bits of a double is in range. -/
theorem regular_of_unpack {b : BitVec Format.binary64.numBits} {s : Sign} {m : Nat} {e : Int}
    {h : 0 < m} (hb : UnpackedFloat.unpack .binary64 b = .finite s m e h) :
    Regular (.finite s m e h) := by
  rw [UnpackedFloat.unpack] at hb
  simp only [exponentBias_eq] at hb
  split at hb
  · split at hb <;> cases hb
  · split at hb
    · split at hb
      · cases hb
      · cases hb
        exact .finite (Nat.lt_trans (unpackMantissa b).isLt (by decide)) (by omega)
    · rename_i hfield
      cases hb
      have : (unpackExponent b).toNat ≠ 0 := fun h0 => hfield (BitVec.eq_of_toNat_eq h0)
      exact .finite (1#1 ++ unpackMantissa b).isLt (by omega)

theorem blankFields_of_unpack {b : BitVec Format.binary64.numBits} {s : Sign}
    (hb : UnpackedFloat.unpack .binary64 b = .zero s) : BlankFields b := by
  rw [UnpackedFloat.unpack] at hb
  split at hb
  · split at hb <;> cases hb
  · split at hb
    · split at hb
      · rename_i hexponent hmantissa
        exact ⟨congrArg BitVec.toNat hexponent, congrArg BitVec.toNat hmantissa⟩
      · cases hb
    · cases hb

/-! ### Equal to zero -/

theorem beq_zero_iff (x : Float) : (x == 0) = true ↔ ∃ sign, x.toModel.unpack = .zero sign := by
  have hzero : (0 : Float).toModel.unpack = .zero .positive := rfl
  change (x.toModel.unpack.compare (0 : Float).toModel.unpack == some .eq) = true ↔ _
  rw [hzero]
  cases x.toModel.unpack with
  | notANumber => simp [UnpackedFloat.compare]
  | infinity s => cases s <;> simp [UnpackedFloat.compare]
  | zero s => simp [UnpackedFloat.compare]
  | finite s m e h => cases s <;> simp [UnpackedFloat.compare]

theorem toFloat_ne_zero {n : UInt64} (hn : 0 < n.toNat) : ¬ (n.toFloat == 0) = true := by
  rw [beq_zero_iff]
  rintro ⟨sign, hsign⟩
  exact (regular_ofUInt64 hn).not_blankFields (blankFields_of_unpack hsign)

theorem neg_ne_zero {x : Float} (hx : ¬ (x == 0) = true) : ¬ (-x == 0) = true := by
  rw [beq_zero_iff] at hx ⊢
  rintro ⟨sign, hsign⟩
  change (Float.Model.pack x.toModel.unpack.neg).unpack = _ at hsign
  have hblank := blankFields_of_unpack hsign
  revert hblank
  change ¬ BlankFields (UnpackedFloat.pack .binary64 x.toModel.unpack.neg)
  cases hu : x.toModel.unpack with
  | notANumber => exact fun h => absurd h.1 (by decide)
  | infinity s => exact not_blankFields_packedInfinity _
  | zero s => exact absurd ⟨s, hu⟩ hx
  | finite s m e h => exact (regular_of_unpack hu).neg.not_blankFields

end LittleScheme.Inexact

namespace LittleScheme.Number

/-- An integer is zero exactly when the nearest double is. -/
theorem isZero_integer (n : Int64) : (integer n).isZero = true ↔ n = 0 := by
  have hmagnitude (hn : n ≠ 0) : 0 < n.toInt.natAbs.toUInt64.toNat := by
    have hne : n.toInt ≠ 0 := fun h => hn (Int64.toInt_inj.1 h)
    have hlow := n.le_toInt
    have hhigh := n.toInt_lt
    rw [Nat.toUInt64_eq, UInt64.toNat_ofNat']
    omega
  constructor
  · intro h
    by_contra hn
    revert h
    simp only [isZero, toFloat, nearest]
    split
    · exact Inexact.neg_ne_zero (Inexact.toFloat_ne_zero (hmagnitude hn))
    · exact Inexact.toFloat_ne_zero (hmagnitude hn)
  · rintro rfl
    decide

end LittleScheme.Number
