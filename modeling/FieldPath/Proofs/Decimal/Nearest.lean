import FieldPath.Decimal.Numeral
import Mathlib.Algebra.Group.Nat.Defs
import Mathlib.Tactic.SplitIfs

/-!
# Numerals within the finite range

A magnitude that is not near the end of the range is rounded to a finite number. This
covers every integer that 64 bits can hold, with any zeros before its digits.
-/

namespace FieldPath

namespace Binary64

theorem roundHalfEven_le (num den : Nat) : roundHalfEven num den ≤ num / den + 1 := by
  unfold roundHalfEven
  dsimp only
  split_ifs <;> omega

/-- What lies below `2 ^ 1023` needs one of the finite exponents. -/
theorem nearestWord_lt {num den bits : Nat} (hbits : bits ≤ 1023) (h : num < 2 ^ bits * den) :
    nearestWord num den < infinityWord := by
  have hden : 0 < den := Nat.pos_of_mul_pos_left (Nat.zero_lt_of_lt h)
  unfold nearestWord
  simp only [Nat.shiftLeft_eq]
  generalize hwhole : num * 2 ^ scaleBits / den = whole
  generalize hexponent : max 1 (whole.log2 - 52) = exponent
  have hsmall : whole < 2 ^ (bits + scaleBits) := by
    rw [← hwhole, Nat.div_lt_iff_lt_mul hden, Nat.pow_add, Nat.mul_right_comm]
    exact Nat.mul_lt_mul_of_pos_right h (Nat.two_pow_pos _)
  have hlog : whole.log2 < bits + 1075 := by
    by_cases hzero : whole = 0
    · rw [hzero, Nat.log2_zero]
      omega
    · exact (Nat.log2_lt hzero).mpr hsmall
  -- the significand has 53 bits, or is the carry out of them
  have hsignificand : roundHalfEven (num * 2 ^ scaleBits) (den * 2 ^ exponent) ≤ 2 ^ 53 := by
    have hfloor : num * 2 ^ scaleBits / (den * 2 ^ exponent) < 2 ^ 53 := by
      rw [← Nat.div_div_eq_div_mul, hwhole, Nat.div_lt_iff_lt_mul (Nat.two_pow_pos _),
        ← Nat.pow_add]
      exact Nat.lt_of_lt_of_le Nat.lt_log2_self (Nat.pow_le_pow_right (by decide) (by omega))
    have hround := roundHalfEven_le (num * 2 ^ scaleBits) (den * 2 ^ exponent)
    omega
  have hfields : (exponent - 1) * hiddenBit ≤ 2044 * hiddenBit :=
    Nat.mul_le_mul_right _ (by omega)
  have hend : 2044 * hiddenBit + 2 ^ 53 < infinityWord := by decide
  exact Nat.lt_of_le_of_lt (Nat.min_le_right _ _)
    (Nat.lt_of_le_of_lt (Nat.add_le_add hfields hsignificand) hend)

theorem magnitude_ofWord {word : Nat} (h : word < signWeight) (negative : Bool) :
    (ofWord negative word).magnitude = word := by
  have hweight : signWeight = 2 ^ 63 := rfl
  have hfits : (if negative then signWeight + word else word) < UInt64.size := by
    have hsize : UInt64.size = 2 ^ 64 := rfl
    split <;> omega
  rw [magnitude, ofWord, UInt64.toNat_ofNat_of_lt' hfits]
  split
  · rw [Nat.add_mod_left, Nat.mod_eq_of_lt h]
  · exact Nat.mod_eq_of_lt h

theorem isFinite_ofWord {word : Nat} (h : word < infinityWord) (negative : Bool) :
    (ofWord negative word).isFinite = true := by
  have hlow : infinityWord ≤ signWeight := by decide
  rw [isFinite, magnitude_ofWord (Nat.lt_of_lt_of_le h hlow), decide_eq_true_eq]
  exact h

end Binary64

theorem Decimal.isFinite_toBinary64 {n : Nat} (h : n < 2 ^ 64) (negative : Bool) :
    ((⟨n, 0⟩ : Decimal).toBinary64 negative).isFinite = true := by
  have hdigits : digitCount n ≤ 20 :=
    (Nat.length_toDigits_le_iff (by decide) (by decide)).mpr (by omega)
  have horder : ¬400 < (⟨n, 0⟩ : Decimal).order := by
    change ¬400 < (digitCount n : Int) + 0
    omega
  unfold toBinary64
  rw [if_neg horder]
  split
  · exact Binary64.isFinite_ofWord (by decide) negative
  · refine Binary64.isFinite_ofWord (Binary64.nearestWord_lt (by decide : 64 ≤ 1023) ?_) negative
    change n * 1 < 2 ^ 64 * 1
    omega

end FieldPath
