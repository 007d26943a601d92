import FieldPath.Proofs.Decimal.Nearest
import FieldPath.Proofs.Decimal.Shortest
import Mathlib.Data.Nat.Prime.Basic

/-!
# Shortest decimals of whole numbers

A number is whole exactly if its shortest decimal is. The two stand on the same side of
every power of two, save where the number is the power itself and its digits, being
rounded, are not.
-/

namespace FieldPath

namespace Decimal

/-- The integer that a decimal with no digits after the point stands for. -/
def toNat (d : Decimal) : Nat := d.coefficient * 10 ^ d.exponent.toNat

theorem value_eq_toNat {d : Decimal} (h : 0 ≤ d.exponent) : d.value = d.toNat := by
  have hexponent : d.exponent = (d.exponent.toNat : Int) := by omega
  rw [value, toNat, Nat.cast_mul, Nat.cast_pow, Nat.cast_ofNat, ← zpow_natCast, ← hexponent]

end Decimal

namespace Binary64

variable {x : Binary64} {tie : Tie}

def wholePart (x : Binary64) : Nat := x.scaled >>> scaleBits

def toInt? (x : Binary64) : Option Int :=
  if x.isWhole then some (if x.isNegative then -(x.wholePart : Int) else x.wholePart) else none

theorem scaled_of_isWhole (h : x.isWhole = true) : x.scaled = x.wholePart * 2 ^ scaleBits := by
  rw [isWhole, Bool.and_eq_true, beq_iff_eq, Nat.shiftLeft_eq, Nat.one_mul] at h
  rw [wholePart, Nat.shiftRight_eq_div_pow]
  exact (Nat.div_mul_cancel (Nat.dvd_of_mod_eq_zero h.2)).symm

/-- In the units of its interval a whole number is a multiple of one. -/
theorem ofNumber_value_of_isWhole (h : x.isWhole = true) :
    (Neighbourhood.ofNumber x).value = x.wholePart * Neighbourhood.unit := by
  change 4 * x.scaled = x.wholePart * (1 <<< (scaleBits + 2))
  rw [scaled_of_isWhole h, Nat.shiftLeft_eq, Nat.one_mul, Nat.pow_add]
  generalize 2 ^ scaleBits = scale
  ring

theorem scaled_of_isZero (h : x.isZero = true) : x.scaled = 0 := by
  have hmagnitude : x.magnitude = 0 := eq_of_beq h
  rw [scaled_eq, significand, hmagnitude, if_pos (by decide), Nat.zero_mul]

theorem isZero_shortest (h : x.isZero = true) : x.shortest tie = ⟨0, 0⟩ := by
  rw [shortest, if_pos h]

/-! ## Whole decimals -/

/-- A whole number stands on the grid of the integers, so no finer one is tried. -/
theorem exponent_shortest_nonneg (h : x.isWhole = true) : 0 ≤ (x.shortest tie).exponent := by
  cases hzero : x.isZero with
  | true => rw [isZero_shortest hzero]
  | false =>
      have hvalue := ofNumber_value_of_isWhole h
      have hlow := ofNumber_low_lt hzero
      have hpos : 0 < x.wholePart := by
        refine Nat.pos_of_ne_zero fun hnone => ?_
        rw [hnone, Nat.zero_mul] at hvalue
        omega
      rw [shortest, hzero, if_neg Bool.false_ne_true]
      refine le_trans (Neighbourhood.exponent_searchAux_nonneg ?_ ?_)
        (Decimal.le_exponent_stripZeros _)
      · exact Neighbourhood.onGrid?_of_multiple hvalue hlow (ofNumber_lt_high hzero) tie
      · exact Neighbourhood.leading_nonneg hvalue hpos

/-! ## Powers of two

In units of a last place the number is four times its significand, and the ends of its
interval are at most two away. So a multiple of four that is inside is the number itself.
-/

theorem pow_mul_unit {bits exponent : Nat} (h : exponent ≤ bits + scaleBits) :
    2 ^ bits * Neighbourhood.unit = 4 * (2 ^ (bits + scaleBits - exponent) * 2 ^ exponent) := by
  rw [← Nat.pow_add, Nat.sub_add_cancel h, Neighbourhood.unit, Nat.shiftLeft_eq, Nat.one_mul,
    Nat.pow_add, Nat.pow_add]
  ring

theorem pow_mul_unit_le {bits exponent : Nat} (h : bits + scaleBits ≤ exponent) :
    2 ^ bits * Neighbourhood.unit ≤ 4 * 2 ^ exponent := by
  rw [pow_mul_unit (Nat.le_refl (bits + scaleBits)), Nat.sub_self, Nat.pow_zero, Nat.one_mul]
  exact Nat.mul_le_mul_left 4 (Nat.pow_le_pow_right (by decide) h)

theorem le_of_mul_le_add {a b ulp : Nat} (hulp : 0 < ulp)
    (h : 4 * (a * ulp) ≤ 4 * (b * ulp) + 2 * ulp) : a ≤ b := by
  by_contra hless
  have hnext := Nat.mul_le_mul_right ulp (Nat.lt_of_not_le hless)
  rw [Nat.succ_mul] at hnext
  omega

/-- The shortest decimal is at most two units of a quarter of the last place away. -/
theorem toNat_shortest_near (hzero : x.isZero = false) (h : 0 ≤ (x.shortest tie).exponent) :
    (x.shortest tie).toNat * Neighbourhood.unit ≤
        4 * (x.significand * 2 ^ x.exponent) + 2 * 2 ^ x.exponent ∧
      4 * (x.significand * 2 ^ x.exponent) ≤
        (x.shortest tie).toNat * Neighbourhood.unit + 2 * 2 ^ x.exponent := by
  have hbounds := contains_shortest hzero tie
  rw [Decimal.value_eq_toNat h] at hbounds
  have hlow : (Neighbourhood.ofNumber x).low ≤ (x.shortest tie).toNat * Neighbourhood.unit := by
    exact_mod_cast hbounds.1
  have hhigh : (x.shortest tie).toNat * Neighbourhood.unit ≤ (Neighbourhood.ofNumber x).high := by
    exact_mod_cast hbounds.2
  obtain ⟨hvalue, hhighEq, hlowEq⟩ := ofNumber_spec hzero
  omega

/-- An integer in the interval of a number with a last place below the unit is that number. -/
theorem exponent_shortest_neg (hfinite : x.isFinite = true) (h : x.isWhole = false) :
    (x.shortest tie).exponent < 0 := by
  by_contra hnonneg
  have hfraction : ¬2 ^ scaleBits ∣ x.scaled := by
    intro hdvd
    rw [isWhole, hfinite, Nat.shiftLeft_eq, Nat.one_mul, Nat.mod_eq_zero_of_dvd hdvd] at h
    cases h
  have hzero : x.isZero = false := by
    cases hzero : x.isZero with
    | false => rfl
    | true => exact absurd (scaled_of_isZero hzero ▸ Nat.dvd_zero _) hfraction
  have hexponent : x.exponent ≤ scaleBits := by
    by_contra hlarge
    refine hfraction ?_
    rw [scaled_eq]
    exact Dvd.dvd.mul_left (Nat.pow_dvd_pow 2 (by omega)) _
  obtain ⟨hupper, hlower⟩ := toNat_shortest_near hzero (not_lt.mp hnonneg)
  have hulp := Nat.two_pow_pos x.exponent
  have hmultiple : (x.shortest tie).toNat * Neighbourhood.unit =
      4 * ((x.shortest tie).toNat * 2 ^ (scaleBits - x.exponent) * 2 ^ x.exponent) := by
    have hunit := pow_mul_unit (by omega : x.exponent ≤ 0 + scaleBits)
    rw [Nat.pow_zero, Nat.one_mul, Nat.zero_add] at hunit
    rw [hunit, Nat.mul_left_comm, Nat.mul_assoc]
  rw [hmultiple] at hupper hlower
  have hsignificand := Nat.le_antisymm (le_of_mul_le_add hulp hupper)
    (le_of_mul_le_add hulp hlower)
  refine hfraction ⟨(x.shortest tie).toNat, ?_⟩
  rw [scaled_eq, ← hsignificand, Nat.mul_assoc, ← Nat.pow_add, Nat.sub_add_cancel hexponent,
    Nat.mul_comm]

theorem toNat_shortest_lt (h : x.isWhole = true) {bits : Nat} (hless : x.wholePart < 2 ^ bits) :
    (x.shortest tie).toNat < 2 ^ bits := by
  cases hzero : x.isZero with
  | true =>
      rw [isZero_shortest hzero]
      exact Nat.two_pow_pos bits
  | false =>
      have hunit : 0 < Neighbourhood.unit := by exact_mod_cast Neighbourhood.unit_pos
      have hulp := Nat.two_pow_pos x.exponent
      have hvalue := (ofNumber_spec hzero).1.symm.trans (ofNumber_value_of_isWhole h)
      obtain ⟨hupper, -⟩ := toNat_shortest_near hzero (exponent_shortest_nonneg h)
      have hbelow := Nat.mul_lt_mul_of_pos_right hless hunit
      have hexponent : x.exponent ≤ bits + scaleBits := by
        by_contra hlarge
        have hpower := pow_mul_unit_le (Nat.le_of_not_le hlarge)
        have hpos := Nat.mul_le_mul_right (2 ^ x.exponent) (significand_pos hzero)
        omega
      rw [← hvalue, pow_mul_unit hexponent] at hbelow
      by_contra hlarge
      have hpower := Nat.mul_le_mul_right Neighbourhood.unit (Nat.le_of_not_lt hlarge)
      rw [pow_mul_unit hexponent] at hpower
      have hle := le_of_mul_le_add hulp (Nat.le_trans hpower hupper)
      have hcontra := Nat.mul_le_mul_right (2 ^ x.exponent) hle
      omega

theorem lt_toNat_shortest (h : x.isWhole = true) {bits : Nat} (hless : 2 ^ bits < x.wholePart) :
    2 ^ bits < (x.shortest tie).toNat := by
  have hunit : 0 < Neighbourhood.unit := by exact_mod_cast Neighbourhood.unit_pos
  have hulp := Nat.two_pow_pos x.exponent
  have habove := Nat.mul_lt_mul_of_pos_right hless hunit
  rw [← ofNumber_value_of_isWhole h] at habove
  have hzero : x.isZero = false := by
    cases hzero : x.isZero with
    | false => rfl
    | true =>
        rw [ofNumber_value_of_isWhole h, wholePart, scaled_of_isZero hzero, Nat.zero_shiftRight,
          Nat.zero_mul] at habove
        exact absurd habove (Nat.not_lt_zero _)
  have hvalue := (ofNumber_spec hzero).1
  obtain ⟨-, hlower⟩ := toNat_shortest_near hzero (exponent_shortest_nonneg h)
  by_contra hsmall
  have hpower := Nat.mul_le_mul_right Neighbourhood.unit (Nat.le_of_not_lt hsmall)
  by_cases hexponent : x.exponent ≤ bits + scaleBits
  · rw [pow_mul_unit hexponent] at habove hpower
    have hle := le_of_mul_le_add hulp (Nat.le_trans hlower (Nat.add_le_add_right hpower _))
    have hcontra := Nat.mul_le_mul_right (2 ^ x.exponent) hle
    omega
  · -- the power is below the last place, and all of the significand above it
    have hscale : scaleBits = 1075 := rfl
    have hbits : 2 ^ 52 ≤ x.significand := hiddenBit_le_significand (by omega)
    have hpowerLe := pow_mul_unit_le (Nat.le_of_not_le hexponent)
    have hcontra := Nat.mul_le_mul_right (2 ^ x.exponent) hbits
    omega

/-- Only one word has the magnitude of a power of two. -/
theorem magnitude_of_wholePart (h : x.isWhole = true) {bits : Nat}
    (hpower : x.wholePart = 2 ^ bits) : x.magnitude = (bits + 1023) * 2 ^ 52 := by
  have hscale : scaleBits = 1075 := rfl
  have hhidden : hiddenBit = 2 ^ 52 := rfl
  have hscaled : x.significand * 2 ^ x.exponent = 2 ^ (bits + scaleBits) := by
    rw [← scaled_eq, scaled_of_isWhole h, hpower, Nat.pow_add]
  obtain ⟨shift, -, hsignificand⟩ := (Nat.dvd_prime_pow Nat.prime_two).mp ⟨_, hscaled.symm⟩
  rw [hsignificand, ← Nat.pow_add] at hscaled
  have hsum := Nat.pow_right_injective (Nat.le_refl 2) hscaled
  have hshift : shift < 53 :=
    (Nat.pow_lt_pow_iff_right (by decide)).mp (hsignificand ▸ x.significand_lt)
  have hleast := x.hiddenBit_le_significand (by omega)
  have hshiftEq : shift = 52 :=
    Nat.le_antisymm (Nat.le_of_lt_succ hshift)
      ((Nat.pow_le_pow_iff_right (by decide)).mp (hsignificand ▸ hleast))
  subst hshiftEq
  have hnormal : ¬x.magnitude < hiddenBit := by
    intro hless
    rw [significand, if_pos hless] at hleast
    omega
  rw [significand, if_neg hnormal, hhidden] at hsignificand
  rw [exponent, hhidden] at hsum
  omega

theorem shortest_congr {y : Binary64} (h : x.magnitude = y.magnitude) (tie : Tie) :
    x.shortest tie = y.shortest tie := by
  have hexponent : x.exponent = y.exponent := by rw [exponent, exponent, h]
  have hsignificand : x.significand = y.significand := by rw [significand, significand, h]
  have hzero : x.isZero = y.isZero := by rw [isZero, isZero, h]
  have hneighbourhood : Neighbourhood.ofNumber x = Neighbourhood.ofNumber y := by
    simp only [Neighbourhood.ofNumber, scaled, hexponent, hsignificand]
  rw [shortest, shortest, hzero, hneighbourhood]

/-- Where the digits of a power of two are rounded up, no number from it on has digits below. -/
theorem lt_toNat_shortest_of_le (h : x.isWhole = true) {bits : Nat} (hword : bits + 1023 < 2048)
    (hrounded : 2 ^ bits < ((ofWord false ((bits + 1023) * 2 ^ 52)).shortest tie).toNat)
    (hle : 2 ^ bits ≤ x.wholePart) : 2 ^ bits < (x.shortest tie).toNat := by
  rcases Nat.eq_or_lt_of_le hle with heq | hlt
  · have hfits : (bits + 1023) * 2 ^ 52 < signWeight :=
      Nat.lt_of_lt_of_eq (Nat.mul_lt_mul_of_pos_right hword (by decide)) (by decide)
    have hmagnitude : x.magnitude = (ofWord false ((bits + 1023) * 2 ^ 52)).magnitude :=
      (magnitude_of_wholePart h heq.symm).trans (magnitude_ofWord hfits false).symm
    rwa [shortest_congr hmagnitude]
  · exact lt_toNat_shortest h hlt

end Binary64

end FieldPath
