import FieldPath.Decimal.Shortest
import Mathlib.Algebra.Order.Field.Rat
import Mathlib.Tactic.Linarith
import Mathlib.Tactic.NormNum
import Mathlib.Tactic.Ring

/-!
# Shortest decimals

The search for the shortest decimal ends inside of the number's interval: with seventeen
digits the grid is finer than the interval is wide. So every number but zero has a decimal
that rounds to it.
-/

namespace FieldPath

namespace Decimal

/-- The leading digit of a number that is not zero is in the place that the count says. -/
theorem pow_digitCount_le {n : Nat} (h : n ≠ 0) : 10 ^ (digitCount n - 1) ≤ n := by
  by_cases hsingle : digitCount n - 1 = 0
  · rw [hsingle]
    exact Nat.one_le_iff_ne_zero.mpr h
  · by_contra hless
    have hshort : digitCount n ≤ digitCount n - 1 :=
      (Nat.length_toDigits_le_iff (by decide) (by omega)).mpr (by omega)
    omega

def value (d : Decimal) : ℚ := d.coefficient * 10 ^ d.exponent

theorem powerOfTen_pos (exponent : Int) :
    0 < (powerOfTen exponent).1 ∧ 0 < (powerOfTen exponent).2 :=
  ⟨Nat.pow_pos (by decide), Nat.pow_pos (by decide)⟩

theorem powerOfTen_eq (exponent : Int) :
    ((powerOfTen exponent).1 : ℚ) = 10 ^ exponent * (powerOfTen exponent).2 := by
  have hten : (10 : ℚ) ≠ 0 := by norm_num
  have hparts : (exponent.toNat : Int) = exponent + (-exponent).toNat := by omega
  change ((10 ^ exponent.toNat : Nat) : ℚ) = 10 ^ exponent * ((10 ^ (-exponent).toNat : Nat) : ℚ)
  rw [Nat.cast_pow, Nat.cast_pow, Nat.cast_ofNat, ← zpow_natCast, ← zpow_natCast, hparts,
    zpow_add₀ hten]

theorem value_stripZerosAux (fuel : Nat) (d : Decimal) :
    (stripZerosAux fuel d).value = d.value := by
  induction fuel generalizing d with
  | zero => rfl
  | succ fuel ih =>
      rw [stripZerosAux]
      split
      · rename_i h
        have hcoefficient : d.coefficient = d.coefficient / 10 * 10 := by omega
        have hcast : (d.coefficient : ℚ) = (d.coefficient / 10 : Nat) * 10 := by
          exact_mod_cast hcoefficient
        rw [ih, value, value, hcast, zpow_add₀ (by norm_num)]
        ring
      · rfl

theorem value_stripZeros (d : Decimal) : d.stripZeros.value = d.value := value_stripZerosAux _ d

theorem le_exponent_stripZerosAux (fuel : Nat) (d : Decimal) :
    d.exponent ≤ (stripZerosAux fuel d).exponent := by
  induction fuel generalizing d with
  | zero => exact le_refl _
  | succ fuel ih =>
      rw [stripZerosAux]
      split
      · exact le_trans (by simp) (ih _)
      · exact le_refl _

theorem le_exponent_stripZeros (d : Decimal) : d.exponent ≤ d.stripZeros.exponent :=
  le_exponent_stripZerosAux _ d

end Decimal

namespace Binary64

namespace Neighbourhood

/-! ## Intervals and grids -/

variable {n : Neighbourhood} {d : Decimal}

theorem unit_pos : (0 : ℚ) < unit := by
  rw [unit, Nat.shiftLeft_eq, Nat.one_mul, Nat.cast_pow]
  positivity

/-- A grid point as the comparison with the ends computes it. -/
theorem point_eq (d : Decimal) :
    ((d.coefficient * (Decimal.powerOfTen d.exponent).1 * unit : Nat) : ℚ) =
      d.value * unit * (Decimal.powerOfTen d.exponent).2 := by
  rw [Nat.cast_mul, Nat.cast_mul, Decimal.powerOfTen_eq, Decimal.value]
  ring

theorem contains_of_lt (hlow : n.low < d.value * unit) (hhigh : d.value * unit < n.high) :
    n.contains d = true := by
  have hdown : (0 : ℚ) < (Decimal.powerOfTen d.exponent).2 := by
    exact_mod_cast (Decimal.powerOfTen_pos d.exponent).2
  have habove : n.low * (Decimal.powerOfTen d.exponent).2 <
      d.coefficient * (Decimal.powerOfTen d.exponent).1 * unit := by
    have hcast := mul_lt_mul_of_pos_right hlow hdown
    rw [← point_eq] at hcast
    exact_mod_cast hcast
  have hbelow : d.coefficient * (Decimal.powerOfTen d.exponent).1 * unit <
      n.high * (Decimal.powerOfTen d.exponent).2 := by
    have hcast := mul_lt_mul_of_pos_right hhigh hdown
    rw [← point_eq] at hcast
    exact_mod_cast hcast
  unfold contains
  dsimp only
  split
  · simp [habove.le, hbelow.le]
  · simp [habove, hbelow]

theorem le_of_contains (h : n.contains d = true) :
    n.low ≤ d.value * unit ∧ d.value * unit ≤ n.high := by
  have hdown : (0 : ℚ) < (Decimal.powerOfTen d.exponent).2 := by
    exact_mod_cast (Decimal.powerOfTen_pos d.exponent).2
  have hends : n.low * (Decimal.powerOfTen d.exponent).2 ≤
        d.coefficient * (Decimal.powerOfTen d.exponent).1 * unit ∧
      d.coefficient * (Decimal.powerOfTen d.exponent).1 * unit ≤
        n.high * (Decimal.powerOfTen d.exponent).2 := by
    unfold contains at h
    dsimp only at h
    split at h
    · simpa using h
    · have hstrict := by simpa using h
      exact ⟨hstrict.1.le, hstrict.2.le⟩
  have hlow : (n.low : ℚ) * (Decimal.powerOfTen d.exponent).2 ≤
      d.value * unit * (Decimal.powerOfTen d.exponent).2 := by
    rw [← point_eq]
    exact_mod_cast hends.1
  have hhigh : d.value * unit * (Decimal.powerOfTen d.exponent).2 ≤
      (n.high : ℚ) * (Decimal.powerOfTen d.exponent).2 := by
    rw [← point_eq]
    exact_mod_cast hends.2
  exact ⟨le_of_mul_le_mul_right hlow hdown, le_of_mul_le_mul_right hhigh hdown⟩

/-- The number lies between the grid point below it and the next one. -/
theorem floorOn_spec (n : Neighbourhood) (step : Int) :
    (n.floorOn step : ℚ) * (10 ^ step * unit) ≤ n.value ∧
      n.value < ((n.floorOn step : ℚ) + 1) * (10 ^ step * unit) := by
  obtain ⟨hup, hdown⟩ := Decimal.powerOfTen_pos step
  have hpos : 0 < (Decimal.powerOfTen step).1 * unit :=
    Nat.mul_pos hup (by exact_mod_cast unit_pos)
  have hcast : (((Decimal.powerOfTen step).1 * unit : Nat) : ℚ) =
      10 ^ step * unit * (Decimal.powerOfTen step).2 := by
    rw [Nat.cast_mul, Decimal.powerOfTen_eq]
    ring
  have hfloor : n.floorOn step * ((Decimal.powerOfTen step).1 * unit) ≤
      n.value * (Decimal.powerOfTen step).2 := Nat.div_mul_le_self _ _
  have hnext : n.value * (Decimal.powerOfTen step).2 <
      (Decimal.powerOfTen step).1 * unit * (n.floorOn step + 1) := Nat.lt_mul_div_succ _ hpos
  have hpositive : (0 : ℚ) < (Decimal.powerOfTen step).2 := by exact_mod_cast hdown
  have hfloorCast : (n.floorOn step : ℚ) * (10 ^ step * unit) * (Decimal.powerOfTen step).2 ≤
      n.value * (Decimal.powerOfTen step).2 := by
    rw [mul_assoc, ← hcast]
    exact_mod_cast hfloor
  have hnextCast : (n.value : ℚ) * (Decimal.powerOfTen step).2 <
      ((n.floorOn step : ℚ) + 1) * (10 ^ step * unit) * (Decimal.powerOfTen step).2 := by
    rw [mul_assoc, ← hcast, mul_comm _ (((Decimal.powerOfTen step).1 * unit : Nat) : ℚ)]
    exact_mod_cast hnext
  exact ⟨le_of_mul_le_mul_right hfloorCast hpositive, lt_of_mul_lt_mul_right hnextCast hpositive.le⟩

/-! ## The search -/

/-- What the grid gives is one of the number's neighbours on it, and inside. -/
theorem onGrid?_cases (n : Neighbourhood) (tie : Tie) (step : Int) :
    (n.contains ⟨n.floorOn step, step⟩ = true ∧
        n.onGrid? tie step = some ⟨n.floorOn step, step⟩) ∨
      (n.contains ⟨n.floorOn step + 1, step⟩ = true ∧
        n.onGrid? tie step = some ⟨n.floorOn step + 1, step⟩) ∨
      (n.contains ⟨n.floorOn step, step⟩ = false ∧
        n.contains ⟨n.floorOn step + 1, step⟩ = false ∧ n.onGrid? tie step = none) := by
  unfold onGrid?
  dsimp only
  -- variables, lest the two neighbours be told apart by computing the grid point
  generalize n.contains ⟨n.floorOn step, step⟩ = lower
  generalize n.contains ⟨n.floorOn step + 1, step⟩ = upper
  generalize n.compareMiddle step (n.floorOn step) = side
  generalize n.floorOn step = floor
  cases lower with
  | false => cases upper with
    | false => exact .inr (.inr ⟨rfl, rfl, rfl⟩)
    | true => exact .inr (.inl ⟨rfl, rfl⟩)
  | true => cases upper with
    | false => exact .inl ⟨rfl, rfl⟩
    | true => cases side with
      | lt => exact .inl ⟨rfl, rfl⟩
      | gt => exact .inr (.inl ⟨rfl, rfl⟩)
      | eq => cases tie with
        | up => exact .inr (.inl ⟨rfl, rfl⟩)
        | even =>
            dsimp only
            split
            · exact .inl ⟨rfl, rfl⟩
            · exact .inr (.inl ⟨rfl, rfl⟩)

theorem contains_of_onGrid? {tie : Tie} {step : Int} (h : n.onGrid? tie step = some d) :
    n.contains d = true ∧ d.exponent = step := by
  rcases n.onGrid?_cases tie step with ⟨hin, hgrid⟩ | ⟨hin, hgrid⟩ | ⟨-, -, hgrid⟩
  · obtain rfl := Option.some.inj (hgrid.symm.trans h)
    exact ⟨hin, rfl⟩
  · obtain rfl := Option.some.inj (hgrid.symm.trans h)
    exact ⟨hin, rfl⟩
  · exact absurd (hgrid.symm.trans h) (Option.some_ne_none _).symm

/-- A grid finer than the interval is wide has a point inside. -/
theorem onGrid?_of_width {step : Int} (hwidth : (10 : ℚ) ^ step * unit < n.high - n.low)
    (hlow : n.low ≤ n.value) (hhigh : n.value < n.high) (tie : Tie) :
    n.onGrid? tie step ≠ none := by
  obtain ⟨hfloor, hnext⟩ := n.floorOn_spec step
  have hlowCast : (n.low : ℚ) ≤ n.value := by exact_mod_cast hlow
  have hhighCast : (n.value : ℚ) < n.high := by exact_mod_cast hhigh
  rcases n.onGrid?_cases tie step with ⟨-, hgrid⟩ | ⟨-, hgrid⟩ | ⟨hlower, hupper, -⟩
  · exact hgrid ▸ Option.some_ne_none _
  · exact hgrid ▸ Option.some_ne_none _
  exfalso
  by_cases habove : (n.low : ℚ) < n.floorOn step * (10 ^ step * unit)
  · refine Bool.false_ne_true (hlower.symm.trans (contains_of_lt ?_ ?_))
    · rwa [Decimal.value, mul_assoc]
    · rw [Decimal.value, mul_assoc]
      linarith
  · refine Bool.false_ne_true (hupper.symm.trans (contains_of_lt ?_ ?_))
    · rw [Decimal.value, mul_assoc, Nat.cast_add, Nat.cast_one]
      linarith
    · rw [Decimal.value, mul_assoc, Nat.cast_add, Nat.cast_one]
      linarith

/-- The search ends inside the interval if one of the grids that it tries has a point there. -/
theorem contains_searchAux {tie : Tie} {fuel tries : Nat} (hfuel : tries < fuel) {step : Int}
    (h : n.onGrid? tie (step - tries) ≠ none) : n.contains (n.searchAux tie fuel step) = true := by
  induction fuel generalizing tries step with
  | zero => cases hfuel
  | succ fuel ih =>
      rw [searchAux]
      split
      · rename_i d hd
        exact (contains_of_onGrid? hd).1
      · rename_i hnone
        cases tries with
        | zero =>
            rw [Nat.cast_zero, sub_zero] at h
            exact absurd hnone h
        | succ tries =>
            refine ih (Nat.lt_of_succ_lt_succ hfuel) ?_
            rwa [sub_sub, add_comm, ← Nat.cast_succ]

/-- A number on the grid of the integers is not looked for on a finer one. -/
theorem exponent_searchAux_nonneg {tie : Tie} (h : n.onGrid? tie 0 ≠ none) {fuel : Nat}
    {step : Int} (hstep : 0 ≤ step) : 0 ≤ (n.searchAux tie fuel step).exponent := by
  induction fuel generalizing step with
  | zero => exact hstep
  | succ fuel ih =>
      rw [searchAux]
      split
      · rename_i d hd
        rw [(contains_of_onGrid? hd).2]
        exact hstep
      · rename_i hnone
        have hne : step ≠ 0 := by
          rintro rfl
          exact h hnone
        exact ih (by omega)

theorem scale_eq : scale = 10 ^ places := by
  unfold scale
  -- With a variable for the exponent nothing tries to evaluate the power.
  generalize places = k
  exact Nat.pow_eq

/-- The least number but zero has a value of 8. -/
theorem unit_le_scale : unit ≤ 8 * scale := by decide +kernel

/-- A number is at least the power of ten that its leading digit stands for. -/
theorem leading_spec (h : unit ≤ n.value * scale) : (10 : ℚ) ^ n.leading * unit ≤ n.value := by
  have hunit : 0 < unit := by exact_mod_cast unit_pos
  unfold leading
  have hdigits := Decimal.pow_digitCount_le (Nat.ne_of_gt (Nat.div_pos h hunit))
  have hone : 0 < Decimal.digitCount (n.value * scale / unit) := Nat.length_toDigits_pos
  generalize Decimal.digitCount (n.value * scale / unit) = count at hdigits hone ⊢
  have hcast : (10 : ℚ) ^ (count - 1) * unit ≤ n.value * scale := by
    exact_mod_cast (Nat.le_div_iff_mul_le hunit).mp hdigits
  have hsplit : (10 : ℚ) ^ (count - 1) =
      10 ^ ((count : Int) - (places + 1)) * 10 ^ (places : Int) := by
    rw [← zpow_natCast, ← zpow_add₀ (by norm_num)]
    congr 1
    omega
  have hscale : (scale : ℚ) = 10 ^ (places : Int) := by
    rw [scale_eq, Nat.cast_pow, zpow_natCast, Nat.cast_ofNat]
  rw [hsplit, hscale, mul_right_comm] at hcast
  exact le_of_mul_le_mul_right hcast (zpow_pos (by norm_num) _)

/-- An integer is a point of the grid of the integers. -/
theorem onGrid?_of_multiple {whole : Nat} (h : n.value = whole * unit) (hlow : n.low < n.value)
    (hhigh : n.value < n.high) (tie : Tie) : n.onGrid? tie 0 ≠ none := by
  obtain ⟨hfloor, hnext⟩ := n.floorOn_spec 0
  have hvalue : (n.value : ℚ) = whole * unit := by exact_mod_cast h
  rw [zpow_zero, one_mul, hvalue] at hfloor hnext
  have hle : n.floorOn 0 ≤ whole := by exact_mod_cast le_of_mul_le_mul_right hfloor unit_pos
  have hlt : whole < n.floorOn 0 + 1 := by
    exact_mod_cast lt_of_mul_lt_mul_right hnext unit_pos.le
  have hpoint : (⟨n.floorOn 0, 0⟩ : Decimal).value * unit = n.value := by
    rw [Decimal.value, zpow_zero, mul_one, hvalue, le_antisymm hle (Nat.le_of_lt_succ hlt)]
  rcases n.onGrid?_cases tie 0 with ⟨-, hgrid⟩ | ⟨-, hgrid⟩ | ⟨hlower, -, -⟩
  · exact hgrid ▸ Option.some_ne_none _
  · exact hgrid ▸ Option.some_ne_none _
  · exfalso
    refine Bool.false_ne_true (hlower.symm.trans (contains_of_lt ?_ ?_))
    · rw [hpoint]
      exact_mod_cast hlow
    · rw [hpoint]
      exact_mod_cast hhigh

theorem leading_nonneg {whole : Nat} (h : n.value = whole * unit) (hpos : 0 < whole) :
    0 ≤ n.leading := by
  have hunit : 0 < unit := by exact_mod_cast unit_pos
  rw [leading, h, Nat.mul_right_comm, Nat.mul_div_cancel _ hunit]
  by_contra hneg
  have hcount : Decimal.digitCount (whole * scale) ≤ places := by omega
  have hless : whole * scale < scale := by
    rw [scale_eq] at hcount ⊢
    exact (Nat.length_toDigits_le_iff (by decide) (by decide)).mp hcount
  exact absurd (Nat.le_mul_of_pos_left _ hpos) (Nat.not_le_of_gt hless)

end Neighbourhood

/-! ## Numbers and their intervals -/

variable {x : Binary64}

theorem scaled_eq (x : Binary64) : x.scaled = x.significand * 2 ^ x.exponent :=
  Nat.shiftLeft_eq _ _

theorem one_le_exponent (x : Binary64) : 1 ≤ x.exponent := Nat.le_max_left _ _

theorem significand_lt (x : Binary64) : x.significand < 2 ^ 53 := by
  have hhidden : hiddenBit = 2 ^ 52 := rfl
  have hfraction := Nat.mod_lt x.magnitude (by decide : 0 < hiddenBit)
  unfold significand
  split <;> omega

theorem significand_pos (h : x.isZero = false) : 0 < x.significand := by
  have hhidden : hiddenBit = 2 ^ 52 := rfl
  have hmagnitude : x.magnitude ≠ 0 := by simpa [isZero] using h
  unfold significand
  split <;> omega

/-- Above the least exponent the leading bit is there. -/
theorem hiddenBit_le_significand (h : 1 < x.exponent) : 2 ^ 52 ≤ x.significand := by
  have hhidden : hiddenBit = 2 ^ 52 := rfl
  have hnormal : ¬x.magnitude < hiddenBit := by
    intro hless
    rw [exponent, Nat.div_eq_of_lt hless] at h
    exact absurd h (by decide)
  rw [significand, if_neg hnormal]
  omega

/-- The interval reaches half a last place to both sides, and half as far down from the
least number of a binade. -/
theorem ofNumber_spec (h : x.isZero = false) :
    (Neighbourhood.ofNumber x).value = 4 * (x.significand * 2 ^ x.exponent) ∧
      (Neighbourhood.ofNumber x).high =
        (Neighbourhood.ofNumber x).value + 2 * 2 ^ x.exponent ∧
      ((Neighbourhood.ofNumber x).low + 2 * 2 ^ x.exponent = (Neighbourhood.ofNumber x).value ∨
        x.significand = 2 ^ 52 ∧
          (Neighbourhood.ofNumber x).low + 2 ^ x.exponent = (Neighbourhood.ofNumber x).value) := by
  have hpos := Nat.mul_le_mul_right (2 ^ x.exponent) (significand_pos h)
  have hhidden : hiddenBit = 2 ^ 52 := rfl
  simp only [Neighbourhood.ofNumber, scaled_eq, Nat.shiftLeft_eq, Nat.one_mul] at hpos ⊢
  refine ⟨trivial, trivial, ?_⟩
  split
  · rename_i hleast
    exact .inr ⟨hleast.1.trans hhidden, by omega⟩
  · exact .inl (by omega)

theorem ofNumber_low_lt (h : x.isZero = false) :
    (Neighbourhood.ofNumber x).low < (Neighbourhood.ofNumber x).value := by
  have hulp := Nat.two_pow_pos x.exponent
  obtain ⟨-, -, hlow | ⟨-, hlow⟩⟩ := ofNumber_spec h <;> omega

theorem ofNumber_lt_high (h : x.isZero = false) :
    (Neighbourhood.ofNumber x).value < (Neighbourhood.ofNumber x).high := by
  have hulp := Nat.two_pow_pos x.exponent
  obtain ⟨-, hhigh, -⟩ := ofNumber_spec h
  omega

/-- With seventeen digits the grid is finer than the interval is wide. -/
theorem onGrid?_seventeen (h : x.isZero = false) (tie : Tie) :
    (Neighbourhood.ofNumber x).onGrid? tie ((Neighbourhood.ofNumber x).leading - 16) ≠ none := by
  have hlow := ofNumber_low_lt h
  have hhigh := ofNumber_lt_high h
  have hspec := ofNumber_spec h
  have hlarge : Neighbourhood.unit ≤ (Neighbourhood.ofNumber x).value * Neighbourhood.scale := by
    have height : 8 ≤ (Neighbourhood.ofNumber x).value := by
      have hulp : 2 ^ 1 ≤ 2 ^ x.exponent := Nat.pow_le_pow_right (by decide) x.one_le_exponent
      have hpos := Nat.mul_le_mul (significand_pos h) hulp
      omega
    exact Nat.le_trans Neighbourhood.unit_le_scale (Nat.mul_le_mul_right _ height)
  have hleading := Neighbourhood.leading_spec hlarge
  generalize Neighbourhood.ofNumber x = n at *
  refine Neighbourhood.onGrid?_of_width ?_ hlow.le hhigh tie
  have hstep : (10 : ℚ) ^ n.leading = 10 ^ (n.leading - 16) * 10 ^ 16 := by
    rw [← zpow_natCast, ← zpow_add₀ (by norm_num)]
    simp
  rw [hstep, mul_right_comm] at hleading
  generalize (10 : ℚ) ^ (n.leading - 16) * Neighbourhood.unit = gap at hleading ⊢
  obtain ⟨hvalue, hhighEq, hlowEq⟩ := hspec
  have hulp : (0 : ℚ) < 2 ^ x.exponent := by positivity
  have hbits : (x.significand : ℚ) < 2 ^ 53 := by exact_mod_cast x.significand_lt
  have hvalueCast : (n.value : ℚ) = 4 * (x.significand * 2 ^ x.exponent) := by
    exact_mod_cast hvalue
  have hhighCast : (n.high : ℚ) = n.value + 2 * 2 ^ x.exponent := by exact_mod_cast hhighEq
  rcases hlowEq with hlowEq | ⟨hleast, hlowEq⟩
  · have hlowCast : (n.low : ℚ) + 2 * 2 ^ x.exponent = n.value := by exact_mod_cast hlowEq
    have hproduct := mul_lt_mul_of_pos_right hbits hulp
    linarith
  · have hlowCast : (n.low : ℚ) + 2 ^ x.exponent = n.value := by exact_mod_cast hlowEq
    have hleastCast : (x.significand : ℚ) = 2 ^ 52 := by exact_mod_cast hleast
    rw [hleastCast] at hvalueCast
    linarith

/-- The shortest decimal rounds to the number. -/
theorem contains_shortest (h : x.isZero = false) (tie : Tie) :
    (Neighbourhood.ofNumber x).low ≤ (x.shortest tie).value * Neighbourhood.unit ∧
      (x.shortest tie).value * Neighbourhood.unit ≤ (Neighbourhood.ofNumber x).high := by
  rw [shortest, h, if_neg Bool.false_ne_true, Decimal.value_stripZeros]
  exact Neighbourhood.le_of_contains
    (Neighbourhood.contains_searchAux (by decide : 16 < 17) (onGrid?_seventeen h tie))

end Binary64

end FieldPath
