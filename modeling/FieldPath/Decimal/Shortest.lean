import FieldPath.Decimal.Basic

/-!
# Fewest digits that read back

Every finite number owns the interval of reals that round to it. For one digit,
two digits and so on, the number's two neighbours on that decimal grid are
tried, and the first grid with a neighbour inside the interval is taken.
-/

namespace FieldPath

/-- What to do when both neighbours are inside and equally near. -/
inductive Tie where
  | even
  | up
  deriving DecidableEq

namespace Binary64

/-- A number and the ends of its interval, in units of `2 ^ -(scaleBits + 2)`.
Below the least significand of a binade the numbers lie twice as close. -/
structure Neighbourhood where
  low : Nat
  value : Nat
  high : Nat
  closed : Bool

namespace Neighbourhood

def unit : Nat := 1 <<< (scaleBits + 2)

def ofNumber (x : Binary64) : Neighbourhood :=
  let ulp := 1 <<< x.exponent
  let value := 4 * x.scaled
  let below := if x.significand = hiddenBit ∧ 1 < x.exponent then ulp else 2 * ulp
  ⟨value - below, value, value + 2 * ulp, x.significand % 2 == 0⟩

/-- Whether the grid point `d` rounds to the number. -/
def contains (n : Neighbourhood) (d : Decimal) : Bool :=
  let (up, down) := Decimal.powerOfTen d.exponent
  let point := d.coefficient * up * unit
  if n.closed then n.low * down ≤ point && point ≤ n.high * down
  else n.low * down < point && point < n.high * down

def floorOn (n : Neighbourhood) (step : Int) : Nat :=
  let (up, down) := Decimal.powerOfTen step
  n.value * down / (up * unit)

/-- Whether the number lies above, at or below the middle between the grid point
`floor` and the next one. -/
def compareMiddle (n : Neighbourhood) (step : Int) (floor : Nat) : Ordering :=
  let (up, down) := Decimal.powerOfTen step
  compare (2 * n.value * down) ((2 * floor + 1) * up * unit)

/-- So many places after the point show a digit of every number but zero. -/
def places : Nat := 330

def scale : Nat := Nat.pow 10 places

/-- Exponent of the leading digit of a number that is not zero. -/
def leading (n : Neighbourhood) : Int :=
  (Decimal.digitCount (n.value * scale / unit) : Int) - (places + 1)

def onGrid? (n : Neighbourhood) (tie : Tie) (step : Int) : Option Decimal :=
  let floor := n.floorOn step
  let lower : Decimal := ⟨floor, step⟩
  let upper : Decimal := ⟨floor + 1, step⟩
  match n.contains lower, n.contains upper with
  | false, false => none
  | true, false => some lower
  | false, true => some upper
  | true, true =>
      match n.compareMiddle step floor with
      | .lt => some lower
      | .gt => some upper
      | .eq =>
          match tie with
          | .up => some upper
          | .even => some (if floor % 2 = 0 then lower else upper)

def searchAux (n : Neighbourhood) (tie : Tie) : Nat → Int → Decimal
  | 0, step => ⟨n.floorOn step, step⟩
  | fuel + 1, step =>
      match n.onGrid? tie step with
      | some d => d
      | none => searchAux n tie fuel (step - 1)

end Neighbourhood

/-- The shortest decimal that rounds to a finite number's magnitude. Seventeen
digits are always enough. -/
def shortest (tie : Tie) (x : Binary64) : Decimal :=
  if x.isZero then ⟨0, 0⟩
  else
    let n := Neighbourhood.ofNumber x
    (n.searchAux tie 17 n.leading).stripZeros

end Binary64

end FieldPath
