import FieldPath.Binary64.Basic

/-!
# Decimals

A decimal is a coefficient times a power of ten. It is read off a numeral and
rounded once to the nearest binary64 number.
-/

namespace FieldPath

structure Decimal where
  coefficient : Nat
  exponent : Int
  deriving DecidableEq

namespace Decimal

def digitCount (n : Nat) : Nat := (Nat.toDigits 10 n).length

/-- The factors `(up, down)` with `up / down = 10 ^ exponent`, one of them 1. -/
def powerOfTen (exponent : Int) : Nat × Nat :=
  (Nat.pow 10 exponent.toNat, Nat.pow 10 (-exponent).toNat)

/-- Position of the leading digit: a nonzero decimal is at least
`10 ^ (order - 1)` and below `10 ^ order`. -/
def order (d : Decimal) : Int := digitCount d.coefficient + d.exponent

/-- The nearest binary64 number. Orders far outside the range of finite numbers
are settled without computing the power. -/
def toBinary64 (negative : Bool) (d : Decimal) : Binary64 :=
  if d.coefficient = 0 ∨ d.order < -400 then .ofWord negative 0
  else if 400 < d.order then .infinity negative
  else
    let (up, down) := powerOfTen d.exponent
    .ofRatio negative (d.coefficient * up) down

def stripZerosAux : Nat → Decimal → Decimal
  | 0, d => d
  | fuel + 1, d =>
      if d.coefficient ≠ 0 ∧ d.coefficient % 10 = 0 then
        stripZerosAux fuel ⟨d.coefficient / 10, d.exponent + 1⟩
      else d

def stripZeros (d : Decimal) : Decimal :=
  stripZerosAux (digitCount d.coefficient) d

end Decimal

end FieldPath
