import FieldPath.Value.Number
import FieldPath.Decimal.Numeral

/-!
# JSON numbers

Digits are gathered into a 64-bit significand. Integers that fit stay integers.
Any other number is the significand times or over a power of ten, each of the
two rounded to binary64 first; digits that no longer fit only move the power.
-/

namespace FieldPath

namespace Json

structure NumberParts where
  negative : Bool
  whole : List Char
  fraction : Option (List Char)
  exponent : Option Int

namespace NumberParts

/-- Takes digits into the significand for as long as it stays below `2 ^ 64`. The
digits that are left over come back. -/
def gather : Nat → List Char → Nat × List Char
  | significand, [] => (significand, [])
  | significand, c :: rest =>
      let next := 10 * significand + (c.toNat - '0'.toNat)
      if next < UInt64.size then gather next rest else (significand, c :: rest)

def powerOfTen (n : Nat) : Binary64 := .ofNat (Nat.pow 10 n)

def divideByPower (x : Binary64) (n : Nat) : Binary64 :=
  if n ≤ 308 then x.div (powerOfTen n)
  else if x.isZero then x
  else divideByPower (x.div (powerOfTen 308)) (n - 308)
termination_by n

/-- Multiplies by `10 ^ exponent`. The result must be finite. -/
def scale? (x : Binary64) (exponent : Int) : Option Binary64 :=
  if exponent < 0 then some (divideByPower x (-exponent).toNat)
  else if exponent ≤ 308 then
    let y := x.mul (powerOfTen exponent.toNat)
    if y.isFinite then some y else none
  else if x.isZero then some x
  else none

def float? (parts : NumberParts) : Option Number :=
  let (whole, extra) := gather 0 parts.whole
  let fraction := parts.fraction.getD []
  let (significand, unused) := gather whole fraction
  let exponent : Int :=
    extra.length - (fraction.length - unused.length : Nat) + parts.exponent.getD 0
  (scale? (.ofNat significand) exponent).map fun x =>
    .float (if parts.negative then x.neg else x)

/-- The number, unless it is too large for binary64. Zero with a sign is a float. -/
def number? (parts : NumberParts) : Option Number :=
  let magnitude : Int := Numeral.digitsValue parts.whole
  match parts.fraction, parts.exponent with
  | none, none =>
      if parts.negative && magnitude == 0 then parts.float?
      else
        match Number.ofInt? (if parts.negative then -magnitude else magnitude) with
        | some n => some n
        | none => parts.float?
  | _, _ => parts.float?

end NumberParts

end Json

end FieldPath
