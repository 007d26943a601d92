import FieldPath.Decimal.Layout

/-!
# Numbers in documents

Integers are kept exactly as far as 64 bits go; any other number is a binary64
number. The unsigned form is meant for integers beyond the signed range alone,
and the numbers that documents bring keep to that.
-/

namespace FieldPath

inductive Number where
  | integer (value : Int64)
  | unsigned (value : UInt64)
  | float (value : Binary64)
  deriving DecidableEq

namespace Number

/-- The number of nonnegative integers that fit into 64 bits with a sign. -/
def signedSize : Nat := 1 <<< 63

def ofUInt64 (u : UInt64) : Number :=
  if u.toNat < signedSize then integer (Int64.ofNat u.toNat) else unsigned u

/-- An integer in its canonical form, if 64 bits can hold it. -/
def ofInt? (i : Int) : Option Number :=
  if -signedSize ≤ i ∧ i < signedSize then some (integer (Int64.ofInt i))
  else if signedSize ≤ i ∧ i < UInt64.size then some (unsigned (UInt64.ofNat i.toNat))
  else none

def toInt? : Number → Option Int
  | integer value => some value.toInt
  | unsigned value => some value.toNat
  | float _ => none

def isInteger (n : Number) : Bool := n.toInt?.isSome

def toBinary64 : Number → Binary64
  | integer value => .ofInt value.toInt
  | unsigned value => .ofNat value.toNat
  | float value => value

def intText (i : Int) : String :=
  if i < 0 then "-" ++ Nat.repr i.natAbs else Nat.repr i.natAbs

/-- Plain digits without an exponent; no fraction is written for a whole number. -/
def text : Number → String
  | integer value => intText value.toInt
  | unsigned value => Nat.repr value.toNat
  | float value =>
      if value.isNaN then "NaN"
      else if value.isInfinite then (if value.isNegative then "-inf" else "inf")
      else Layout.plain.text value

/-- Numbers of different forms are never the same, and floats are compared as
numbers. -/
def same : Number → Number → Bool
  | integer a, integer b => a == b
  | unsigned a, unsigned b => a == b
  | float a, float b => a.numericEq b
  | _, _ => false

end Number

end FieldPath
