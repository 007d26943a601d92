/-!
# Binary64 numbers as words

A 64-bit floating-point number is kept as its word and computed with in exact
natural-number arithmetic, so that every operation here can be reasoned about.
Rounding is to nearest with ties to the even significand.
-/

namespace FieldPath

structure Binary64 where
  bits : UInt64
  deriving DecidableEq

namespace Binary64

def signWeight : Nat := 1 <<< 63

def hiddenBit : Nat := 1 <<< 52

/-- The word of positive infinity: every word below it is finite and positive. -/
def infinityWord : Nat := 2047 <<< 52

def isNegative (x : Binary64) : Bool := signWeight ≤ x.bits.toNat

/-- The word without its sign. Magnitudes are ordered as these words are. -/
def magnitude (x : Binary64) : Nat := x.bits.toNat % signWeight

def isNaN (x : Binary64) : Bool := infinityWord < x.magnitude

def isInfinite (x : Binary64) : Bool := x.magnitude == infinityWord

def isFinite (x : Binary64) : Bool := x.magnitude < infinityWord

def isZero (x : Binary64) : Bool := x.magnitude == 0

/-- Exponent of a finite number in units of its last place, counted from the
least one. Numbers below the normal range share exponent 1 with the first
normal ones. -/
def exponent (x : Binary64) : Nat := max 1 (x.magnitude / hiddenBit)

def significand (x : Binary64) : Nat :=
  if x.magnitude < hiddenBit then x.magnitude
  else hiddenBit + x.magnitude % hiddenBit

/-- A finite number has the magnitude `scaled / 2 ^ scaleBits`. -/
def scaled (x : Binary64) : Nat := x.significand <<< x.exponent

def scaleBits : Nat := 1075

def ofWord (negative : Bool) (word : Nat) : Binary64 :=
  ⟨UInt64.ofNat (if negative then signWeight + word else word)⟩

def zero : Binary64 := ofWord false 0

def infinity (negative : Bool) : Binary64 := ofWord negative infinityWord

def nan : Binary64 := ofWord false (infinityWord + 1 <<< 51)

def neg (x : Binary64) : Binary64 := ofWord (!x.isNegative) x.magnitude

/-- The integer nearest to `num / den`, a half going to the even neighbour. -/
def roundHalfEven (num den : Nat) : Nat :=
  let floor := num / den
  let twice := 2 * (num % den)
  if twice < den then floor
  else if den < twice then floor + 1
  else floor + floor % 2

/-- The word of the number nearest to `num / den`, infinity from the point where
the next power of two would be the nearer one.

The significand rounded in its own unit has at most 53 bits, and a carry out of
it moves into the exponent field of the sum, as it should. -/
def nearestWord (num den : Nat) : Nat :=
  let whole := num <<< scaleBits / den
  let exponent := max 1 (whole.log2 - 52)
  let significand := roundHalfEven (num <<< scaleBits) (den <<< exponent)
  min infinityWord ((exponent - 1) * hiddenBit + significand)

def ofRatio (negative : Bool) (num den : Nat) : Binary64 :=
  ofWord negative (nearestWord num den)

def ofNat (n : Nat) : Binary64 := ofRatio false n 1

def ofInt (i : Int) : Binary64 := ofRatio (i < 0) i.natAbs 1

def mul (x y : Binary64) : Binary64 :=
  ofRatio (x.isNegative != y.isNegative) (x.scaled * y.scaled) (1 <<< (2 * scaleBits))

/-- Quotient of two finite numbers, the second one not zero. -/
def div (x y : Binary64) : Binary64 :=
  ofRatio (x.isNegative != y.isNegative) x.scaled y.scaled

/-- Equality as numbers: the two zeros are equal and a NaN equals nothing. -/
def numericEq (x y : Binary64) : Bool :=
  !x.isNaN && !y.isNaN && (x.bits == y.bits || (x.isZero && y.isZero))

def isPositive (x : Binary64) : Bool :=
  !x.isNaN && !x.isNegative && !x.isZero

def isWhole (x : Binary64) : Bool :=
  x.isFinite && x.scaled % (1 <<< scaleBits) == 0

end Binary64

end FieldPath
