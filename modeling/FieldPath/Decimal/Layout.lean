import FieldPath.Decimal.Shortest

/-!
# Written forms of floating-point numbers

A layout says which numbers are written positionally, what stands after a whole
one, and which way ties between shortest digits go.
-/

namespace FieldPath

structure Layout where
  tie : Tie
  /-- Whether a number is written positionally, by the exponent of its leading digit. -/
  positional : Int → Bool
  /-- What follows the digits of a number without a fraction. -/
  wholeMark : String

namespace Layout

/-- Plain positional digits, whatever the size, and nothing after a whole number. -/
def plain : Layout := ⟨.up, fun _ => true, ""⟩

/-- Exponents from -5 to 15 are written positionally, always with a fraction. -/
def json : Layout := ⟨.even, fun e => -5 ≤ e && e ≤ 15, ".0"⟩

def zeros (n : Nat) : String := String.ofList (List.replicate n '0')

/-- Digits with the point `shift` places after the first one. -/
def positionalText (wholeMark : String) (digits : List Char) (shift : Int) : String :=
  if shift < 0 then "0." ++ zeros (-shift - 1).toNat ++ String.ofList digits
  else
    let whole := shift.toNat + 1
    if digits.length ≤ whole then
      String.ofList digits ++ zeros (whole - digits.length) ++ wholeMark
    else String.ofList (digits.take whole) ++ "." ++ String.ofList (digits.drop whole)

def scientificText (digits : List Char) (shift : Int) : String :=
  let fraction := digits.drop 1
  let point := if fraction.isEmpty then "" else "."
  let sign := if shift < 0 then "-" else "+"
  String.ofList (digits.take 1) ++ point ++ String.ofList fraction ++ "e" ++ sign
    ++ Nat.repr shift.natAbs

def text (layout : Layout) (x : Binary64) : String :=
  let d := x.shortest layout.tie
  let digits := Nat.toDigits 10 d.coefficient
  let shift := d.order - 1
  let sign := if x.isNegative then "-" else ""
  sign ++
    (if layout.positional shift then positionalText layout.wholeMark digits shift
    else scientificText digits shift)

end Layout

end FieldPath
