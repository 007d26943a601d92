import FieldPath.Decimal.Basic

/-!
# Numerals

The text form of floating-point numbers: an optional sign, digits with an
optional point among or beside them, an optional exponent; or a name for
infinity or for no number, in any case.
-/

namespace FieldPath

inductive Numeral where
  | decimal (negative : Bool) (value : Decimal)
  | infinity (negative : Bool)
  | nan
  deriving DecidableEq

namespace Numeral

def digitsValue (digits : List Char) : Nat :=
  digits.foldl (fun n c => 10 * n + (c.toNat - '0'.toNat)) 0

/-- Splits off a leading sign: whether it is a minus, and what follows. -/
def splitSign : List Char → Bool × List Char
  | '-' :: rest => (true, rest)
  | '+' :: rest => (false, rest)
  | rest => (false, rest)

def exponent? : List Char → Option Int
  | [] => some 0
  | e :: rest =>
      let (negative, digits) := splitSign rest
      if (e == 'e' || e == 'E') && !digits.isEmpty && digits.all Char.isDigit then
        some (if negative then -digitsValue digits else digitsValue digits)
      else none

def splitFraction : List Char → List Char × List Char
  | '.' :: rest => (rest.takeWhile Char.isDigit, rest.dropWhile Char.isDigit)
  | rest => ([], rest)

/-- Reads digits, point and exponent: at least one digit on either side of the
point. -/
def decimal? (text : List Char) : Option Decimal :=
  let whole := text.takeWhile Char.isDigit
  let (fraction, rest) := splitFraction (text.dropWhile Char.isDigit)
  if whole.isEmpty && fraction.isEmpty then none
  else
    (exponent? rest).map fun e => ⟨digitsValue (whole ++ fraction), e - fraction.length⟩

def read? (text : List Char) : Option Numeral :=
  let (negative, rest) := splitSign text
  match decimal? rest with
  | some d => some (.decimal negative d)
  | none =>
      let name := String.ofList (rest.map Char.toLower)
      if name == "inf" || name == "infinity" then some (.infinity negative)
      else if name == "nan" then some .nan
      else none

def toBinary64 : Numeral → Binary64
  | decimal negative value => value.toBinary64 negative
  | infinity negative => .infinity negative
  | nan => .nan

end Numeral

end FieldPath
