import FieldPath.Decimal.Numeral
import FieldPath.Text.Hex
import FieldPath.Toml.Moment
import FieldPath.Toml.Table
import FieldPath.Value.Number

/-!
# Bare scalars in TOML texts

Truth values, numbers and moments stand without quotes. Single underscores may
separate the digits of a number.
-/

namespace FieldPath

namespace Toml

/-- Takes the underscores out of digits. One may stand between any two digits. -/
def digits? (isDigit : Char → Bool) (cs : List Char) : Option (List Char) :=
  let groups := cs.splitOn '_'
  if groups.all fun group => !group.isEmpty && group.all isDigit then some groups.flatten
  else none

def wholeDigits? (cs : List Char) : Option (List Char) := do
  let digits ← digits? Char.isDigit cs
  if digits.head? = some '0' ∧ 1 < digits.length then none else some digits

def digitValue? (c : Char) (base : Nat) : Option Nat :=
  (Text.hexDigit? c).filter (· < base)

def valueInBase? (base : Nat) (cs : List Char) : Option Int := do
  let digits ← digits? (fun c => (digitValue? c base).isSome) cs
  some (digits.foldl (fun n c => base * n + ((digitValue? c base).getD 0 : Nat)) (0 : Nat) : Nat)

def decimalInteger? (cs : List Char) : Option Int := do
  let (negative, rest) := Numeral.splitSign cs
  let magnitude : Int := Numeral.digitsValue (← wholeDigits? rest)
  some (if negative then -magnitude else magnitude)

def integer? (cs : List Char) : Option Int64 := do
  let i ← match cs with
    | '0' :: 'x' :: rest => valueInBase? 16 rest
    | '0' :: 'o' :: rest => valueInBase? 8 rest
    | '0' :: 'b' :: rest => valueInBase? 2 rest
    | _ => decimalInteger? cs
  match Number.ofInt? i with
  | some (.integer n) => some n
  | _ => none

def isDigitOrUnderscore (c : Char) : Bool := c.isDigit || c == '_'

def exponent? : List Char → Option Int
  | [] => some 0
  | e :: rest =>
      if e = 'e' ∨ e = 'E' then do
        let (negative, rest) := Numeral.splitSign rest
        let magnitude : Int := Numeral.digitsValue (← digits? Char.isDigit rest)
        some (if negative then -magnitude else magnitude)
      else none

/-- Digits with a fraction or an exponent or both. -/
def decimal? (cs : List Char) : Option Decimal := do
  let whole ← wholeDigits? (cs.takeWhile isDigitOrUnderscore)
  match cs.dropWhile isDigitOrUnderscore with
  | [] => none
  | '.' :: rest => do
      let fraction ← digits? Char.isDigit (rest.takeWhile isDigitOrUnderscore)
      let e ← exponent? (rest.dropWhile isDigitOrUnderscore)
      some ⟨Numeral.digitsValue (whole ++ fraction), e - fraction.length⟩
  | rest => (exponent? rest).map fun e => ⟨Numeral.digitsValue whole, e⟩

/-- A number that is no integer. Of those too large, only negative ones are
accepted. -/
def float? (cs : List Char) : Option Binary64 :=
  let (negative, rest) := Numeral.splitSign cs
  if rest = "inf".toList then some (.infinity negative)
  else if rest = "nan".toList then some .nan
  else do
    let d ← decimal? rest
    let x := d.toBinary64 negative
    if x = .infinity false then none else some x

def scalar? (cs : List Char) : Option Value :=
  if cs = "true".toList then some (.boolean true)
  else if cs = "false".toList then some (.boolean false)
  else if isMoment cs then some (.moment (String.ofList cs))
  else
    match integer? cs with
    | some i => some (.integer i)
    | none => (float? cs).map .float

def endsScalar (c : Char) : Bool :=
  isBlank c || c == '\n' || c == '\r' || c == '#' || c == ',' || c == ']' || c == '\x7d'

/-- Reads a bare scalar. A blank between a date and a time belongs to it. -/
def readScalar : Reader Value := fun cs =>
  let first := cs.takeWhile (!endsScalar ·)
  let rest := cs.drop first.length
  match rest with
  | ' ' :: c :: later =>
      if isDate first && c.isDigit then
        let second := (c :: later).takeWhile (!endsScalar ·)
        (scalar? (first ++ ' ' :: second)).map (·, (c :: later).drop second.length)
      else (scalar? first).map (·, rest)
  | _ => (scalar? first).map (·, rest)

end Toml

end FieldPath
