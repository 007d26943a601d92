import FieldPath.Decimal.Numeral
import FieldPath.Toml.Text

/-!
# Dates and times in TOML texts

A moment is a date, a time, or both, and with both an offset from universal time
may be given. Only moments that exist are accepted; a minute may have 61 seconds.
-/

namespace FieldPath

namespace Toml

/-- A number of just `width` digits, from `low` to `high`. -/
def readField (width low high : Nat) : Reader Nat := fun cs =>
  let digits := cs.take width
  let n := Numeral.digitsValue digits
  if digits.length = width ∧ digits.all Char.isDigit ∧ low ≤ n ∧ n ≤ high then
    some (n, cs.drop width)
  else none

def after? (c : Char) : List Char → Option (List Char)
  | d :: rest => if d = c then some rest else none
  | [] => none

def isLeapYear (year : Nat) : Bool := year % 4 == 0 && (year % 100 != 0 || year % 400 == 0)

def daysOf (year month : Nat) : Nat :=
  if month = 2 then (if isLeapYear year then 29 else 28)
  else if month ∈ [4, 6, 9, 11] then 30
  else 31

def afterDate? (cs : List Char) : Option (List Char) := do
  let (year, rest) ← readField 4 0 9999 cs
  let (month, rest) ← readField 2 1 12 (← after? '-' rest)
  let (_, rest) ← readField 2 1 (daysOf year month) (← after? '-' rest)
  some rest

def afterTime? (cs : List Char) : Option (List Char) := do
  let (_, rest) ← readField 2 0 23 cs
  let (_, rest) ← readField 2 0 59 (← after? ':' rest)
  let (_, rest) ← readField 2 0 60 (← after? ':' rest)
  match rest with
  | '.' :: fraction =>
      let digits := fraction.takeWhile Char.isDigit
      if digits.isEmpty then none else some (fraction.drop digits.length)
  | _ => some rest

def afterOffset? : List Char → Option (List Char)
  | [] => some []
  | c :: rest =>
      if c = 'Z' ∨ c = 'z' then some rest
      else if c = '+' ∨ c = '-' then do
        let (_, rest) ← readField 2 0 23 rest
        let (_, rest) ← readField 2 0 59 (← after? ':' rest)
        some rest
      else some (c :: rest)

def isDate (cs : List Char) : Bool := afterDate? cs == some []

/-- Whether a text is a time, and maybe an offset, after a date and a separator. -/
def isTimeOfDate : List Char → Bool
  | separator :: rest =>
      (separator == 'T' || separator == 't' || separator == ' ')
        && ((afterTime? rest).bind afterOffset?) == some []
  | [] => false

def isMoment (cs : List Char) : Bool :=
  match afterDate? cs with
  | some rest => rest.isEmpty || isTimeOfDate rest
  | none => afterTime? cs == some []

end Toml

end FieldPath
