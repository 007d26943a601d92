import FieldPath.Value.Basic
import FieldPath.Json.Number
import FieldPath.Text.Hex

/-!
# Reading JSON

The grammar is strict: nothing but the four blanks between tokens, no comments,
no trailing commas, and surrogate escapes in pairs. Every reader takes what it
reads off the front of the text and returns the rest. Loops take at least one
character a turn, so fuel beyond the length of the text never runs out.
-/

namespace FieldPath

namespace Json

abbrev Reader (α : Type) := List Char → Option (α × List Char)

def isBlank (c : Char) : Bool := c == ' ' || c == '\n' || c == '\t' || c == '\r'

def skipBlanks (cs : List Char) : List Char := cs.dropWhile isBlank

def isHighSurrogate (unit : Nat) : Bool := 0xD800 ≤ unit && unit < 0xDC00

def isLowSurrogate (unit : Nat) : Bool := 0xDC00 ≤ unit && unit < 0xE000

def surrogatePair (high low : Nat) : Char :=
  Char.ofNat (0x10000 + (high - 0xD800) * 0x400 + (low - 0xDC00))

def simpleEscape? : Char → Option Char
  | '"' => some '"'
  | '\\' => some '\\'
  | '/' => some '/'
  | 'b' => some '\x08'
  | 'f' => some '\x0c'
  | 'n' => some '\n'
  | 'r' => some '\r'
  | 't' => some '\t'
  | _ => none

def readEscape : Reader Char
  | 'u' :: a :: b :: c :: d :: rest => do
      let unit ← Text.hexValue? [a, b, c, d]
      if isLowSurrogate unit then none
      else if isHighSurrogate unit then
        match rest with
        | '\\' :: 'u' :: a :: b :: c :: d :: rest => do
            let low ← Text.hexValue? [a, b, c, d]
            if isLowSurrogate low then some (surrogatePair unit low, rest) else none
        | _ => none
      else some (Char.ofNat unit, rest)
  | c :: rest => (simpleEscape? c).map (·, rest)
  | [] => none

def readStringBody : Nat → Reader (List Char)
  | 0, _ => none
  | _ + 1, [] => none
  | fuel + 1, c :: rest =>
      if c = '"' then some ([], rest)
      else if c = '\\' then do
        let (d, rest) ← readEscape rest
        let (ds, rest) ← readStringBody fuel rest
        some (d :: ds, rest)
      else if c < ' ' then none
      else do
        let (ds, rest) ← readStringBody fuel rest
        some (c :: ds, rest)

/-- A string whose opening quote has been read. -/
def readString (fuel : Nat) : Reader String := fun cs =>
  (readStringBody fuel cs).map fun (text, rest) => (String.ofList text, rest)

def readDigits : Reader (List Char) := fun cs =>
  let digits := cs.takeWhile Char.isDigit
  if digits.isEmpty then none else some (digits, cs.dropWhile Char.isDigit)

def readFraction : Reader (Option (List Char))
  | '.' :: rest => (readDigits rest).map fun (digits, rest) => (some digits, rest)
  | cs => some (none, cs)

def readExponent : Reader (Option Int)
  | c :: rest =>
      if c = 'e' ∨ c = 'E' then do
        let (negative, rest) := Numeral.splitSign rest
        let (digits, rest) ← readDigits rest
        let magnitude : Int := Numeral.digitsValue digits
        some (some (if negative then -magnitude else magnitude), rest)
      else some (none, c :: rest)
  | [] => some (none, [])

/-- A number: digits without a leading zero, then maybe a fraction and an exponent. -/
def readNumber : Reader Number := fun cs => do
  let (negative, rest) := match cs with
    | '-' :: rest => (true, rest)
    | _ => (false, cs)
  let (whole, rest) ← readDigits rest
  if whole.head? = some '0' ∧ 1 < whole.length then none
  else
    let (fraction, rest) ← readFraction rest
    let (exponent, rest) ← readExponent rest
    let n ← NumberParts.number? ⟨negative, whole, fraction, exponent⟩
    some (n, rest)

/-- Items up to the closing bracket, the first of them required. -/
def readItems (item : Reader Value) : Nat → Reader (List Value)
  | 0, _ => none
  | fuel + 1, cs => do
      let (v, rest) ← item cs
      match skipBlanks rest with
      | ',' :: rest => do
          let (vs, rest) ← readItems item fuel rest
          some (v :: vs, rest)
      | ']' :: rest => some ([v], rest)
      | _ => none

def readKey (fuel : Nat) : Reader String := fun cs =>
  match skipBlanks cs with
  | '"' :: rest => do
      let (key, rest) ← readString fuel rest
      match skipBlanks rest with
      | ':' :: rest => some (key, rest)
      | _ => none
  | _ => none

def readEntries (item : Reader Value) : Nat → Reader (List (String × Value))
  | 0, _ => none
  | fuel + 1, cs => do
      let (key, rest) ← readKey (fuel + 1) cs
      let (v, rest) ← item rest
      match skipBlanks rest with
      | ',' :: rest => do
          let (es, rest) ← readEntries item fuel rest
          some ((key, v) :: es, rest)
      | '\x7d' :: rest => some ([(key, v)], rest)
      | _ => none

/-- What follows an opening bracket. -/
def readSequence (fuel : Nat) (item : Reader Value) : Reader Value := fun cs =>
  match skipBlanks cs with
  | ']' :: rest => some (.sequence [], rest)
  | _ => (readItems item fuel cs).map fun (vs, rest) => (.sequence vs, rest)

def readMapping (fuel : Nat) (item : Reader Value) : Reader Value := fun cs =>
  match skipBlanks cs with
  | '\x7d' :: rest => some (.mapping [], rest)
  | _ => (readEntries item fuel cs).map fun (es, rest) => (.ofEntries es, rest)

def readScalar (fuel : Nat) : Reader Value
  | 'n' :: 'u' :: 'l' :: 'l' :: rest => some (.null, rest)
  | 't' :: 'r' :: 'u' :: 'e' :: rest => some (.bool true, rest)
  | 'f' :: 'a' :: 'l' :: 's' :: 'e' :: rest => some (.bool false, rest)
  | '"' :: rest => (readString fuel rest).map fun (text, rest) => (.string text, rest)
  | cs => (readNumber cs).map fun (n, rest) => (.number n, rest)

/-- A value in which at most `depth` containers stand inside each other. -/
def readValue (fuel : Nat) : Nat → Reader Value
  | 0, cs =>
      match skipBlanks cs with
      | '[' :: _ => none
      | '\x7b' :: _ => none
      | cs => readScalar fuel cs
  | depth + 1, cs =>
      match skipBlanks cs with
      | '[' :: rest => readSequence fuel (readValue fuel depth) rest
      | '\x7b' :: rest => readMapping fuel (readValue fuel depth) rest
      | cs => readScalar fuel cs

/-- Containers nest at most this deep. -/
def depthLimit : Nat := 127

def read? (text : String) : Option Value :=
  match readValue (text.length + 1) depthLimit text.toList with
  | some (v, rest) => if (skipBlanks rest).isEmpty then some v else none
  | none => none

end Json

end FieldPath
