import FieldPath.Decimal.Numeral
import FieldPath.Text.Hex
import FieldPath.Value.Basic
import FieldPath.Yaml.Token

/-!
# What YAML scalars stand for

A plain scalar without a tag is null, a boolean, an integer, a float or a string,
whichever fits first. A tag of one of these types asks for its form, also from a
quoted scalar.
-/

namespace FieldPath

namespace Yaml

def isNullText (text : List Char) : Bool :=
  text == "null".toList || text == "Null".toList || text == "NULL".toList || text == ['~']

def bool? (text : List Char) : Option Bool :=
  if text == "true".toList || text == "True".toList || text == "TRUE".toList then some true
  else if text == "false".toList || text == "False".toList || text == "FALSE".toList then
    some false
  else none

def natural? (base : Nat) (digits : List Char) : Option Nat :=
  if digits.isEmpty then none
  else digits.foldlM (fun n c => do
    let d ← Text.hexDigit? c
    if d < base then some (base * n + d) else none) 0

/-- Whether a text is two or more digits with a zero in front, after an optional
sign. Such a text is no number. -/
def isZeroLed (text : List Char) : Bool :=
  let digits := (Numeral.splitSign text).2
  1 < digits.length && digits.head? == some '0' && digits.all Char.isDigit

def magnitude? : List Char → Option Nat
  | '0' :: 'x' :: digits => natural? 16 digits
  | '0' :: 'o' :: digits => natural? 8 digits
  | '0' :: 'b' :: digits => natural? 2 digits
  | digits => natural? 10 digits

def integer? (text : List Char) : Option Int :=
  if isZeroLed text then none
  else
    let (negative, rest) := Numeral.splitSign text
    (magnitude? rest).map fun n => if negative then -(n : Int) else n

/-- An integer as a number. Those of more than 128 bits are left to floats. -/
inductive IntegerForm where
  | number (n : Number)
  | tooLarge
  | notInteger

/-- Whether 128 bits can hold an integer, with a sign if it is negative. -/
def isWide (i : Int) : Bool :=
  if i < 0 then i.natAbs ≤ 1 <<< 127 else i.natAbs < 1 <<< 128

def integerForm (text : List Char) : IntegerForm :=
  match integer? text with
  | none => .notInteger
  | some i =>
      match Number.ofInt? i with
      | some n => .number n
      | none => if isWide i then .tooLarge else .notInteger

def float? (text : List Char) : Option Binary64 :=
  let names := [".inf".toList, ".Inf".toList, ".INF".toList]
  let unsigned := if text.head? == some '+' then text.drop 1 else text
  if names.contains unsigned then some (.infinity false)
  else if names.any (text == '-' :: ·) then some (.infinity true)
  else if [".nan".toList, ".NaN".toList, ".NAN".toList].contains text then some .nan
  else if text.head? == some '+' && (unsigned.head? == some '+' || unsigned.head? == some '-')
  then none
  else
    match Numeral.read? unsigned with
    | some n => if n.toBinary64.isFinite then some n.toBinary64 else none
    | none => none

/-- A plain scalar, unless it is an integer too large to keep. -/
def plainValue? (text : List Char) : Option Value :=
  if text.isEmpty || isNullText text then some .null
  else
    match bool? text with
    | some b => some (.bool b)
    | none =>
        match integerForm text with
        | .number n => some (.number n)
        | .tooLarge => none
        | .notInteger =>
            if isZeroLed text then some (.string (String.ofList text))
            else
              match float? text with
              | some x => some (.number (.float x))
              | none => some (.string (String.ofList text))

def standardTag (name : String) : List Char := ("tag:yaml.org,2002:" ++ name).toList

/-- The value of a scalar with the tag of a type, unless the text does not have its
form. Any other tag leaves the text as it is, but a local one is refused. -/
def taggedValue? (tag text : List Char) : Option Value :=
  if tag == standardTag "bool" then (bool? text).map .bool
  else if tag == standardTag "int" then
    match integerForm text with
    | .number n => some (.number n)
    | _ => none
  else if tag == standardTag "float" then (float? text).map fun x => .number (.float x)
  else if tag == standardTag "null" then
    if isNullText text then some .null else none
  else if tag.head? == some '!' then none
  else some (.string (String.ofList text))

def scalarValue? (tag : Option (List Char)) (style : ScalarStyle) (text : List Char) :
    Option Value :=
  match tag, style with
  | some tag, _ => taggedValue? tag text
  | none, .plain => plainValue? text
  | none, .quoted => some (.string (String.ofList text))

end Yaml

end FieldPath
