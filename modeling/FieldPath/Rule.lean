import FieldPath.Observation
import FieldPath.Decimal.Numeral
import FieldPath.Text.Blank
import FieldPath.Text.Quoted

/-!
# Rules

A rule passes or fails an observation. The required rule alone looks at what is
missing; every other rule is about values that were found.
-/

namespace FieldPath

inductive Rule where
  | required
  | string
  | numeric
  | integer
  | custom (name : String) (check : Observation → Bool)

namespace Rule

def ofName? (name : String) : Option Rule :=
  if name = "required" then some required
  else if name = "string" then some string
  else if name = "numeric" then some numeric
  else if name = "integer" then some integer
  else none

def name : Rule → String
  | required => "required"
  | string => "string"
  | numeric => "numeric"
  | integer => "integer"
  | custom name _ => name

/-- The rule in a list of rules: its name, and a custom one in its own words. -/
def description : Rule → String
  | custom name _ => "Custom \x7b name: " ++ Text.quoted name ++ " \x7d"
  | rule => rule.name

def isRequired : Rule → Bool
  | required => true
  | _ => false

/-- Whether a text without its outer blanks is a numeral for a finite number. -/
def isNumericText (text : String) : Bool :=
  match Numeral.read? (Text.trim text.toList) with
  | some n => n.toBinary64.isFinite
  | none => false

def integer? (text : List Char) : Option Int :=
  let (negative, digits) := Numeral.splitSign text
  if digits.isEmpty || !digits.all Char.isDigit then none
  else
    let magnitude : Int := Numeral.digitsValue digits
    some (if negative then -magnitude else magnitude)

/-- Whether a text without its outer blanks is an integer that 64 bits can hold. -/
def isIntegerText (text : String) : Bool :=
  match integer? (Text.trim text.toList) with
  | some i => (Number.ofInt? i).isSome
  | none => false

def accepts (rule : Rule) (o : Observation) (value : Value) : Bool :=
  match rule, value with
  | required, .null => false
  | required, .string text => !text.isEmpty
  | required, _ => true
  | string, .null => true
  | string, .string _ => true
  | string, _ => false
  | numeric, .null => true
  | numeric, .number _ => true
  | numeric, .string text => isNumericText text
  | numeric, _ => false
  | integer, .null => true
  | integer, .number (.float x) => x.isWhole
  | integer, .number _ => true
  | integer, .string text => isIntegerText text
  | integer, _ => false
  | custom _ check, _ => check o

def check (rule : Rule) (o : Observation) : Bool :=
  match o.outcome, o.value with
  | .found, some value => rule.accepts o value
  | _, _ => !rule.isRequired

end Rule

end FieldPath
