import FieldPath.Json.Text
import FieldPath.Path.Text

/-!
# Observations

What a walk reports for one branch: the outcome, the place where the branch
ended, and the last look-up that was made on the way there.
-/

namespace FieldPath

inductive Outcome where
  | found
  | elementNotFound
  | parentNotFound
  deriving DecidableEq

namespace Outcome

def text : Outcome → String
  | found => "found"
  | elementNotFound => "element not found"
  | parentNotFound => "parent not found"

def key : Outcome → String
  | found => "found"
  | elementNotFound => "element_not_found"
  | parentNotFound => "parent_not_found"

end Outcome

structure Observation where
  value : Option Value
  parent : Option Value
  path : Path
  name : String
  index : Option Nat
  outcome : Outcome

namespace Observation

def isFound (o : Observation) : Bool := o.outcome == .found

def toValue (o : Observation) : Value :=
  .mapping [
    ("value", o.value.getD .null),
    ("path", .string o.path.text),
    ("name", .string o.name),
    ("index", match o.index with
      | some i => .number (.ofUInt64 (.ofNat i))
      | none => .null),
    ("outcome", .string o.outcome.key)]

/-- One JSON object on one line. The parent is left out. -/
def jsonLine (o : Observation) : String := o.toValue.text

def textLine (o : Observation) : String :=
  o.path.text ++ "\t" ++ o.outcome.text ++ "\t"
    ++ (match o.value with
      | some v => v.text
      | none => "-")

end Observation

end FieldPath
