import FieldPath.Path.Parse
import FieldPath.Rule
import FieldPath.Walk

/-!
# Validators

A validator pairs field paths with rules. Every rule of a field is put to every
observation of its path, and what fails is reported with the place where it
failed.
-/

namespace FieldPath

structure Violation where
  field : String
  path : String
  rule : String
  outcome : Outcome
  deriving DecidableEq

namespace Violation

def text (v : Violation) : String :=
  v.path ++ ": failed '" ++ v.rule ++ "' (" ++ v.outcome.text ++ ")"

def jsonLine (v : Violation) : String :=
  (Value.mapping [("field", .string v.field), ("path", .string v.path),
    ("rule", .string v.rule), ("outcome", .string v.outcome.key)]).text

end Violation

structure FieldRules where
  path : Path
  rules : List Rule

structure Validator where
  fields : List FieldRules

/-- Whether an observation says that a sequence was there and empty: no element
was looked up, and the path ends in the brackets of an array. -/
def Observation.isEmptySequence (o : Observation) : Bool :=
  o.outcome == .elementNotFound && o.index.isNone && o.path.tail.head.name.isNone
    && (match o.path.lastParent? with
      | some parent => parent.head.kind.isArray
      | none => false)

/-- The place that a failed rule is reported for. A required sequence that turned
out empty is reported itself, as it has no element to report. -/
def Rule.reportedPath (rule : Rule) (o : Observation) : Path :=
  if rule.isRequired && o.isEmptySequence then
    (o.path.truncate (o.path.depth - 1)).getD o.path
  else o.path

namespace FieldRules

def violation (f : FieldRules) (o : Observation) (rule : Rule) : Violation :=
  ⟨f.path.text, (rule.reportedPath o).text, rule.name, o.outcome⟩

/-- The failures of one field, by observation and then by rule. -/
def validate (f : FieldRules) (document : Value) : List Violation :=
  (f.path.walk document).flatMap fun o =>
    (f.rules.filter fun rule => !rule.check o).map (f.violation o)

end FieldRules

namespace Validator

def empty : Validator := ⟨[]⟩

def withPath (v : Validator) (path : Path) (rules : List Rule) : Validator :=
  ⟨v.fields ++ [⟨path, rules⟩]⟩

def field (v : Validator) (text : String) (rules : List Rule) :
    Except Path.GrammarError Validator :=
  (Path.parse text).map (v.withPath · rules)

def validate (v : Validator) (document : Value) : List Violation :=
  v.fields.flatMap (·.validate document)

end Validator

end FieldPath
