import FieldPath.Document
import FieldPath.Observation
import FieldPath.Schema
import FieldPath.Settings
import FieldPath.Text.Quoted
import FieldPath.Validator
import FieldPath.Walk

/-!
# Responses

What a command prints, and how it ends. The lines of each response follow from
the values alone that the command is about.
-/

namespace FieldPath

namespace CommandLine

inductive Status where
  | success
  | failure
  | misuse
  deriving DecidableEq

def Status.code : Status → Nat
  | success => 0
  | failure => 1
  | misuse => 2

structure Response where
  status : Status
  output : List String
  errors : List String

def unlines (lines : List String) : String := String.join (lines.map (· ++ "\n"))

namespace Response

def checkedLine (path : Path) : String :=
  path.text ++ "\tdepth=" ++ Nat.repr path.depth
    ++ "\tarray=" ++ (if path.hasArray then "true" else "false")

def rejectedLine (text : String) (e : Path.GrammarError) : String :=
  Text.quoted text ++ ": " ++ e.message

def check (texts : List String) : Response :=
  let checked := texts.filterMap fun text => (Path.parse text).toOption.map checkedLine
  let rejected := texts.filterMap fun text =>
    match Path.parse text with
    | .ok _ => none
    | .error e => some (rejectedLine text e)
  ⟨if rejected.isEmpty then .success else .failure, checked, rejected⟩

def observationLine (o : Observation) : OutputFormat → String
  | .text => o.textLine
  | .json => o.jsonLine

def violationLine (v : Violation) : OutputFormat → String
  | .text => v.text
  | .json => v.jsonLine

/-- What a path finds in a document. What is missing is shown on demand only. -/
def query (path : Path) (document : Value) (showMissing : Bool) (format : OutputFormat) :
    Response :=
  let observations := path.walk document
  let shown := observations.filter fun o => o.isFound || showMissing
  ⟨if observations.any (·.isFound) then .success else .failure,
    shown.map (observationLine · format), []⟩

def validate (validator : Validator) (document : Value) (format : OutputFormat) : Response :=
  let violations := validator.validate document
  ⟨if violations.isEmpty then .success else .failure,
    violations.map (violationLine · format),
    if violations.isEmpty then [] else [Nat.repr violations.length ++ " violation(s)"]⟩

/-- The report of a failure, which tells only what was being done. -/
def failed (messages : List String) : Response :=
  ⟨.failure, [], ["Error: " ++ messages.headD ""]⟩

def indented (text : String) : String :=
  String.ofList (text.toList.flatMap fun c => if c = '\n' then "\n    ".toList else [c])

/-- The report of a query for what is no path, which tells the cause as well. -/
def invalidPath (text : String) (e : Path.GrammarError) : Response :=
  ⟨.failure, [],
    ["Error: Invalid field path '" ++ text ++ "'", "", "Caused by:",
      "    " ++ indented e.message]⟩

def version : Response := ⟨.success, ["fieldwalk 0.1.0"], []⟩

def misuse : Response :=
  ⟨.misuse, [], ["Usage: fieldwalk [OPTIONS] <COMMAND>", "", "Commands:",
    "  check <PATHS>...",
    "  query [--all] <PATH> [FILE]",
    "  validate --schema <SCHEMA> [FILE]"]⟩

end Response

end CommandLine

end FieldPath
