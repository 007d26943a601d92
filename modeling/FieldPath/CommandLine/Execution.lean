import FieldPath.CommandLine.Arguments
import FieldPath.CommandLine.Response

/-!
# Carrying out commands

A command reads files by their names, standard input and the user's settings.
Of two faults the one that comes first is reported: the path of a query or the
schema of a validation before the document.
-/

namespace FieldPath

namespace CommandLine

structure Sources where
  find : String → Entry
  input : Bytes
  settings : Settings

namespace Sources

/-- The document in a file, or on standard input if no file is named. -/
def document (s : Sources) (file : Option String) (format : Format) : Except LoadError Value :=
  match file with
  | some name => Document.ofEntry name (s.find name) format
  | none => Document.ofInput s.input format

def validator (s : Sources) (name : String) : Except SchemaError Validator := do
  (← Schema.ofEntry name (s.find name)).toValidator

end Sources

namespace Invocation

def files (i : Invocation) : List String :=
  match i.command with
  | .check _ => []
  | .query _ file _ => file.toList
  | .validate schema file => schema :: file.toList

def readsInput (i : Invocation) : Bool :=
  match i.command with
  | .check _ => false
  | .query _ file _ => file.isNone
  | .validate _ file => file.isNone

/-- What is asked for on the command line counts before the settings. -/
def run (i : Invocation) (s : Sources) : Response :=
  let format := i.format.getD s.settings.inputFormat
  let output := i.output.getD s.settings.outputFormat
  match i.command with
  | .check paths => .check paths
  | .query text file all =>
      match Path.parse text with
      | .error e => .invalidPath text e
      | .ok path =>
          match s.document file format with
          | .error e => .failed e.messages
          | .ok document => .query path document (all || s.settings.showMissing) output
  | .validate schema file =>
      match s.validator schema with
      | .error e => .failed e.messages
      | .ok validator =>
          match s.document file format with
          | .error e => .failed e.messages
          | .ok document => .validate validator document output

end Invocation

def Refusal.response : Refusal → Response
  | .version => .version
  | .misuse => .misuse

def respond (args : List String) (s : Sources) : Response :=
  match read args with
  | .error refusal => refusal.response
  | .ok invocation => invocation.run s

end CommandLine

end FieldPath
