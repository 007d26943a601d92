import FieldPath.Format
import FieldPath.Toml.Document

/-!
# Settings

What a user can set once for all commands. The settings are written in TOML; a
key that is not there has its default, and a text with anything wrong in it
counts for nothing at all.
-/

namespace FieldPath

inductive OutputFormat where
  | text
  | json
  deriving DecidableEq

namespace OutputFormat

def name : OutputFormat → String
  | text => "text"
  | json => "json"

def ofName? (name : String) : Option OutputFormat :=
  if name = "text" then some text
  else if name = "json" then some json
  else none

end OutputFormat

structure Settings where
  outputFormat : OutputFormat := .text
  showMissing : Bool := false
  inputFormat : Format := .auto
  deriving DecidableEq

namespace Settings

def default : Settings := {}

def isEmptyContainer : Toml.Value → Bool
  | .array items => items.isEmpty
  | .table _ t => t.isEmpty
  | _ => false

/-- The choice that a value names: a string, or the only key of a table, with
nothing under it. -/
def choice? {α : Type} (ofName? : String → Option α) : Toml.Value → Option α
  | .string name => ofName? name
  | .table _ [(name, v)] => if isEmptyContainer v then ofName? name else none
  | _ => none

def flag? : Toml.Value → Option Bool
  | .boolean value => some value
  | _ => none

/-- The setting under a key: the default if the key is not there, and nothing if
what is there cannot be read. -/
def setting? {α : Type} (t : Toml.Table) (key : String) (read : Toml.Value → Option α)
    (default : α) : Option α :=
  match t.lookup key with
  | some v => read v
  | none => some default

def ofTable? (t : Toml.Table) : Option Settings := do
  let outputFormat ← setting? t "output_format" (choice? OutputFormat.ofName?) .text
  let showMissing ← setting? t "show_missing" flag? false
  let inputFormat ← setting? t "input_format" (choice? Format.ofName?) .auto
  some ⟨outputFormat, showMissing, inputFormat⟩

def ofText? (text : String) : Option Settings := (Toml.read? text).bind ofTable?

def text (s : Settings) : String :=
  "output_format = \"" ++ s.outputFormat.name ++ "\"\n"
    ++ "show_missing = " ++ (if s.showMissing then "true" else "false") ++ "\n"
    ++ "input_format = \"" ++ s.inputFormat.name ++ "\"\n"

end Settings

end FieldPath
