import FieldPath.Cause
import FieldPath.Document
import FieldPath.Toml.Document
import FieldPath.Validator

/-!
# Schemas

A schema declares fields by the texts of their paths and the names of their
rules. It is written in TOML, and becomes a validator once every name is known.
-/

namespace FieldPath

structure FieldSpec where
  path : Path
  rules : List String
  deriving DecidableEq

structure Schema where
  fields : List FieldSpec
  deriving DecidableEq

inductive SchemaError where
  | malformed (cause : Cause)
  | unreadable (name : String)
  | file (name : String) (cause : Cause)
  | unknownRule (rule : String) (path : Path)

namespace SchemaError

/-- What was being done, from the outside in. -/
def messages : SchemaError → List String
  | malformed _ => ["Invalid schema"]
  | unreadable name => ["Failed to read schema " ++ name]
  | file name _ => ["Failed to load schema " ++ name, "Invalid schema"]
  | unknownRule rule path => ["Unknown rule '" ++ rule ++ "' for field '" ++ path.text ++ "'"]

def cause? : SchemaError → Option Cause
  | malformed cause | file _ cause => some cause
  | unreadable _ => some .inputOutput
  | unknownRule _ _ => none

end SchemaError

namespace FieldSpec

def string? : Toml.Value → Except Cause String
  | .string text => .ok text
  | _ => .error .toml

def path? (v : Toml.Value) : Except Cause Path := do
  (Path.parse (← string? v)).mapError .path

def rules? : Toml.Value → Except Cause (List String)
  | .array items => items.mapM string?
  | _ => .error .toml

structure Parts where
  path : Option Path
  rules : List String

def Parts.read (parts : Parts) (key : String) (v : Toml.Value) : Except Cause Parts :=
  if key = "path" then (path? v).map fun path => { parts with path := some path }
  else if key = "rules" then (rules? v).map fun rules => { parts with rules := rules }
  else .ok parts

/-- A field from the entries of a table. Keys of other names do not matter. -/
def ofTable (t : Toml.Table) : Except Cause FieldSpec := do
  let parts ← t.foldlM (fun (parts : Parts) entry => parts.read entry.1 entry.2) ⟨none, []⟩
  match parts.path with
  | some path => .ok ⟨path, parts.rules⟩
  | none => .error .toml

/-- A field from an array of the path and the rules. What follows them does not
matter. -/
def ofItems : List Toml.Value → Except Cause FieldSpec
  | [] => .error .toml
  | [path] => do return ⟨← path? path, []⟩
  | path :: rules :: _ => do return ⟨← path? path, ← rules? rules⟩

def ofToml : Toml.Value → Except Cause FieldSpec
  | .table _ t => ofTable t
  | .array items => ofItems items
  | _ => .error .toml

end FieldSpec

namespace Schema

def empty : Schema := ⟨[]⟩

def fieldsOf : Toml.Value → Except Cause (List FieldSpec)
  | .tables elements => elements.mapM FieldSpec.ofTable
  | .array items => items.mapM FieldSpec.ofToml
  | _ => .error .toml

/-- The schema of a document: the fields under the key for fields, if it is there. -/
def ofTable (t : Toml.Table) : Except Cause Schema :=
  match t.lookup "field" with
  | some v => (fieldsOf v).map (⟨·⟩)
  | none => .ok empty

def read (text : String) : Except Cause Schema :=
  match Toml.read? text with
  | some t => ofTable t
  | none => .error .toml

def ofText (text : String) : Except SchemaError Schema := (read text).mapError .malformed

def ofEntry (name : String) (entry : Entry) : Except SchemaError Schema :=
  match entry with
  | .file bytes =>
      match textOfBytes? bytes with
      | some text => (read text).mapError (.file name)
      | none => .error (.unreadable name)
  | _ => .error (.unreadable name)

def toValue (s : Schema) : Value :=
  .mapping [("field", .sequence (s.fields.map fun f =>
    .mapping [("path", .string f.path.text),
      ("rules", .sequence (f.rules.map .string))]))]

/-- The rules that names stand for. The first unknown name is reported. -/
def rulesOf (f : FieldSpec) : Except SchemaError (List Rule) :=
  f.rules.mapM fun name =>
    match Rule.ofName? name with
    | some rule => .ok rule
    | none => .error (.unknownRule name f.path)

def toValidator (s : Schema) : Except SchemaError Validator :=
  s.fields.foldlM (fun v f => (rulesOf f).map (v.withPath f.path)) .empty

end Schema

end FieldPath
