import FieldPath.Value.Key
import FieldPath.Yaml.Composition
import FieldPath.Yaml.Resolution

/-!
# Reading YAML

A text holds one document. Its tree is read off in the order of the text, so of
two faults the one that comes first is reported.
-/

namespace FieldPath

namespace Yaml

inductive Error where
  | malformed
  | sequenceKey
  | mappingKey
  deriving DecidableEq

/-- Reading with a number of aliases left to follow. -/
abbrev Decoder (α : Type) := StateT Nat (Except Error) α

namespace Node

def isLocalTag (tag : Option (List Char)) : Bool :=
  match tag with
  | some ('!' :: _) => true
  | _ => false

def follow (anchors : Anchors) : Node → Decoder Node
  | .alias number => do
      let left ← get
      if left = 0 then throw .malformed
      set (left - 1)
      match anchors.node? number with
      | some n => return n
      | none => throw .malformed
  | n => return n

/-- Reads a key, inside of which `depth` more collections could stand. -/
def key (anchors : Anchors) (depth : Nat) (n : Node) : Decoder String := do
  match ← n.follow anchors with
  | scalar tag style text =>
      match (scalarValue? tag style text).bind Value.key? with
      | some key => return key
      | none => throw .malformed
  | sequence tag _ =>
      if isLocalTag tag || depth = 0 then throw .malformed else throw .sequenceKey
  | mapping tag _ =>
      if isLocalTag tag || depth = 0 then throw .malformed else throw .mappingKey
  | _ => throw .malformed

def scalarOf (tag : Option (List Char)) (style : ScalarStyle) (text : List Char) :
    Decoder Value :=
  match scalarValue? tag style text with
  | some v => return v
  | none => throw .malformed

/-- Reads a value with at most `depth` collections inside each other. -/
def value (anchors : Anchors) : Nat → Node → Decoder Value
  | 0, n => do
      match ← n.follow anchors with
      | scalar tag style text => scalarOf tag style text
      | _ => throw .malformed
  | depth + 1, n => do
      match ← n.follow anchors with
      | scalar tag style text => scalarOf tag style text
      | sequence tag items =>
          if isLocalTag tag then throw .malformed
          return .sequence (← items.mapM (value anchors depth))
      | mapping tag entries =>
          if isLocalTag tag then throw .malformed
          return .ofEntries (← entries.mapM fun (k, v) => do
            return (← k.key anchors depth, ← value anchors depth v))
      | _ => throw .malformed

end Node

def depthLimit : Nat := 128

/-- Aliases may be followed this many times for each step it takes to tell the
document. -/
def aliasFactor : Nat := 100

/-- Reads a text that is one document. An empty text is null. -/
def read (text : String) : Except Error Value :=
  let (root, c) := Composition.document (tokens text.toList)
  let size := root.size
  match (root.value c.anchors depthLimit).run (aliasFactor * size) with
  | .error e => .error e
  | .ok (v, _) => if Composition.isFinished c.tokens then .ok v else .error .malformed

end Yaml

end FieldPath
