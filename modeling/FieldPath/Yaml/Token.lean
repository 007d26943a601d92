/-!
# YAML tokens

Blocks are told by indentation and flow collections by brackets. A key has a
token of its own before it, found out only when the colon after it is met.
-/

namespace FieldPath

namespace Yaml

inductive ScalarStyle where
  | plain
  | quoted
  deriving DecidableEq

inductive Token where
  | versionDirective (major minor : Nat)
  | tagDirective (handle replacement : List Char)
  | documentStart
  | documentEnd
  | streamEnd
  | blockSequenceStart
  | blockMappingStart
  | blockEnd
  | flowSequenceStart
  | flowSequenceEnd
  | flowMappingStart
  | flowMappingEnd
  | blockEntry
  | flowEntry
  | key
  | value
  | alias (name : List Char)
  | anchor (name : List Char)
  | tag (handle suffix : List Char)
  | scalar (style : ScalarStyle) (text : List Char)
  deriving DecidableEq

end Yaml

end FieldPath
