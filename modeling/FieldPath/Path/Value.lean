import FieldPath.Path.Parse
import FieldPath.Path.Text
import FieldPath.Value.Basic

/-!
# Paths as values

In documents a path is a string, its text.
-/

namespace FieldPath

namespace Path

inductive ValueError where
  | notText
  | illegal (error : GrammarError)
  deriving DecidableEq

def toValue (p : Path) : Value := .string p.text

def ofValue : Value → Except ValueError Path
  | .string text => (parse text).mapError .illegal
  | _ => .error .notText

end Path

end FieldPath
