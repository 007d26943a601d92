import FieldPath.Value.Basic

/-!
# Scalars as keys

The keys of a mapping are texts. A scalar of another type is known by its text.
-/

namespace FieldPath

/-- The key that a scalar becomes. Containers have none. -/
def Value.key? : Value → Option String
  | null => some "null"
  | bool true => some "true"
  | bool false => some "false"
  | number n => some n.text
  | string text => some text
  | sequence _ => none
  | mapping _ => none

end FieldPath
