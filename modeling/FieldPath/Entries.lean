/-!
# Entries

Values under keys, in the order in which the keys first came.
-/

namespace FieldPath

abbrev Entries (α : Type) := List (String × α)

/-- Puts a value under a key. A key that is there already keeps its place. -/
def Entries.insert {α : Type} (key : String) (value : α) : Entries α → Entries α
  | [] => [(key, value)]
  | (k, v) :: rest =>
      if k = key then (k, value) :: rest else (k, v) :: Entries.insert key value rest

end FieldPath
