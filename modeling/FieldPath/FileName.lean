/-!
# File names

A name is a sequence of parts between slashes. Empty parts and single dots mean
nothing, and two dots go back by one.
-/

namespace FieldPath

namespace FileName

def parts (name : String) : List (List Char) := name.toList.splitOn '/'

/-- The last part, unless it is two dots. Parts that mean nothing do not count. -/
def lastPart? (name : String) : Option (List Char) :=
  match ((parts name).filter fun part => part != [] && part != ['.']).getLast? with
  | some part => if part = ['.', '.'] then none else some part
  | none => none

/-- What follows the last dot of the last part, unless that dot comes first. -/
def extension? (name : String) : Option (List Char) := do
  let part ← lastPart? name
  let reversed := part.reverse
  match reversed.dropWhile (· != '.') with
  | [] | [_] => none
  | _ => some (reversed.takeWhile (· != '.')).reverse

def isGzip (name : String) : Bool := extension? name == some ['g', 'z']

end FileName

end FieldPath
