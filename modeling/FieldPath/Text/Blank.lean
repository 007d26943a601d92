/-!
# Blank characters

The characters with the Unicode property White_Space, and texts freed of them at
both ends.
-/

namespace FieldPath

namespace Text

/-- First and last code points of the ranges of White_Space. -/
def blankRanges : List (Nat × Nat) :=
  [(0x0009, 0x000D), (0x0020, 0x0020), (0x0085, 0x0085), (0x00A0, 0x00A0),
    (0x1680, 0x1680), (0x2000, 0x200A), (0x2028, 0x2029), (0x202F, 0x202F),
    (0x205F, 0x205F), (0x3000, 0x3000)]

def isBlank (c : Char) : Bool :=
  blankRanges.any fun (first, final) => first ≤ c.toNat && c.toNat ≤ final

def trimEnd : List Char → List Char
  | [] => []
  | c :: rest =>
      match trimEnd rest with
      | [] => if isBlank c then [] else [c]
      | kept => c :: kept

def trim (cs : List Char) : List Char := trimEnd (cs.dropWhile isBlank)

end Text

end FieldPath
