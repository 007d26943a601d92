/-!
# Blanks, breaks and comments in TOML texts
-/

namespace FieldPath

namespace Toml

/-- Takes what it reads off the front of a text and returns the rest. -/
abbrev Reader (α : Type) := List Char → Option (α × List Char)

def isBlank (c : Char) : Bool := c == ' ' || c == '\t'

def skipBlanks (cs : List Char) : List Char := cs.dropWhile isBlank

/-- Whether comments and strings may hold a character as it is. -/
def isPlain (c : Char) : Bool := c == '\t' || (' ' ≤ c && c != '\x7f')

def afterBreak? : List Char → Option (List Char)
  | '\n' :: rest => some rest
  | '\r' :: '\n' :: rest => some rest
  | _ => none

def skipComment : List Char → List Char
  | '#' :: rest => rest.dropWhile isPlain
  | cs => cs

def endLine? (cs : List Char) : Option (List Char) :=
  match skipComment (skipBlanks cs) with
  | [] => some []
  | cs => afterBreak? cs

def skipLines : Nat → List Char → List Char
  | 0, cs => cs
  | fuel + 1, cs =>
      let cs := skipComment (skipBlanks cs)
      match afterBreak? cs with
      | some rest => skipLines fuel rest
      | none => cs

def skipSpace (cs : List Char) : List Char := skipLines (cs.length + 1) cs

end Toml

end FieldPath
