import FieldPath.Path.Basic
import FieldPath.Path.Token

/-!
# Reading paths

Tokens become a chain of segments: brackets turn the segment before them into an
array and open an unnamed one, and a dot turns it into an object and asks for a
name.
-/

namespace FieldPath

namespace Path

/-- The chain that a segment called `name` begins, `size` being the length of the
whole text. -/
def chain (size : Nat) (name : Option String) : List Token → Except GrammarError Path
  | [] => .ok (element name)
  | ⟨.brackets, _⟩ :: rest => (chain size none rest).map (array name)
  | [⟨.dot, _⟩] => .error (.unexpectedEnd size .name)
  | ⟨.dot, _⟩ :: ⟨.name next, _⟩ :: rest => (chain size (some next) rest).map (object name)
  | ⟨.dot, _⟩ :: token :: _ =>
      .error (.unexpectedToken token.position token.kind.text .name)
  | ⟨.name text, position⟩ :: _ => .error (.unexpectedToken position text .separator)

def ofTokens (size : Nat) : List Token → Except GrammarError Path
  | [] => .error (.unexpectedEnd size .name)
  | ⟨.name name, _⟩ :: rest => chain size (some name) rest
  | token :: _ => .error (.unexpectedToken token.position token.kind.text .name)

/-- Reads a path. The empty text addresses the value under the empty key. -/
def parse (text : String) : Except GrammarError Path :=
  if text.isEmpty then .ok (element (some ""))
  else
    match scan text with
    | .error e => .error e
    | .ok tokens => ofTokens (byteLength text.toList) tokens

end Path

end FieldPath
