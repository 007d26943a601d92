/-!
# Errors in path texts

Positions count bytes of the text in UTF-8.
-/

namespace FieldPath

namespace Path

/-- What the grammar allows at the place where a text goes wrong. -/
inductive Expectation where
  | nameBeforeDot
  | nameAfterDot
  | nameBeforeBrackets
  | closingBracket
  | openingBracket
  | continuation
  | name
  | separator
  deriving DecidableEq

def Expectation.text : Expectation → String
  | nameBeforeDot => "a name before '.'"
  | nameAfterDot => "a name after '.'"
  | nameBeforeBrackets => "a name before '[]'"
  | closingBracket => "']'"
  | openingBracket => "'[' before ']'"
  | continuation => "'.', '[]' or end of input after '[]'"
  | name => "a name"
  | separator => "'.' or '[]' between names"

inductive GrammarError where
  | empty
  | unexpectedToken (position : Nat) (found : String) (expected : Expectation)
  | unexpectedEnd (position : Nat) (expected : Expectation)
  deriving DecidableEq

namespace GrammarError

def position? : GrammarError → Option Nat
  | empty => none
  | unexpectedToken position _ _ => some position
  | unexpectedEnd position _ => some position

def message : GrammarError → String
  | empty => "Illegal syntax: empty path"
  | unexpectedToken position found expected =>
      "Illegal syntax: unexpected '" ++ found ++ "' at position " ++ Nat.repr position
        ++ ", expected " ++ expected.text
  | unexpectedEnd position expected =>
      "Illegal syntax: unexpected end of input at position " ++ Nat.repr position
        ++ ", expected " ++ expected.text

end GrammarError

end Path

end FieldPath
