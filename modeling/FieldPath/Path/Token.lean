import FieldPath.Path.GrammarError

/-!
# Path tokens

A path text is cut into names, dots and pairs of brackets. A construct that the
grammar does not allow is refused where it is met, with one token of memory
behind and one character of sight ahead.
-/

namespace FieldPath

namespace Path

inductive TokenKind where
  | name (text : String)
  | dot
  | brackets
  deriving DecidableEq

def TokenKind.text : TokenKind → String
  | name text => text
  | dot => "."
  | brackets => "[]"

structure Token where
  kind : TokenKind
  position : Nat
  deriving DecidableEq

/-- Every character but the three that separate names. -/
def isNameChar (c : Char) : Bool := c != '.' && c != '[' && c != ']'

def byteLength : List Char → Nat
  | [] => 0
  | c :: rest => c.utf8Size + byteLength rest

namespace Token

/-- A dot stands after a name or brackets, and a name follows it. -/
def checkDot (position : Nat) (previous : Option TokenKind) (rest : List Char) :
    Except GrammarError Unit :=
  match previous with
  | none | some .dot => .error (.unexpectedToken position "." .nameBeforeDot)
  | some _ =>
      match rest with
      | [] => .error (.unexpectedEnd (position + 1) .nameAfterDot)
      | c :: _ =>
          if isNameChar c then .ok ()
          else .error (.unexpectedToken (position + 1) c.toString .nameAfterDot)

/-- Brackets stand after another token, hold nothing, and are followed by a dot,
by brackets or by the end. What comes back is the text after them. -/
def checkBrackets (position : Nat) (previous : Option TokenKind) (rest : List Char) :
    Except GrammarError (List Char) :=
  if previous.isNone then .error (.unexpectedToken position "[" .nameBeforeBrackets)
  else
    match rest with
    | [] => .error (.unexpectedEnd (position + 1) .closingBracket)
    | ']' :: [] => .ok []
    | ']' :: c :: rest =>
        if c == '.' || c == '[' then .ok (c :: rest)
        else .error (.unexpectedToken (position + 2) c.toString .continuation)
    | c :: _ => .error (.unexpectedToken (position + 1) c.toString .closingBracket)

theorem checkBrackets_length {position : Nat} {previous : Option TokenKind}
    {rest tail : List Char} (h : checkBrackets position previous rest = .ok tail) :
    tail.length < rest.length + 1 := by
  unfold checkBrackets at h
  split at h
  · cases h
  · split at h
    · cases h
    · cases h
      simp
    · split at h
      · cases h
        simp
      · cases h
    · cases h

/-- The tokens of the text that begins at `position`, after the token `previous`. -/
def scanFrom (position : Nat) (previous : Option TokenKind) :
    List Char → Except GrammarError (List Token)
  | [] => .ok []
  | c :: rest =>
      if c = '.' then
        match checkDot position previous rest with
        | .error e => .error e
        | .ok () =>
            (scanFrom (position + 1) (some .dot) rest).map (⟨.dot, position⟩ :: ·)
      else if c = '[' then
        match _h : checkBrackets position previous rest with
        | .error e => .error e
        | .ok tail =>
            (scanFrom (position + 2) (some .brackets) tail).map (⟨.brackets, position⟩ :: ·)
      else if c = ']' then .error (.unexpectedToken position "]" .openingBracket)
      else
        let name := c :: rest.takeWhile isNameChar
        let kind := TokenKind.name (String.ofList name)
        (scanFrom (position + byteLength name) (some kind)
          (rest.dropWhile isNameChar)).map (⟨kind, position⟩ :: ·)
termination_by cs => cs.length
decreasing_by
  · simp
  · exact checkBrackets_length _h
  · have := (List.dropWhile_suffix (l := rest) isNameChar).length_le
    simp
    omega

end Token

def scan (text : String) : Except GrammarError (List Token) :=
  if text.isEmpty then .error .empty
  else Token.scanFrom 0 none text.toList

end Path

end FieldPath
