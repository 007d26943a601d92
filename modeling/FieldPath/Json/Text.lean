import FieldPath.Value.Basic

/-!
# Compact JSON

The text of a value without any blanks. Each writer puts its text before the
text `rest` that is to follow, so what a reader finds next is in plain sight.
-/

namespace FieldPath

namespace Json

def escapedControl (c : Char) : List Char :=
  ['\\', 'u', '0', '0', Nat.digitChar (c.toNat / 16), Nat.digitChar (c.toNat % 16)]

/-- Quotes, backslashes and control characters are escaped, and nothing else. -/
def escape (c : Char) : List Char :=
  if c = '"' then ['\\', '"']
  else if c = '\\' then ['\\', '\\']
  else if c = '\x08' then ['\\', 'b']
  else if c = '\t' then ['\\', 't']
  else if c = '\n' then ['\\', 'n']
  else if c = '\x0c' then ['\\', 'f']
  else if c = '\r' then ['\\', 'r']
  else if c < ' ' then escapedControl c
  else [c]

def writeStringBody : List Char → List Char → List Char
  | [], rest => '"' :: rest
  | c :: cs, rest => escape c ++ writeStringBody cs rest

def writeString (text : String) (rest : List Char) : List Char :=
  '"' :: writeStringBody text.toList rest

/-- Numbers without a finite value have no JSON form and become null. -/
def numberText : Number → String
  | .float value => if value.isFinite then Layout.json.text value else "null"
  | n => n.text

mutual

def write : Value → List Char → List Char
  | .null, rest => "null".toList ++ rest
  | .bool true, rest => "true".toList ++ rest
  | .bool false, rest => "false".toList ++ rest
  | .number n, rest => (numberText n).toList ++ rest
  | .string text, rest => writeString text rest
  | .sequence [], rest => '[' :: ']' :: rest
  | .sequence (v :: vs), rest => '[' :: write v (writeItems vs rest)
  | .mapping [], rest => '\x7b' :: '\x7d' :: rest
  | .mapping ((key, v) :: es), rest =>
      '\x7b' :: writeString key (':' :: write v (writeEntries es rest))

/-- The items after the first one, and the closing bracket. -/
def writeItems : List Value → List Char → List Char
  | [], rest => ']' :: rest
  | v :: vs, rest => ',' :: write v (writeItems vs rest)

def writeEntries : List (String × Value) → List Char → List Char
  | [], rest => '\x7d' :: rest
  | (key, v) :: es, rest => ',' :: writeString key (':' :: write v (writeEntries es rest))

end

end Json

def Value.text (v : Value) : String := String.ofList (Json.write v [])

end FieldPath
