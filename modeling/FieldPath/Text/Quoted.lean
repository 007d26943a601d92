import FieldPath.Text.SpelledOut

/-!
# Quoted texts

A text between double quotes, fit for a message: quotes, backslashes and line
controls are escaped, and whatever would not show is spelled out by its code
point.
-/

namespace FieldPath

namespace Text

def codePoint (c : Char) : List Char :=
  ['\\', 'u', '\x7b'] ++ Nat.toDigits 16 c.toNat ++ ['\x7d']

def escape (c : Char) : List Char :=
  if c = '"' then ['\\', '"']
  else if c = '\\' then ['\\', '\\']
  else if c = '\x00' then ['\\', '0']
  else if c = '\t' then ['\\', 't']
  else if c = '\n' then ['\\', 'n']
  else if c = '\r' then ['\\', 'r']
  else if isSpelledOut c then codePoint c
  else [c]

def quoted (text : String) : String :=
  "\"" ++ String.ofList (text.toList.flatMap escape) ++ "\""

end Text

end FieldPath
