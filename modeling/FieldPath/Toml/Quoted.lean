import FieldPath.Text.Hex
import FieldPath.Toml.Text

/-!
# Quoted strings in TOML texts

Strings stand between double quotes, which give escapes a meaning, or between
single ones, which do not. Three quotes enclose several lines.
-/

namespace FieldPath

namespace Toml

def namedEscape? : Char → Option Char
  | 'b' => some '\x08'
  | 't' => some '\t'
  | 'n' => some '\n'
  | 'f' => some '\x0c'
  | 'r' => some '\r'
  | '"' => some '"'
  | '\\' => some '\\'
  | _ => none

def readCodePoint (width : Nat) : Reader Char := fun cs =>
  if cs.length < width then none
  else do
    let n ← Text.hexValue? (cs.take width)
    if n.isValidChar then some (Char.ofNat n, cs.drop width) else none

/-- The character of an escape whose backslash has been read. -/
def readEscape : Reader Char
  | [] => none
  | 'u' :: rest => readCodePoint 4 rest
  | 'U' :: rest => readCodePoint 8 rest
  | c :: rest => (namedEscape? c).map (·, rest)

def skipBlankLines : Nat → List Char → List Char
  | 0, cs => cs
  | fuel + 1, cs =>
      match afterBreak? (skipBlanks cs) with
      | some rest => skipBlankLines fuel rest
      | none => skipBlanks cs

/-- What follows an escaped line break, with the blank lines and the indentation
after it. -/
def afterEscapedBreak? (cs : List Char) : Option (List Char) :=
  (afterBreak? (skipBlanks cs)).map (skipBlankLines cs.length)

def readLine (quote : Char) : Nat → Reader (List Char)
  | 0, _ => none
  | _ + 1, [] => none
  | fuel + 1, c :: rest =>
      if c == quote then some ([], rest)
      else if quote == '"' && c == '\\' then do
        let (d, rest) ← readEscape rest
        let (ds, rest) ← readLine quote fuel rest
        some (d :: ds, rest)
      else if isPlain c then do
        let (ds, rest) ← readLine quote fuel rest
        some (c :: ds, rest)
      else none

/-- The rest of a string on several lines, and its closing quotes. Up to two quotes
belong to the string, also right before the closing ones. -/
def readLines (quote : Char) : Nat → Reader (List Char)
  | 0, _ => none
  | _ + 1, [] => none
  | fuel + 1, c :: rest =>
      let quotes := (c :: rest).takeWhile (· == quote)
      if 3 ≤ quotes.length then
        if quotes.length ≤ 5 then some (quotes.drop 3, (c :: rest).drop quotes.length)
        else none
      else if quote == '"' && c == '\\' then
        match afterEscapedBreak? rest with
        | some rest => readLines quote fuel rest
        | none => do
            let (d, rest) ← readEscape rest
            let (ds, rest) ← readLines quote fuel rest
            some (d :: ds, rest)
      else if isPlain c then do
        let (ds, rest) ← readLines quote fuel rest
        some (c :: ds, rest)
      else do
        let (ds, rest) ← readLines quote fuel (← afterBreak? (c :: rest))
        some ('\n' :: ds, rest)

/-- A line break right after three opening quotes is no part of the string. -/
def skipFirstBreak (cs : List Char) : List Char := (afterBreak? cs).getD cs

def readQuotedLine : Reader String := fun cs => do
  let (text, rest) ←
    match cs with
    | '"' :: rest => readLine '"' (rest.length + 1) rest
    | '\'' :: rest => readLine '\'' (rest.length + 1) rest
    | _ => none
  some (String.ofList text, rest)

def readQuoted : Reader String := fun cs =>
  let read (quote : Char) (rest : List Char) :=
    (readLines quote (rest.length + 1) (skipFirstBreak rest)).map fun (text, rest) =>
      (String.ofList text, rest)
  match cs with
  | '"' :: '"' :: '"' :: rest => read '"' rest
  | '\'' :: '\'' :: '\'' :: rest => read '\'' rest
  | _ => readQuotedLine cs

end Toml

end FieldPath
