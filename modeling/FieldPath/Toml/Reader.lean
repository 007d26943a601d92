import FieldPath.Toml.Quoted
import FieldPath.Toml.Scalar

/-!
# Reading TOML values

Keys and the values assigned to them. Loops take at least one character a turn,
so fuel beyond the length of the text never runs out.
-/

namespace FieldPath

namespace Toml

/-- A key has at most so many names, and as many containers may stand inside each
other. -/
def depthLimit : Nat := 79

def isBareChar (c : Char) : Bool := c.isAlphanum || c == '_' || c == '-'

def readName : Reader String := fun cs =>
  match cs with
  | '"' :: _ => readQuotedLine cs
  | '\'' :: _ => readQuotedLine cs
  | _ =>
      let name := cs.takeWhile isBareChar
      if name.isEmpty then none else some (String.ofList name, cs.drop name.length)

def readNames : Nat → Reader Key
  | 0, _ => none
  | count + 1, cs => do
      let (name, rest) ← readName (skipBlanks cs)
      match skipBlanks rest with
      | '.' :: rest => do
          let (key, rest) ← readNames count rest
          some (⟨name :: key.path, key.last⟩, rest)
      | rest => some (⟨[], name⟩, rest)

def readKey : Reader Key := readNames depthLimit

/-- Items up to the closing bracket, which a comma may come before. -/
def readItems (item : Reader Value) : Nat → Reader (List Value)
  | 0, _ => none
  | fuel + 1, cs =>
      match skipSpace cs with
      | ']' :: rest => some ([], rest)
      | cs => do
          let (v, rest) ← item cs
          match skipSpace rest with
          | ',' :: rest => do
              let (vs, rest) ← readItems item fuel rest
              some (v :: vs, rest)
          | ']' :: rest => some ([v], rest)
          | _ => none

def readPair (item : Reader Value) : Reader (Key × Value) := fun cs => do
  let (key, rest) ← readKey cs
  match rest with
  | '=' :: rest => do
      let (v, rest) ← item (skipBlanks rest)
      some ((key, v), rest)
  | _ => none

/-- Pairs up to the closing brace, the first of them required. -/
def readPairs (item : Reader Value) : Nat → Reader (List (Key × Value))
  | 0, _ => none
  | fuel + 1, cs => do
      let (pair, rest) ← readPair item cs
      match skipBlanks rest with
      | ',' :: rest => do
          let (pairs, rest) ← readPairs item fuel rest
          some (pair :: pairs, rest)
      | '\x7d' :: rest => some ([pair], rest)
      | _ => none

def readTable (item : Reader Value) (fuel : Nat) : Reader Value := fun cs => do
  let (pairs, rest) ←
    match skipBlanks cs with
    | '\x7d' :: rest => some ([], rest)
    | cs => readPairs item fuel cs
  let t ← Table.ofPairs? pairs
  some (.table .braces t, rest)

def readFlat : Reader Value := fun cs =>
  match cs with
  | '"' :: _ => (readQuoted cs).map fun (text, rest) => (.string text, rest)
  | '\'' :: _ => (readQuoted cs).map fun (text, rest) => (.string text, rest)
  | _ => readScalar cs

/-- A value in which at most `depth` containers stand inside each other. -/
def readValue (fuel : Nat) : Nat → Reader Value
  | 0, cs => readFlat cs
  | depth + 1, cs =>
      match cs with
      | '[' :: rest =>
          (readItems (readValue fuel depth) fuel rest).map fun (vs, rest) => (.array vs, rest)
      | '\x7b' :: rest => readTable (readValue fuel depth) fuel rest
      | _ => readFlat cs

end Toml

end FieldPath
