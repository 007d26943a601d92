import FieldPath.Yaml.Property
import FieldPath.Yaml.Scalar

/-!
# The tokens of a YAML text

Tokens are cut off the text one by one. Where a token may turn out to begin a key,
it is held back, with all that follow it, until a colon comes or the line ends;
the key's own token is then put before it. A text that goes wrong gives the
tokens that were beyond doubt by then and no end.
-/

namespace FieldPath

namespace Yaml

/-- A place where a key may have begun: the number of the token there, and whether
the block around it has no use for anything but a key. -/
structure KeyPlace where
  number : Nat
  required : Bool
  line : Nat
  column : Nat
  index : Nat

structure TokenStream where
  /-- The length of the whole text, which is fuel enough for every loop. -/
  size : Nat
  cursor : Cursor
  /-- Indentations of the open blocks, the innermost first. -/
  indents : List Nat
  /-- Whether a key may begin at the next token. -/
  keyAllowed : Bool
  /-- Where a key may have begun, by flow collection and the innermost first; the
  last one is for the blocks around them all. -/
  keys : List (Option KeyPlace)
  /-- Tokens that are held back. -/
  held : List Token
  /-- How many tokens have been given out. -/
  given : Nat

namespace TokenStream

def ofList (cs : List Char) : TokenStream :=
  ⟨cs.length, .ofList cs, [], true, [none], [], 0⟩

def inFlow (s : TokenStream) : Bool := 1 < s.keys.length

def isInside (s : TokenStream) (column : Nat) : Bool :=
  match s.indents with
  | [] => true
  | indent :: _ => indent < column

/-- The column that a plain scalar's later lines must reach. -/
def scalarIndent (s : TokenStream) : Nat :=
  match s.indents with
  | [] => 0
  | indent :: _ => indent + 1

def push (s : TokenStream) (token : Token) : TokenStream :=
  { s with held := s.held ++ [token] }

def insert (s : TokenStream) (number : Nat) (token : Token) : TokenStream :=
  let place := number - s.given
  { s with held := s.held.take place ++ token :: s.held.drop place }

/-- Closes the blocks that stand further right than `column`, all of them if there
is no column. -/
def closeBlocks (s : TokenStream) (column : Option Nat) : TokenStream :=
  if s.inFlow then s
  else
    let isClosed (indent : Nat) := column.all (· < indent)
    let closed := s.indents.takeWhile isClosed
    { s with
      held := s.held ++ List.replicate closed.length .blockEnd
      indents := s.indents.dropWhile isClosed }

/-- Opens a block at `column` if none is open there. Its first token goes before the
token numbered `number`, or to the end. -/
def openBlock (s : TokenStream) (column : Nat) (number : Option Nat) (token : Token) :
    TokenStream :=
  if s.inFlow || !s.isInside column then s
  else
    let s := { s with indents := column :: s.indents }
    match number with
    | some number => s.insert number token
    | none => s.push token

/-- Gives up the innermost place of a key. A required key may not be given up. -/
def dropKey (s : TokenStream) : Option TokenStream :=
  match s.keys with
  | some key :: keys => if key.required then none else some { s with keys := none :: keys }
  | _ => some s

def saveKey (s : TokenStream) : Option TokenStream :=
  if s.keyAllowed then do
    let c := s.cursor
    let required := !s.inFlow && s.indents.head? == some c.column
    let key : KeyPlace := ⟨s.given + s.held.length, required, c.line, c.column, c.index⟩
    let s ← s.dropKey
    some { s with keys := some key :: s.keys.drop 1 }
  else some s

def dropStaleKeys (s : TokenStream) : Option TokenStream := do
  let keys ← s.keys.mapM fun
    | none => some none
    | some key =>
        if key.line < s.cursor.line || key.index + 1024 < s.cursor.index then
          if key.required then none else some none
        else some (some key)
  some { s with keys := keys }

def pushMark (s : TokenStream) (token : Token) (width : Nat) : TokenStream :=
  { s.push token with cursor := s.cursor.skip width }

def endBlocks (s : TokenStream) : Option TokenStream := do
  let s ← (s.closeBlocks none).dropKey
  some { s with keyAllowed := false }

def documentMarker (s : TokenStream) (token : Token) : Option TokenStream := do
  let s ← s.endBlocks
  some (s.pushMark token 3)

def directive (s : TokenStream) : Option TokenStream := do
  let s ← s.endBlocks
  let (token, c) ← readDirective s.cursor
  some { s.push token with cursor := c }

def openFlow (s : TokenStream) (token : Token) : Option TokenStream := do
  let s ← s.saveKey
  some { s.pushMark token 1 with keys := none :: s.keys, keyAllowed := true }

def closeFlow (s : TokenStream) (token : Token) : Option TokenStream := do
  let s ← s.dropKey
  let keys := if s.inFlow then s.keys.drop 1 else s.keys
  some { s.pushMark token 1 with keys := keys, keyAllowed := false }

def flowEntry (s : TokenStream) : Option TokenStream := do
  let s ← s.dropKey
  some { s.pushMark .flowEntry 1 with keyAllowed := true }

def blockEntry (s : TokenStream) : Option TokenStream :=
  if !s.inFlow && !s.keyAllowed then none
  else do
    let s := s.openBlock s.cursor.column none .blockSequenceStart
    let s ← s.dropKey
    some { s.pushMark .blockEntry 1 with keyAllowed := true }

def explicitKey (s : TokenStream) : Option TokenStream :=
  if !s.inFlow && !s.keyAllowed then none
  else do
    let s := s.openBlock s.cursor.column none .blockMappingStart
    let s ← s.dropKey
    some { s.pushMark .key 1 with keyAllowed := !s.inFlow }

/-- A colon. It confirms the key that may have begun, or else it follows a key that
was marked as one. -/
def value (s : TokenStream) : Option TokenStream :=
  match s.keys with
  | some key :: keys =>
      let s := s.insert key.number .key
      let s := s.openBlock key.column (some key.number) .blockMappingStart
      some { s.pushMark .value 1 with keys := none :: keys, keyAllowed := false }
  | _ =>
      if !s.inFlow && !s.keyAllowed then none
      else
        let s := s.openBlock s.cursor.column none .blockMappingStart
        some { s.pushMark .value 1 with keyAllowed := !s.inFlow }

def named (s : TokenStream) (token : List Char → Token) : Option TokenStream := do
  let s ← s.saveKey
  let (name, c) ← readName (s.cursor.skip 1)
  some { s.push (token name) with cursor := c, keyAllowed := false }

def tag (s : TokenStream) : Option TokenStream := do
  let s ← s.saveKey
  let (token, c) ← readTag s.inFlow s.cursor
  some { s.push token with cursor := c, keyAllowed := false }

def block (s : TokenStream) (folded : Bool) : Option TokenStream := do
  let s ← s.dropKey
  let (text, c) ← blockScalar folded s.indents.head? s.size (s.cursor.skip 1)
  some { s.push (.scalar .quoted text) with cursor := c, keyAllowed := true }

def quoted (s : TokenStream) (quote : Char) : Option TokenStream := do
  let s ← s.saveKey
  let (text, c) ← quotedScalar quote s.size [] (s.cursor.skip 1)
  some { s.push (.scalar .quoted text) with cursor := c, keyAllowed := false }

def plain (s : TokenStream) : Option TokenStream := do
  let s ← s.saveKey
  let (text, broken, c) ←
    plainScalar s.inFlow s.scalarIndent s.size [] .empty s.cursor
  some { s.push (.scalar .plain text) with cursor := c, keyAllowed := broken }

def isIndicator (ch : Char) : Bool :=
  "-?:,[]{}#&*!|>'\"%@\x60".toList.contains ch

def beginsPlain (s : TokenStream) : Bool :=
  s.cursor.satisfiesAt 0 (fun ch => !isSpaceOrBreak ch && !isIndicator ch)
    || (s.cursor.hasAt 0 '-' && !s.cursor.satisfiesAt 1 isBlank)
    || (!s.inFlow && (s.cursor.hasAt 0 '?' || s.cursor.hasAt 0 ':') && !s.cursor.gapAt 1)

def cutToken (s : TokenStream) : Option TokenStream :=
  let c := s.cursor
  if c.column == 0 && c.hasAt 0 '%' then s.directive
  else if c.atMarker '-' then s.documentMarker .documentStart
  else if c.atMarker '.' then s.documentMarker .documentEnd
  else if c.hasAt 0 '[' then s.openFlow .flowSequenceStart
  else if c.hasAt 0 '{' then s.openFlow .flowMappingStart
  else if c.hasAt 0 ']' then s.closeFlow .flowSequenceEnd
  else if c.hasAt 0 '}' then s.closeFlow .flowMappingEnd
  else if c.hasAt 0 ',' then s.flowEntry
  else if c.hasAt 0 '-' && c.gapAt 1 then s.blockEntry
  else if c.hasAt 0 '?' && (s.inFlow || c.gapAt 1) then s.explicitKey
  else if c.hasAt 0 ':' && (s.inFlow || c.gapAt 1) then s.value
  else if c.hasAt 0 '*' then s.named .alias
  else if c.hasAt 0 '&' then s.named .anchor
  else if c.hasAt 0 '!' then s.tag
  else if c.hasAt 0 '|' && !s.inFlow then s.block false
  else if c.hasAt 0 '>' && !s.inFlow then s.block true
  else if c.hasAt 0 '\'' then s.quoted '\''
  else if c.hasAt 0 '"' then s.quoted '"'
  else if s.beginsPlain then s.plain
  else none

def finish (s : TokenStream) : Option TokenStream := do
  let c := s.cursor
  let c := if c.column == 0 then c else { c with column := 0, line := c.line + 1 }
  let s ← { s with cursor := c }.endBlocks
  some (s.push .streamEnd)

/-- Goes on to the next token and cuts it off. What comes back says whether it was
the end of the text. -/
def step (s : TokenStream) : Option (Bool × TokenStream) := do
  let (keyAllowed, c) :=
    s.cursor.skipToToken s.inFlow (s.size + 1) s.keyAllowed
  let s ← { s with cursor := c, keyAllowed := keyAllowed }.dropStaleKeys
  let s := s.closeBlocks (some c.column)
  if c.rest.isEmpty then
    let s ← s.finish
    some (true, s)
  else
    let s ← s.cutToken
    some (false, s)

/-- Gives out the tokens that no key can begin at any more. -/
def give (s : TokenStream) : List Token × TokenStream :=
  let firstKey := s.keys.foldl (fun n key =>
    match key with
    | some key => min n key.number
    | none => n) (s.given + s.held.length)
  let count := firstKey - s.given
  (s.held.take count, { s with held := s.held.drop count, given := s.given + count })

/-- The tokens from here on. Every step but the last takes characters. -/
def tokensFrom : Nat → TokenStream → List Token
  | 0, _ => []
  | fuel + 1, s =>
      match s.step with
      | none => []
      | some (ended, s) =>
          match s.dropStaleKeys with
          | none => []
          | some s =>
              let (tokens, s) := s.give
              if ended then tokens else tokens ++ tokensFrom fuel s

end TokenStream

/-- The tokens of a text, as far as they go. A byte order mark before the text does
not belong to it. -/
def tokens (text : List Char) : List Token :=
  let text := if text.head? == some '\ufeff' then text.drop 1 else text
  if text.all isPrintable then
    TokenStream.tokensFrom (text.length + 1) (.ofList text)
  else []

end Yaml

end FieldPath
