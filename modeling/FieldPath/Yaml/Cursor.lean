/-!
# Places in a YAML text

The text that lies ahead, and where it begins. Five characters end a line, and a
carriage return takes a line feed after it along.
-/

namespace FieldPath

namespace Yaml

def isBlank (c : Char) : Bool := c == ' ' || c == '\t'

def isBreak (c : Char) : Bool :=
  c == '\n' || c == '\r' || c == '\x85' || c == '\u2028' || c == '\u2029'

def isSpaceOrBreak (c : Char) : Bool := isBlank c || isBreak c

/-- The characters of anchor names, tag handles and directive names. -/
def isWordChar (c : Char) : Bool := c.isAlphanum || c == '_' || c == '-'

def isPrintable (c : Char) : Bool :=
  let n := c.toNat
  n == 0x09 || n == 0x0A || n == 0x0D || (0x20 ≤ n && n ≤ 0x7E) || n == 0x85
    || (0xA0 ≤ n && n ≤ 0xFFFD) || 0x10000 ≤ n

structure Cursor where
  rest : List Char
  line : Nat
  column : Nat
  index : Nat

namespace Cursor

def ofList (cs : List Char) : Cursor := ⟨cs, 0, 0, 0⟩

def peek? (c : Cursor) : Option Char := c.rest.head?

def hasAt (c : Cursor) (offset : Nat) (ch : Char) : Bool := c.rest[offset]? == some ch

/-- Whether the character at `offset` satisfies `p`; the end of the text does not. -/
def satisfiesAt (c : Cursor) (offset : Nat) (p : Char → Bool) : Bool :=
  match c.rest[offset]? with
  | some ch => p ch
  | none => false

/-- Whether the text ends, or a blank or a break stands, at `offset`. -/
def gapAt (c : Cursor) (offset : Nat) : Bool :=
  match c.rest[offset]? with
  | some ch => isSpaceOrBreak ch
  | none => true

def atLineEnd (c : Cursor) : Bool :=
  match c.peek? with
  | some ch => isBreak ch
  | none => true

/-- Moves ahead by characters that end no line. -/
def skip (c : Cursor) (count : Nat) : Cursor :=
  ⟨c.rest.drop count, c.line, c.column + count, c.index + count⟩

def skipWhile (c : Cursor) (p : Char → Bool) : Cursor := c.skip (c.rest.takeWhile p).length

def takeWhile (c : Cursor) (p : Char → Bool) : List Char × Cursor :=
  let run := c.rest.takeWhile p
  (run, c.skip run.length)

/-- Moves past a line break, if there is one. What comes with the new cursor is the
break as it counts in a scalar: the two Unicode separators stay as they are and
every other break is a line feed. -/
def takeBreak (c : Cursor) : List Char × Cursor :=
  match c.rest with
  | '\r' :: '\n' :: rest => (['\n'], ⟨rest, c.line + 1, 0, c.index + 2⟩)
  | ch :: rest =>
      if isBreak ch then
        let seen := if ch == '\u2028' || ch == '\u2029' then ch else '\n'
        ([seen], ⟨rest, c.line + 1, 0, c.index + 1⟩)
      else ([], c)
  | [] => ([], c)

def skipBreak (c : Cursor) : Cursor := c.takeBreak.2

def skipToLineEnd (c : Cursor) : Cursor :=
  let c := c.skipWhile isBlank
  if c.hasAt 0 '#' then c.skipWhile (!isBreak ·) else c

/-- Whether a line begins here with three times `ch` and a gap. -/
def atMarker (c : Cursor) (ch : Char) : Bool :=
  c.column == 0 && c.hasAt 0 ch && c.hasAt 1 ch && c.hasAt 2 ch && c.gapAt 3

def atDocumentMarker (c : Cursor) : Bool := c.atMarker '-' || c.atMarker '.'

/-- Moves to where the next token begins, past blanks, comments and breaks. Tabs
count as blanks where no key may start; outside of flow collections a new line
lets a key start. What comes with the new cursor is whether a key may start. -/
def skipToToken (inFlow : Bool) : Nat → Bool → Cursor → Bool × Cursor
  | 0, keyAllowed, c => (keyAllowed, c)
  | fuel + 1, keyAllowed, c =>
      let c := if c.column == 0 && c.hasAt 0 '\ufeff' then c.skip 1 else c
      let tabs := inFlow || !keyAllowed
      let c := c.skipWhile fun ch => ch == ' ' || (tabs && ch == '\t')
      let c := if c.hasAt 0 '#' then c.skipWhile (!isBreak ·) else c
      if c.satisfiesAt 0 isBreak then
        skipToToken inFlow fuel (keyAllowed || !inFlow) c.skipBreak
      else (keyAllowed, c)

end Cursor

end Yaml

end FieldPath
