import FieldPath.Text.Hex
import FieldPath.Yaml.Cursor

/-!
# Scalars in YAML texts

Plain and quoted scalars are runs of characters with gaps between them. A gap
within a line is kept; one that breaks the line is folded. Block scalars are
lines at one indentation, kept or folded, with the breaks at their end chomped.

Every turn of a loop takes at least one character, so the length of the text is
fuel enough.
-/

namespace FieldPath

namespace Yaml

/-- Joins the lines around breaks: a lone line feed becomes a space, and of several
breaks a line feed at the start is dropped. -/
def foldBreaks (first others : List Char) : List Char :=
  if first == ['\n'] then (if others.isEmpty then [' '] else others)
  else first ++ others

structure Gap where
  blanks : List Char
  first : List Char
  others : List Char
  broken : Bool

namespace Gap

def empty : Gap := ⟨[], [], [], false⟩

def text (g : Gap) : List Char :=
  if g.broken then foldBreaks g.first g.others else g.blanks

/-- Reads a gap. Once a line is broken, no tab may stand left of `indent`. -/
def read (indent : Nat) : Nat → Gap → Cursor → Option (Gap × Cursor)
  | 0, g, c => some (g, c)
  | fuel + 1, g, c =>
      match c.peek? with
      | none => some (g, c)
      | some ch =>
          if isBlank ch then
            if g.broken then
              if ch == '\t' && c.column < indent then none
              else read indent fuel g (c.skip 1)
            else read indent fuel { g with blanks := g.blanks ++ [ch] } (c.skip 1)
          else if isBreak ch then
            let (seen, c) := c.takeBreak
            if g.broken then read indent fuel { g with others := g.others ++ seen } c
            else read indent fuel ⟨[], seen, [], true⟩ c
          else some (g, c)

end Gap

/-! ## Plain scalars -/

def isFlowIndicator (c : Char) : Bool :=
  c == ',' || c == '[' || c == ']' || c == '{' || c == '}'

/-- The characters of a plain scalar up to a gap or to what ends the scalar: a
colon before a gap, or in a flow collection an indicator. There a colon before
an indicator is an error. -/
def plainRun (inFlow : Bool) : List Char → Option (List Char)
  | [] => some []
  | c :: rest =>
      if isSpaceOrBreak c then some []
      else if c == ':' && (rest.head?.all isSpaceOrBreak) then some []
      else if inFlow && isFlowIndicator c then some []
      else if inFlow && c == ':' && rest.head?.any (fun d => d == '?' || isFlowIndicator d) then
        none
      else (plainRun inFlow rest).map (c :: ·)

/-- The text of a plain scalar, whether it ends after a line break, and what lies
ahead of it. `pending` is the gap before the cursor. -/
def plainScalar (inFlow : Bool) (indent : Nat) :
    Nat → List Char → Gap → Cursor → Option (List Char × Bool × Cursor)
  | 0, text, pending, c => some (text, pending.broken, c)
  | fuel + 1, text, pending, c =>
      if c.atDocumentMarker || c.hasAt 0 '#' then some (text, pending.broken, c)
      else do
        let run ← plainRun inFlow c.rest
        if run.isEmpty then some (text, pending.broken, c)
        else
          let text := text ++ pending.text ++ run
          let c := c.skip run.length
          if c.satisfiesAt 0 isSpaceOrBreak then do
            let (gap, c) ← Gap.read indent (fuel + 1) .empty c
            if !inFlow && c.column < indent then some (text, gap.broken, c)
            else plainScalar inFlow indent fuel text gap c
          else some (text, false, c)

/-! ## Quoted scalars -/

def namedEscape? : Char → Option Char
  | '0' => some '\x00'
  | 'a' => some '\x07'
  | 'b' => some '\x08'
  | 't' => some '\t'
  | '\t' => some '\t'
  | 'n' => some '\n'
  | 'v' => some '\x0b'
  | 'f' => some '\x0c'
  | 'r' => some '\r'
  | 'e' => some '\x1b'
  | ' ' => some ' '
  | '"' => some '"'
  | '/' => some '/'
  | '\\' => some '\\'
  | 'N' => some '\x85'
  | '_' => some '\xa0'
  | 'L' => some '\u2028'
  | 'P' => some '\u2029'
  | _ => none

def escapeWidth? : Char → Option Nat
  | 'x' => some 2
  | 'u' => some 4
  | 'U' => some 8
  | _ => none

/-- The character of an escape, and how many characters the escape takes after its
backslash. -/
def escape? : List Char → Option (Char × Nat)
  | [] => none
  | letter :: rest =>
      match namedEscape? letter, escapeWidth? letter with
      | some c, _ => some (c, 1)
      | none, some width => do
          if rest.length < width then none
          else
            let n ← Text.hexValue? (rest.take width)
            if n.isValidChar then some (Char.ofNat n, 1 + width) else none
      | none, none => none

/-- Reads a run of a quoted scalar, up to its quote, to a gap or past an escaped
line break. What comes back says whether a break was escaped. -/
def quotedRun (quote : Char) : Nat → Cursor → Option (List Char × Bool × Cursor)
  | 0, c => some ([], false, c)
  | fuel + 1, c =>
      match c.rest with
      | [] => some ([], false, c)
      | ch :: rest =>
          if isSpaceOrBreak ch then some ([], false, c)
          else if quote == '\'' && ch == '\'' && rest.head? == some '\'' then do
            let (text, escaped, c) ← quotedRun quote fuel (c.skip 2)
            some ('\'' :: text, escaped, c)
          else if ch == quote then some ([], false, c)
          else if quote == '"' && ch == '\\' then
            if rest.head?.any isBreak then some ([], true, (c.skip 1).skipBreak)
            else do
              let (d, width) ← escape? rest
              let (text, escaped, c) ← quotedRun quote fuel (c.skip (1 + width))
              some (d :: text, escaped, c)
          else do
            let (text, escaped, c) ← quotedRun quote fuel (c.skip 1)
            some (ch :: text, escaped, c)

def quotedScalar (quote : Char) : Nat → List Char → Cursor → Option (List Char × Cursor)
  | 0, _, _ => none
  | fuel + 1, text, c =>
      if c.atDocumentMarker || c.rest.isEmpty then none
      else do
        let (run, escaped, c) ← quotedRun quote (fuel + 1) c
        let text := text ++ run
        if c.hasAt 0 quote then some (text, c.skip 1)
        else do
          let (gap, c) ← Gap.read 0 (fuel + 1) { Gap.empty with broken := escaped } c
          quotedScalar quote fuel (text ++ gap.text) c

/-! ## Block scalars -/

inductive Chomping where
  | clip
  | strip
  | keep
  deriving DecidableEq

/-- What stands after the indicator of a block scalar: how its end is chomped, and
its indentation relative to its parent if that is given. -/
structure BlockHeader where
  chomping : Chomping
  increment : Option Nat

namespace BlockHeader

def chomping? : Option Char → Option Chomping
  | some '+' => some .keep
  | some '-' => some .strip
  | _ => none

def readIncrement (c : Cursor) : Option (Option Nat × Cursor) :=
  match c.peek? with
  | some ch =>
      if ch == '0' then none
      else if ch.isDigit then some (some (ch.toNat - '0'.toNat), c.skip 1)
      else some (none, c)
  | none => some (none, c)

def read (c : Cursor) : Option (BlockHeader × Cursor) := do
  let (header, c) ←
    match chomping? c.peek? with
    | some chomping => do
        let (increment, c) ← readIncrement (c.skip 1)
        some (BlockHeader.mk chomping increment, c)
    | none => do
        let (increment, c) ← readIncrement c
        match increment, chomping? c.peek? with
        | some _, some chomping => some (⟨chomping, increment⟩, c.skip 1)
        | _, _ => some (⟨.clip, increment⟩, c)
  let c := c.skipToLineEnd
  if c.atLineEnd then some (header, c.skipBreak) else none

end BlockHeader

/-- Reads the empty lines before a line of a block scalar and that line's
indentation, up to `indent` if it is known. The widest indentation seen comes
back with the breaks. -/
def blockBreaks (indent : Option Nat) :
    Nat → List Char → Nat → Cursor → Option (List Char × Nat × Cursor)
  | 0, breaks, widest, c => some (breaks, widest, c)
  | fuel + 1, breaks, widest, c =>
      let spaces := (c.rest.takeWhile (· == ' ')).length
      let c := c.skip (match indent with
        | some n => min spaces (n - c.column)
        | none => spaces)
      let widest := max widest c.column
      let short := match indent with
        | some n => c.column < n
        | none => true
      if short && c.hasAt 0 '\t' then none
      else if c.satisfiesAt 0 isBreak then
        let (seen, c) := c.takeBreak
        blockBreaks indent fuel (breaks ++ seen) widest c
      else some (breaks, widest, c)

/-- Reads the lines of a block scalar. `first` is the break of the line before, and
`others` are the breaks after it. What comes back are the text and the breaks
at its end, still in these two parts. -/
def blockLines (folded : Bool) (indent : Nat) : Nat → List Char → List Char → List Char →
    Bool → Cursor → Option (List Char × List Char × List Char × Cursor)
  | 0, text, first, others, _, c => some (text, first, others, c)
  | fuel + 1, text, first, others, afterBlank, c =>
      if c.column == indent && !c.rest.isEmpty then do
        let blank := c.satisfiesAt 0 isBlank
        let joint :=
          if folded && first == ['\n'] && !afterBlank && !blank then
            (if others.isEmpty then [' '] else others)
          else first ++ others
        let (line, c) := c.takeWhile (!isBreak ·)
        let (first, c) := c.takeBreak
        let (others, _, c) ← blockBreaks (some indent) (fuel + 1) [] 0 c
        blockLines folded indent fuel (text ++ joint ++ line) first others blank c
      else some (text, first, others, c)

/-- The text of a block scalar whose indicator lies behind, and what lies ahead of
it. `parent` is the indentation of the block around it, if there is one. -/
def blockScalar (folded : Bool) (parent : Option Nat) (fuel : Nat) (c : Cursor) :
    Option (List Char × Cursor) := do
  let (header, c) ← BlockHeader.read c
  let given := header.increment.map (parent.getD 0 + ·)
  let (others, widest, c) ← blockBreaks given fuel [] 0 c
  let least := match parent with
    | some n => n + 1
    | none => 1
  let indent := given.getD (max widest least)
  let (text, first, others, c) ← blockLines folded indent fuel [] [] others false c
  let ending := match header.chomping with
    | .strip => []
    | .clip => first
    | .keep => first ++ others
  some (text ++ ending, c)

end Yaml

end FieldPath
