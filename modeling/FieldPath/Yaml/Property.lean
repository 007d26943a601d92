import FieldPath.Text.Hex
import FieldPath.Yaml.Cursor
import FieldPath.Yaml.Token

/-!
# Anchors, tags and directives in YAML texts

An octet that a tag spells by its number stands in the tag as the character of
that number.
-/

namespace FieldPath

namespace Yaml

/-- What may stand right after a name: a gap or one of these indicators. -/
def endsName (c : Cursor) : Bool :=
  c.gapAt 0 || c.satisfiesAt 0 fun ch =>
    ch == '?' || ch == ':' || ch == ',' || ch == ']' || ch == '}' || ch == '%' || ch == '@'
      || ch == '\x60'

def readName (c : Cursor) : Option (List Char × Cursor) :=
  let (name, c) := c.takeWhile isWordChar
  if name.isEmpty || !endsName c then none else some (name, c)

/-! ## Tags -/

def octetWidth? (octet : Nat) : Option Nat :=
  if octet < 0x80 then some 1
  else if 0xC0 ≤ octet ∧ octet < 0xE0 then some 2
  else if 0xE0 ≤ octet ∧ octet < 0xF0 then some 3
  else if 0xF0 ≤ octet ∧ octet < 0xF8 then some 4
  else none

def escapedOctet? : List Char → Option Nat
  | '%' :: a :: b :: _ => Text.hexValue? [a, b]
  | _ => none

def escapedOctets? (cs : List Char) : Option (List Nat) := do
  let first ← escapedOctet? cs
  let width ← octetWidth? first
  let others ← (List.range (width - 1)).mapM fun i => do
    let octet ← escapedOctet? (cs.drop (3 * (i + 1)))
    if 0x80 ≤ octet ∧ octet < 0xC0 then some octet else none
  some (first :: others)

def isUriChar (verbatim : Bool) (c : Char) : Bool :=
  isWordChar c || ";/?:@&=+$.!~*'()".toList.contains c
    || (verbatim && (c == ',' || c == '[' || c == ']'))

/-- The rest of a tag. Between angle brackets some flow indicators may occur. -/
def readUri (verbatim : Bool) : Nat → Cursor → Option (List Char × Cursor)
  | 0, c => some ([], c)
  | fuel + 1, c =>
      match c.peek? with
      | none => some ([], c)
      | some ch =>
          if ch == '%' then do
            let octets ← escapedOctets? c.rest
            let (rest, c) ← readUri verbatim fuel (c.skip (3 * octets.length))
            some (octets.map Char.ofNat ++ rest, c)
          else if isUriChar verbatim ch then do
            let (rest, c) ← readUri verbatim fuel (c.skip 1)
            some (ch :: rest, c)
          else some ([], c)

def readUri? (verbatim : Bool) (c : Cursor) : Option (List Char × Cursor) :=
  readUri verbatim c.rest.length c

/-- A handle: an exclamation mark, or two of them around a name. Without the second
one it may be the beginning of something else. -/
def readHandle (c : Cursor) : Option (List Char × Cursor) :=
  if c.hasAt 0 '!' then
    let (name, c) := (c.skip 1).takeWhile isWordChar
    if c.hasAt 0 '!' then some ('!' :: name ++ ['!'], c.skip 1) else some ('!' :: name, c)
  else none

def isClosedHandle (handle : List Char) : Bool :=
  1 < handle.length && handle.getLast? == some '!'

/-- A tag in one of its forms: a whole tag between angle brackets, a handle and a
suffix, a suffix to the primary handle, or an exclamation mark alone. -/
def readTag (inFlow : Bool) (c : Cursor) : Option (Token × Cursor) := do
  let (token, c) ←
    if c.hasAt 1 '<' then do
      let (suffix, c) ← readUri? true (c.skip 2)
      if suffix.isEmpty || !c.hasAt 0 '>' then none
      else some (Token.tag [] suffix, c.skip 1)
    else do
      let (handle, c) ← readHandle c
      let (suffix, c) ← readUri? false c
      if isClosedHandle handle then
        if suffix.isEmpty then none else some (.tag handle suffix, c)
      else
        let suffix := handle.drop 1 ++ suffix
        if suffix.isEmpty then some (.tag [] ['!'], c) else some (.tag ['!'] suffix, c)
  if c.gapAt 0 || (inFlow && c.hasAt 0 ',') then some (token, c) else none

/-! ## Directives -/

def readVersionPart (c : Cursor) : Option (Nat × Cursor) :=
  let (digits, c) := c.takeWhile Char.isDigit
  if digits.isEmpty || 9 < digits.length then none
  else some (digits.foldl (fun n d => 10 * n + (d.toNat - '0'.toNat)) 0, c)

def readVersionDirective (c : Cursor) : Option (Token × Cursor) := do
  let (major, c) ← readVersionPart (c.skipWhile isBlank)
  if !c.hasAt 0 '.' then none
  else
    let (minor, c) ← readVersionPart (c.skip 1)
    some (.versionDirective major minor, c)

def readTagDirective (c : Cursor) : Option (Token × Cursor) := do
  let (handle, c) ← readHandle (c.skipWhile isBlank)
  if (1 < handle.length && !isClosedHandle handle) || !c.satisfiesAt 0 isBlank then none
  else
    let (replacement, c) ← readUri? true (c.skipWhile isBlank)
    if replacement.isEmpty || !c.gapAt 0 then none
    else some (.tagDirective handle replacement, c)

def readDirective (c : Cursor) : Option (Token × Cursor) := do
  let (name, c) := (c.skip 1).takeWhile isWordChar
  if name.isEmpty || !c.gapAt 0 then none
  else
    let (token, c) ←
      if name == "YAML".toList then readVersionDirective c
      else if name == "TAG".toList then readTagDirective c
      else none
    let c := c.skipToLineEnd
    if c.atLineEnd then some (token, c.skipBreak) else none

end Yaml

end FieldPath
