import FieldPath.Yaml.Node
import FieldPath.Yaml.TokenStream

/-!
# Nodes from tokens

The grammar of YAML over tokens. Each function reads one construct and leaves the
tokens after it. Where no construct fits, a cut takes its place and no token is
left, so that everything around it breaks off there as well.
-/

namespace FieldPath

namespace Yaml

structure Composition where
  tokens : List Token
  anchors : Anchors
  handles : List (List Char × List Char)

namespace Composition

def withTokens (c : Composition) (tokens : List Token) : Composition :=
  { c with tokens := tokens }

def stop (c : Composition) : Composition := c.withTokens []

def defaultHandles : List (List Char × List Char) :=
  [(['!'], ['!']), (['!', '!'], "tag:yaml.org,2002:".toList)]

def resolve? (c : Composition) (handle suffix : List Char) : Option (List Char) :=
  if handle.isEmpty then some suffix
  else (c.handles.lookup handle).map (· ++ suffix)

structure Properties where
  anchor : Option (List Char)
  tag : Option (List Char)

def properties? (c : Composition) : Option (Properties × Composition) :=
  match c.tokens with
  | .anchor name :: .tag handle suffix :: rest | .tag handle suffix :: .anchor name :: rest =>
      (c.resolve? handle suffix).map fun tag => (⟨some name, some tag⟩, c.withTokens rest)
  | .anchor name :: rest => some (⟨some name, none⟩, c.withTokens rest)
  | .tag handle suffix :: rest =>
      (c.resolve? handle suffix).map fun tag => (⟨none, some tag⟩, c.withTokens rest)
  | _ => some (⟨none, none⟩, c)

/-- The tag of a scalar. A lone exclamation mark is no tag there. -/
def scalarTag (tag : Option (List Char)) : Option (List Char) :=
  if tag == some ['!'] then none else tag

/-- Reads a node with `read`, unless the tokens end or the next one `isNext` to the
node and leaves it blank. -/
def nodeUnless (isNext : Token → Bool) (read : Composition → Node × Composition)
    (c : Composition) : Node × Composition :=
  match c.tokens with
  | [] => (.cut, c)
  | token :: _ => if isNext token then (.blank, c) else read c

def endsBlockItem (token : Token) : Bool := token == .blockEntry || token == .blockEnd

def endsBlockKey (token : Token) : Bool :=
  token == .key || token == .value || token == .blockEnd

def endsFlowItem (token : Token) : Bool := token == .flowEntry || token == .flowSequenceEnd

def endsFlowValue (token : Token) : Bool := token == .flowEntry || token == .flowMappingEnd

/-- Reads the value that a colon announces. Without a colon it is blank. -/
def valueAfterColon (isNext : Token → Bool) (read : Composition → Node × Composition)
    (c : Composition) : Node × Composition :=
  match c.tokens with
  | [] => (.cut, c)
  | .value :: rest => nodeUnless isNext read (c.withTokens rest)
  | _ => (.blank, c)

/-- Passes the comma before an item that is not the first, if it is there. -/
def separated (isFirst : Bool) (c : Composition) : Composition :=
  if isFirst then c
  else
    match c.tokens with
    | .flowEntry :: rest => c.withTokens rest
    | _ => c.stop

mutual

/-- Reads a node: within a block its content may be a block, and where `indentless`
holds it may be a sequence at the indentation of the mapping around it. -/
def node (inBlock indentless : Bool) : Nat → Composition → Node × Composition
  | 0, c => (.cut, c.stop)
  | fuel + 1, c =>
      match c.tokens with
      | .alias name :: rest =>
          match c.anchors.number? name with
          | some number => (.alias number, c.withTokens rest)
          | none => (.cut, c.stop)
      | _ =>
          match c.properties? with
          | none => (.cut, c.stop)
          | some (⟨none, tag⟩, c) => content inBlock indentless tag tag.isSome fuel c
          | some (⟨some name, tag⟩, c) =>
              let (place, anchors) := c.anchors.begin name
              let (n, c) :=
                content inBlock indentless tag true fuel { c with anchors := anchors }
              (n, { c with anchors := c.anchors.finish place n })

/-- Reads what a node holds. With a property before it, it may hold nothing. -/
def content (inBlock indentless : Bool) (tag : Option (List Char)) (mayBeBlank : Bool) :
    Nat → Composition → Node × Composition
  | 0, c => (.cut, c.stop)
  | fuel + 1, c =>
      match c.tokens with
      | [] => (.cut, c)
      | .scalar style text :: rest => (.scalar (scalarTag tag) style text, c.withTokens rest)
      | .flowSequenceStart :: rest =>
          let (items, c) := flowItems true fuel (c.withTokens rest)
          (.sequence tag items, c)
      | .flowMappingStart :: rest =>
          let (entries, c) := flowEntries true fuel (c.withTokens rest)
          (.mapping tag entries, c)
      | token :: rest =>
          if indentless && token == .blockEntry then
            let (items, c) := indentlessItems fuel c
            (.sequence tag items, c)
          else if inBlock && token == .blockSequenceStart then
            let (items, c) := blockItems fuel (c.withTokens rest)
            (.sequence tag items, c)
          else if inBlock && token == .blockMappingStart then
            let (entries, c) := blockEntries fuel (c.withTokens rest)
            (.mapping tag entries, c)
          else if mayBeBlank then (.scalar tag .plain [], c)
          else (.cut, c.stop)

def blockItems : Nat → Composition → List Node × Composition
  | 0, c => ([.cut], c.stop)
  | fuel + 1, c =>
      match c.tokens with
      | .blockEntry :: rest =>
          let (n, c) := nodeUnless endsBlockItem (node true false fuel) (c.withTokens rest)
          let (ns, c) := blockItems fuel c
          (n :: ns, c)
      | .blockEnd :: rest => ([], c.withTokens rest)
      | _ => ([.cut], c.stop)

def indentlessItems : Nat → Composition → List Node × Composition
  | 0, c => ([.cut], c.stop)
  | fuel + 1, c =>
      match c.tokens with
      | [] => ([.cut], c)
      | .blockEntry :: rest =>
          let isNext token := endsBlockItem token || endsBlockKey token
          let (n, c) := nodeUnless isNext (node true false fuel) (c.withTokens rest)
          let (ns, c) := indentlessItems fuel c
          (n :: ns, c)
      | _ => ([], c)

def blockEntries : Nat → Composition → List (Node × Node) × Composition
  | 0, c => ([(.cut, .cut)], c.stop)
  | fuel + 1, c =>
      match c.tokens with
      | .key :: rest =>
          let (k, c) := nodeUnless endsBlockKey (node true true fuel) (c.withTokens rest)
          let (v, c) := valueAfterColon endsBlockKey (node true true fuel) c
          let (es, c) := blockEntries fuel c
          ((k, v) :: es, c)
      | .blockEnd :: rest => ([], c.withTokens rest)
      | _ => ([(.cut, .cut)], c.stop)

/-- Items up to a closing bracket. An item may be a single entry, which makes a
mapping of its own. -/
def flowItems (isFirst : Bool) : Nat → Composition → List Node × Composition
  | 0, c => ([.cut], c.stop)
  | fuel + 1, c =>
      match c.tokens with
      | .flowSequenceEnd :: rest => ([], c.withTokens rest)
      | _ =>
          let c := separated isFirst c
          match c.tokens with
          | [] => ([.cut], c)
          | .flowSequenceEnd :: rest => ([], c.withTokens rest)
          | .key :: rest =>
              let (entry, c) := flowEntry fuel (c.withTokens rest)
              let (ns, c) := flowItems false fuel c
              (.mapping none [entry] :: ns, c)
          | _ =>
              let (n, c) := node false false fuel c
              let (ns, c) := flowItems false fuel c
              (n :: ns, c)

/-- A single entry among the items of a sequence. A token that leaves its key blank
is passed over. -/
def flowEntry : Nat → Composition → (Node × Node) × Composition
  | 0, c => ((.cut, .cut), c.stop)
  | fuel + 1, c =>
      let isNext token := token == .value || endsFlowItem token
      let (k, c) :=
        match c.tokens with
        | [] => (.cut, c)
        | token :: rest =>
            if isNext token then (.blank, c.withTokens rest) else node false false fuel c
      let (v, c) := valueAfterColon endsFlowItem (node false false fuel) c
      ((k, v), c)

def flowEntries (isFirst : Bool) : Nat → Composition → List (Node × Node) × Composition
  | 0, c => ([(.cut, .cut)], c.stop)
  | fuel + 1, c =>
      match c.tokens with
      | .flowMappingEnd :: rest => ([], c.withTokens rest)
      | _ =>
          let c := separated isFirst c
          match c.tokens with
          | [] => ([(.cut, .cut)], c)
          | .flowMappingEnd :: rest => ([], c.withTokens rest)
          | .key :: rest =>
              let isNext token := token == .value || endsFlowValue token
              let (k, c) := nodeUnless isNext (node false false fuel) (c.withTokens rest)
              let (v, c) := valueAfterColon endsFlowValue (node false false fuel) c
              let (es, c) := flowEntries false fuel c
              ((k, v) :: es, c)
          | _ =>
              let (k, c) := node false false fuel c
              let v := if c.tokens.isEmpty then .cut else .blank
              let (es, c) := flowEntries false fuel c
              ((k, v) :: es, c)

end

/-! ## Documents -/

def isKnownVersion (major minor : Nat) : Bool := major == 1 && (minor == 1 || minor == 2)

/-- Reads directives. There may be one version, and one replacement for a handle. -/
def directives? : Bool → List (List Char × List Char) → List Token →
    Option (List (List Char × List Char) × List Token)
  | seenVersion, handles, .versionDirective major minor :: rest =>
      if seenVersion || !isKnownVersion major minor then none
      else directives? true handles rest
  | seenVersion, handles, .tagDirective handle replacement :: rest =>
      if (handles.lookup handle).isSome then none
      else directives? seenVersion (handles ++ [(handle, replacement)]) rest
  | _, handles, rest => some (handles, rest)

def isDirective : Token → Bool
  | .versionDirective _ _ => true
  | .tagDirective _ _ => true
  | _ => false

def endsDocument (token : Token) : Bool :=
  isDirective token || token == .documentStart || token == .documentEnd || token == .streamEnd

def isFinished (tokens : List Token) : Bool :=
  tokens.dropWhile (· == .documentEnd) == [.streamEnd]

def document (tokens : List Token) : Node × Composition :=
  let fuel := 4 * tokens.length + 4
  let start : Composition := ⟨tokens, .empty, defaultHandles⟩
  match tokens with
  | [.streamEnd] => (.blank, start)
  | first :: _ =>
      if isDirective first || first == .documentStart then
        match directives? false [] tokens with
        | some (handles, .documentStart :: rest) =>
            nodeUnless endsDocument (node true false fuel)
              ⟨rest, .empty, handles ++ defaultHandles⟩
        | _ => (.cut, start.stop)
      else node true false fuel start
  | [] => (.cut, start)

end Composition

end Yaml

end FieldPath
