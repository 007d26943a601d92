import FieldPath.Settings

/-!
# Arguments of the command line

A command is a verb with operands. Options may stand before the verb, where only
some of them are known, and anywhere after it. An option has a letter and a word;
letters can be joined, and a value may be attached to either. After two hyphens
alone, everything is an operand.
-/

namespace FieldPath

namespace CommandLine

inductive Verb where
  | check
  | query
  | validate
  deriving DecidableEq

def Verb.ofName? (name : String) : Option Verb :=
  if name = "check" then some .check
  else if name = "query" then some .query
  else if name = "validate" then some .validate
  else none

inductive Flag where
  | format
  | output
  | schema
  | all
  | version
  deriving DecidableEq

namespace Flag

def every : List Flag := [format, output, schema, all, version]

def letter : Flag → Char
  | format => 'f'
  | output => 'o'
  | schema => 's'
  | all => 'a'
  | version => 'V'

def word : Flag → String
  | format => "format"
  | output => "output"
  | schema => "schema"
  | all => "all"
  | version => "version"

def takesValue : Flag → Bool
  | format | output | schema => true
  | all | version => false

def knownTo : Option Verb → Flag → Bool
  | _, format => true
  | _, output => true
  | verb, schema => verb == some .validate
  | verb, all => verb == some .query
  | verb, version => verb.isNone

def ofLetter? (verb : Option Verb) (c : Char) : Option Flag :=
  every.find? fun flag => flag.letter == c && flag.knownTo verb

def ofWord? (verb : Option Verb) (word : String) : Option Flag :=
  every.find? fun flag => flag.word == word && flag.knownTo verb

end Flag

inductive Item where
  | verb (verb : Verb)
  | flag (flag : Flag)
  | setting (flag : Flag) (value : String)
  | operand (text : String)
  | unknown

/-- Reads joined letters. What comes with them is the option that a value must still
follow. -/
def readLetters (verb : Option Verb) : List Char → List Item × Option Flag
  | [] => ([], none)
  | c :: rest =>
      match Flag.ofLetter? verb c with
      | none => ([.unknown], none)
      | some flag =>
          if flag.takesValue then
            match rest with
            | [] => ([], some flag)
            | '=' :: value => ([.setting flag (String.ofList value)], none)
            | value => ([.setting flag (String.ofList value)], none)
          else
            let (items, pending) := readLetters verb rest
            (.flag flag :: items, pending)

def readWord (verb : Option Verb) (cs : List Char) : List Item × Option Flag :=
  let word := cs.takeWhile (· != '=')
  match Flag.ofWord? verb (String.ofList word), cs.drop word.length with
  | none, _ => ([.unknown], none)
  | some flag, [] => if flag.takesValue then ([], some flag) else ([.flag flag], none)
  | some flag, _ :: value =>
      if flag.takesValue then ([.setting flag (String.ofList value)], none)
      else ([.unknown], none)

/-- Whether an argument is an operand or a value. A lone hyphen is one. -/
def isPlain (arg : String) : Bool := arg.toList.head? != some '-' || arg == "-"

/-- What arguments say after a verb, or before it. Nothing is read any further than
to the first thing that is unknown or lacks its value. -/
def items : Option Verb → List String → List Item
  | _, [] => []
  | verb, arg :: rest =>
      if arg == "--" then
        if verb.isSome then rest.map .operand else [.unknown]
      else if isPlain arg then
        match verb, Verb.ofName? arg with
        | some _, _ => .operand arg :: items verb rest
        | none, some verb => .verb verb :: items (some verb) rest
        | none, none => [.unknown]
      else
        let (read, pending) :=
          match arg.toList with
          | '-' :: '-' :: word => readWord verb word
          | letters => readLetters verb (letters.drop 1)
        match pending, rest with
        | none, rest => read ++ items verb rest
        | some _, [] => read ++ [.unknown]
        | some flag, value :: rest =>
            if isPlain value then read ++ .setting flag value :: items verb rest
            else read ++ [.unknown]

/-- The options and operands on one side of the verb. -/
structure Given where
  format : Option Format := none
  output : Option OutputFormat := none
  schema : Option String := none
  all : Bool := false
  operands : List String := []

inductive Command where
  | check (paths : List String)
  | query (path : String) (file : Option String) (all : Bool)
  | validate (schema : String) (file : Option String)

structure Invocation where
  format : Option Format
  output : Option OutputFormat
  command : Command

inductive Refusal where
  | version
  | misuse

namespace Given

/-- Gives an option its value, unless it has one or the value is not one of its own. -/
def set (g : Given) (flag : Flag) (value : String) : Option Given :=
  match flag with
  | .format =>
      if g.format.isSome then none
      else (Format.ofName? value).map fun v => { g with format := some v }
  | .output =>
      if g.output.isSome then none
      else (OutputFormat.ofName? value).map fun v => { g with output := some v }
  | .schema =>
      if g.schema.isSome || value.isEmpty then none else some { g with schema := some value }
  | _ => none

/-- The file among the operands, which may be left out. Its name is not empty. -/
def file? : List String → Option (Option String)
  | [] => some none
  | [name] => if name.isEmpty then none else some (some name)
  | _ => none

def command? (g : Given) : Verb → Option Command
  | .check => if g.operands.isEmpty then none else some (.check g.operands)
  | .query =>
      match g.operands with
      | path :: rest => (file? rest).map (.query path · g.all)
      | [] => none
  | .validate => do
      let schema ← g.schema
      (file? g.operands).map (.validate schema)

end Given

/-- What has been gathered so far: what stood before the verb, the verb, and what
stands on the side that is being read. -/
structure Gathered where
  outer : Given
  verb : Option Verb
  here : Given

namespace Gathered

def empty : Gathered := ⟨{}, none, {}⟩

def add (g : Gathered) : Item → Except Refusal Gathered
  | .verb verb => .ok ⟨g.here, some verb, {}⟩
  | .setting flag value =>
      match g.here.set flag value with
      | some here => .ok { g with here := here }
      | none => .error .misuse
  | .flag .all =>
      if g.here.all then .error .misuse else .ok { g with here := { g.here with all := true } }
  | .flag .version => .error .version
  | .flag _ => .error .misuse
  | .operand text =>
      .ok { g with here := { g.here with operands := g.here.operands ++ [text] } }
  | .unknown => .error .misuse

/-- The command, if it is complete. A format after the verb counts before one that
stands ahead of it. -/
def invocation? (g : Gathered) : Option Invocation := do
  let verb ← g.verb
  let command ← g.here.command? verb
  some ⟨g.here.format.or g.outer.format, g.here.output.or g.outer.output, command⟩

end Gathered

def read (args : List String) : Except Refusal Invocation := do
  let gathered ← (items none args).foldlM Gathered.add .empty
  match gathered.invocation? with
  | some invocation => .ok invocation
  | none => .error .misuse

end CommandLine

end FieldPath
