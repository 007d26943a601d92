import FieldPath.Cause
import FieldPath.Directory
import FieldPath.Format
import FieldPath.Gzip.Member
import FieldPath.Json.Reader

/-!
# Loading documents

A document comes from a text, from a file or from standard input, and may be
compressed. A failure says what was being done, from the outside in, and ends in
its cause.
-/

namespace FieldPath

def textOfBytes? (bytes : Bytes) : Option String := String.fromUTF8? ⟨bytes.toArray⟩

structure ContentError where
  format : Format
  cause : Cause
  deriving DecidableEq

def ContentError.message (e : ContentError) : String :=
  match e.format with
  | .auto => "Input is neither valid JSON nor valid YAML"
  | .json => "Invalid JSON"
  | .yaml => "Invalid YAML"

inductive LoadError where
  | content (error : ContentError)
  | unreadable (name : String)
  | notOpened
  | corrupted
  | file (name : String) (error : ContentError)
  | inputCorrupted
  | inputNotText
  | input (error : ContentError)
  deriving DecidableEq

namespace LoadError

/-- What was being done, from the outside in. -/
def messages : LoadError → List String
  | content error => [error.message]
  | unreadable name => ["Failed to read file " ++ name]
  | notOpened => ["Failed to open gzipped file"]
  | corrupted => ["Failed to decompress gzipped file - file may be corrupted"]
  | file name error => ["Failed to parse " ++ name, error.message]
  | inputCorrupted => ["Failed to decompress gzipped stdin"]
  | inputNotText => ["Invalid UTF-8 in stdin"]
  | input error => ["Failed to parse document from stdin", error.message]

def cause : LoadError → Cause
  | content error | file _ error | input error => error.cause
  | _ => .inputOutput

end LoadError

namespace Document

/-- Reads a document. JSON is tried first if the format is left open. -/
def ofText (text : String) (format : Format) : Except ContentError Value :=
  match format with
  | .json =>
      match Json.read? text with
      | some v => .ok v
      | none => .error ⟨.json, .json⟩
  | .yaml => (Yaml.read text).mapError fun e => ⟨.yaml, .yaml e⟩
  | .auto =>
      match Json.read? text with
      | some v => .ok v
      | none => (Yaml.read text).mapError fun e => ⟨.auto, .yaml e⟩

def textOfGzip? (bytes : Bytes) : Option String := (Gzip.decompress bytes).bind textOfBytes?

/-- The text of a file, which is decompressed if the name says so. -/
def textOfEntry (name : String) (entry : Entry) : Except LoadError String :=
  if FileName.isGzip name then
    match entry with
    | .missing => .error .notOpened
    | .directory => .error .corrupted
    | .file bytes =>
        match textOfGzip? bytes with
        | some text => .ok text
        | none => .error .corrupted
  else
    match entry with
    | .file bytes =>
        match textOfBytes? bytes with
        | some text => .ok text
        | none => .error (.unreadable name)
    | _ => .error (.unreadable name)

def ofEntry (name : String) (entry : Entry) (format : Format) : Except LoadError Value :=
  match textOfEntry name entry with
  | .error e => .error e
  | .ok text => (ofText text (format.forFile name)).mapError (.file name)

/-- The text of standard input, which is decompressed if it begins as a compressed
file does. -/
def textOfInput (bytes : Bytes) : Except LoadError String :=
  if Gzip.isGzip bytes then
    match textOfGzip? bytes with
    | some text => .ok text
    | none => .error .inputCorrupted
  else
    match textOfBytes? bytes with
    | some text => .ok text
    | none => .error .inputNotText

def ofInput (bytes : Bytes) (format : Format) : Except LoadError Value :=
  match textOfInput bytes with
  | .error e => .error e
  | .ok text => (ofText text format).mapError .input

end Document

end FieldPath
