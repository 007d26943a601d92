/-!
# Formats of documents
-/

namespace FieldPath

/-- How a document is written. Where this is left open, the name of a file decides,
and without one JSON is tried before YAML. -/
inductive Format where
  | auto
  | json
  | yaml
  deriving DecidableEq

namespace Format

def name : Format → String
  | auto => "auto"
  | json => "json"
  | yaml => "yaml"

def ofName? (name : String) : Option Format :=
  if name = "auto" then some auto
  else if name = "json" then some json
  else if name = "yaml" then some yaml
  else none

def endsWith (suffix text : List Char) : Bool := suffix.isSuffixOf text

def uncompressedName (fileName : List Char) : List Char :=
  if endsWith ".gz".toList fileName then fileName.take (fileName.length - 3) else fileName

/-- The format that a file's name tells: JSON by its ending, or else YAML. -/
def ofFileName (fileName : String) : Format :=
  if endsWith ".json".toList (uncompressedName fileName.toList) then json else yaml

def forFile (format : Format) (fileName : String) : Format :=
  match format with
  | auto => ofFileName fileName
  | format => format

end Format

end FieldPath
