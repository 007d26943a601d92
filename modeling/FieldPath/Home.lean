import FieldPath.Document
import FieldPath.Settings

/-!
# The user's home

Where the file of settings belongs, there may be a file, a directory or nothing;
and a plain file in place of the home directory bars the way to it. A change that
cannot be made leaves everything as it was, but for directories made on the way.
-/

namespace FieldPath

inductive Home where
  | absent
  /-- The directory that the file belongs in is there, and empty. -/
  | empty
  | file (content : Bytes)
  | directory
  | barred
  deriving DecidableEq

namespace Home

/-- Makes the directories that lead to the file, unless the way is barred. -/
def prepared : Home → Home
  | absent => empty
  | h => h

def put? (content : Bytes) : Home → Option Home
  | empty => some (file content)
  | file _ => some (file content)
  | _ => none

def write? (content : Bytes) (h : Home) : Option Home := h.prepared.put? content

def makeDirectory? (h : Home) : Option Home :=
  match h.prepared with
  | empty => some directory
  | directory => some directory
  | _ => none

def text? : Home → Option String
  | file content => textOfBytes? content
  | _ => none

/-- The settings of the file, or the default ones if they cannot be read. -/
def load (h : Home) : Settings := (h.text?.bind Settings.ofText?).getD .default

def save? (s : Settings) (h : Home) : Option Home := h.write? s.text.toUTF8.data.toList

end Home

end FieldPath
