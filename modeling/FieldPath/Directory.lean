import FieldPath.FileName

/-!
# Directories

A working directory by the names and contents of the files below it. Nothing
above it can be seen.
-/

namespace FieldPath

abbrev Bytes := List UInt8

structure Directory where
  files : List (String × Bytes)

inductive Entry where
  | missing
  | directory
  | file (content : Bytes)
  deriving DecidableEq

namespace Directory

abbrev Place := List (List Char)

/-- One part of a name taken from a place, the innermost directory first. Going
above the working directory leads nowhere. -/
def goTo? (place : Place) (part : List Char) : Option Place :=
  if part = [] ∨ part = ['.'] then some place
  else if part = ['.', '.'] then
    match place with
    | [] => none
    | _ :: outer => some outer
  else some (part :: place)

def passed (place : Place) : List (List Char) → List Place
  | [] => [place]
  | part :: rest =>
      match goTo? place part with
      | some next => place :: passed next rest
      | none => [place]

def placesOf (name : String) : List Place := passed [] (FileName.parts name)

def directories (d : Directory) : List Place :=
  [] :: d.files.flatMap fun (name, _) => (placesOf name).dropLast

def fileAt? (d : Directory) (place : Place) : Option Bytes :=
  (d.files.reverse.find? fun (name, _) => (placesOf name).getLast? == some place).map (·.2)

/-- Follows the parts of a name. All but the last must lead to directories. -/
def follow (d : Directory) (place : Place) : List (List Char) → Entry
  | [] => .directory
  | part :: rest =>
      match goTo? place part with
      | none => .missing
      | some next =>
          if d.directories.contains next then d.follow next rest
          else if rest.isEmpty then
            match d.fileAt? next with
            | some content => .file content
            | none => .missing
          else .missing

/-- What a name leads to. A name from the root of all directories leads nowhere. -/
def find (d : Directory) (name : String) : Entry :=
  match FileName.parts name with
  | [] :: _ => .missing
  | parts => d.follow [] parts

end Directory

end FieldPath
