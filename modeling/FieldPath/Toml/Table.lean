import FieldPath.Binary64.Basic
import FieldPath.Entries

/-!
# TOML tables

A table is put together from statements. Each table keeps in mind how it came to
be, because that decides what may still be added to it.
-/

namespace FieldPath

namespace Toml

inductive Origin where
  /-- Opened by a header of its own; so is the whole document. -/
  | header
  /-- Passed by a header on the way to another table. -/
  | passed
  /-- Passed by a dotted key. -/
  | dotted
  /-- Written between braces. -/
  | braces
  deriving DecidableEq

inductive Value where
  | string (text : String)
  | boolean (value : Bool)
  | integer (value : Int64)
  | float (value : Binary64)
  | moment (text : String)
  | array (items : List Value)
  /-- An array of tables, one header for each. -/
  | tables (elements : List (List (String × Value)))
  | table (origin : Origin) (entries : List (String × Value))

abbrev Table := Entries Value

structure Key where
  path : List String
  last : String

namespace Table

/-- Changes the table that names lead to. A missing table on the way is made, and of
an array of tables the last one is meant. -/
def update (made : Origin) (mayEnter : Origin → Bool)
    (change : Origin → Table → Option Table) :
    List String → Origin → Table → Option Table
  | [], origin, t => change origin t
  | name :: path, _, t =>
      match t.lookup name with
      | none => do
          let inner ← update made mayEnter change path made []
          some (Entries.insert name (.table made inner) t)
      | some (.table origin inner) =>
          if mayEnter origin then do
            let inner ← update made mayEnter change path origin inner
            some (Entries.insert name (.table origin inner) t)
          else none
      | some (.tables elements) => do
          let inner ← elements.getLast?
          let inner ← update made mayEnter change path .header inner
          some (Entries.insert name (.tables (elements.dropLast ++ [inner])) t)
      | some _ => none

/-- A header leads into every table but those between braces. -/
def updateByHeader (change : Origin → Table → Option Table) (path : List String) :
    Table → Option Table :=
  update .passed (· ≠ .braces) change path .header

/-- Adds an entry that no other has the key of. A dotted key leads only into tables
that have no header, and its last one must have been made by dotted keys. -/
def assign (origin : Origin) (key : Key) (value : Value) (t : Table) : Option Table :=
  update .dotted (fun o => o = .passed ∨ o = .dotted)
    (fun o t =>
      if (o == .dotted) == key.path.isEmpty || (t.lookup key.last).isSome then none
      else some (Entries.insert key.last value t))
    key.path origin t

/-- Opens a table. It must be new, or passed by other headers only. -/
def openTable (key : Key) : Table → Option Table :=
  updateByHeader
    (fun _ t =>
      match t.lookup key.last with
      | none => some (Entries.insert key.last (.table .header []) t)
      | some (.table .passed inner) =>
          some (Entries.insert key.last (.table .header inner) t)
      | some _ => none)
    key.path

def openElement (key : Key) : Table → Option Table :=
  updateByHeader
    (fun _ t =>
      match t.lookup key.last with
      | none => some (Entries.insert key.last (.tables [[]]) t)
      | some (.tables elements) =>
          some (Entries.insert key.last (.tables (elements ++ [[]])) t)
      | some _ => none)
    key.path

def ofPairs? (pairs : List (Key × Value)) : Option Table :=
  pairs.foldlM (fun t pair => assign .braces pair.1 pair.2 t) []

end Table

end Toml

end FieldPath
