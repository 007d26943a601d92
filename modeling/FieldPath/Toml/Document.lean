import FieldPath.Toml.Reader

/-!
# Reading TOML

A text is a list of statements: headers, and assignments to the table that the
last header opened.
-/

namespace FieldPath

namespace Toml

inductive Statement where
  | assignment (key : Key) (value : Value)
  | table (key : Key)
  | element (key : Key)

/-- Reads a statement, without the end of its line. -/
def readStatement (fuel : Nat) : Reader Statement
  | '[' :: '[' :: rest => do
      let (key, rest) ← readKey rest
      match rest with
      | ']' :: ']' :: rest => some (.element key, rest)
      | _ => none
  | '[' :: rest => do
      let (key, rest) ← readKey rest
      match rest with
      | ']' :: rest => some (.table key, rest)
      | _ => none
  | cs => (readPair (readValue fuel depthLimit) cs).map fun ((key, v), rest) =>
      (.assignment key v, rest)

def statements? : Nat → List Char → Option (List Statement)
  | 0, _ => none
  | fuel + 1, cs =>
      match skipSpace cs with
      | [] => some []
      | cs => do
          let (statement, rest) ← readStatement (cs.length + 1) cs
          let later ← statements? fuel (← endLine? rest)
          some (statement :: later)

structure Draft where
  root : Table
  current : List String

namespace Draft

def names (key : Key) : List String := key.path ++ [key.last]

def add (d : Draft) : Statement → Option Draft
  | .assignment key value => do
      let root ← Table.updateByHeader (fun o t => Table.assign o key value t) d.current d.root
      some { d with root := root }
  | .table key => (Table.openTable key d.root).map (⟨·, names key⟩)
  | .element key => (Table.openElement key d.root).map (⟨·, names key⟩)

end Draft

/-- Reads a document. A mark of byte order may come first. -/
def read? (text : String) : Option Table := do
  let cs := match text.toList with
    | '\ufeff' :: rest => rest
    | cs => cs
  let statements ← statements? (cs.length + 1) cs
  let draft ← statements.foldlM Draft.add ⟨[], []⟩
  some draft.root

end Toml

end FieldPath
