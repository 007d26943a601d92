import FieldPath.Yaml.Token

/-!
# YAML nodes

What the tokens of a document make up. Where a document breaks off, the tree has
a node that says so, and all that was read before it is there. Anchors are kept
beside the tree, as an alias may stand inside the node that it names.
-/

namespace FieldPath

namespace Yaml

inductive Node where
  | scalar (tag : Option (List Char)) (style : ScalarStyle) (text : List Char)
  | sequence (tag : Option (List Char)) (items : List Node)
  | mapping (tag : Option (List Char)) (entries : List (Node × Node))
  | alias (anchor : Nat)
  | cut

namespace Node

def blank : Node := scalar none .plain []

mutual

/-- Whether the document does not break off in this node. -/
def isWhole : Node → Bool
  | cut => false
  | sequence _ items => allWhole items
  | mapping _ entries => allWholeEntries entries
  | _ => true

def allWhole : List Node → Bool
  | [] => true
  | n :: ns => isWhole n && allWhole ns

def allWholeEntries : List (Node × Node) → Bool
  | [] => true
  | (k, v) :: es => isWhole k && isWhole v && allWholeEntries es

end

mutual

/-- How many steps it takes to tell a node: one for a scalar or an alias, and one
for each end of a collection that the document gets to. -/
def size : Node → Nat
  | cut => 0
  | sequence _ items => 1 + sizeItems items + (if allWhole items then 1 else 0)
  | mapping _ entries => 1 + sizeEntries entries + (if allWholeEntries entries then 1 else 0)
  | _ => 1

def sizeItems : List Node → Nat
  | [] => 0
  | n :: ns => size n + sizeItems ns

def sizeEntries : List (Node × Node) → Nat
  | [] => 0
  | (k, v) :: es => size k + size v + sizeEntries es

end

end Node

/-- The anchors of a document. A name stands for the node that bore it last before
the alias. A node's number is the count of names before it that differ; where
two nodes share a number, it means the one that begins later. -/
structure Anchors where
  /-- Names and the numbers they stand for, the latest first. -/
  numbers : List (List Char × Nat)
  /-- The numbers of the anchored nodes in the order in which they begin. -/
  begun : List Nat
  /-- Anchored nodes with their places in that order. -/
  nodes : List (Nat × Node)

namespace Anchors

def empty : Anchors := ⟨[], [], []⟩

def number? (a : Anchors) (name : List Char) : Option Nat := a.numbers.lookup name

def nameCount (a : Anchors) : Nat := (a.numbers.map (·.1)).eraseDups.length

/-- Begins a node that bears a name. Its place among the anchored nodes comes back. -/
def begin (a : Anchors) (name : List Char) : Nat × Anchors :=
  let number := a.nameCount
  (a.begun.length,
    { a with numbers := (name, number) :: a.numbers, begun := a.begun ++ [number] })

def finish (a : Anchors) (place : Nat) (node : Node) : Anchors :=
  { a with nodes := (place, node) :: a.nodes }

def place? (a : Anchors) (number : Nat) : Option Nat :=
  (a.begun.zipIdx.filter (·.1 == number)).getLast?.map (·.2)

def node? (a : Anchors) (number : Nat) : Option Node := do
  let place ← a.place? number
  a.nodes.lookup place

end Anchors

end Yaml

end FieldPath
