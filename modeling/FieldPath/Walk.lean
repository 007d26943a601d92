import FieldPath.Observation

/-!
# Walking a path

A walk follows the segments of a path through a document. It branches at every
sequence that a wildcard meets, and each branch ends in one observation, in the
order of the elements. The path of an observation is the path walked, with the
elements taken as bound indices, and it is cut short where a value of the wrong
shape or an empty sequence stopped the branch.
-/

namespace FieldPath

/-- The last look-up of a branch: in which value, by which key or index. -/
structure Hop where
  parent : Option Value
  name : String
  index : Option Nat

namespace Hop

def start : Hop := ⟨none, "", none⟩

def key (parent : Value) (name : String) : Hop := ⟨some parent, name, none⟩

def item (items : List Value) (index : Option Nat) : Hop := ⟨some (.sequence items), "", index⟩

def observe (hop : Hop) (outcome : Outcome) (value : Option Value) (path : Path) :
    Observation :=
  ⟨value, hop.parent, path, hop.name, hop.index, outcome⟩

end Hop

inductive Reach where
  | noMapping
  | missing
  | value (v : Value)

namespace Segment

/-- Looks the segment's name up. A segment without one stays where it is. -/
def reach (s : Segment) (current : Value) : Reach :=
  match s.name, current with
  | none, v => .value v
  | some key, .mapping entries =>
      match entries.lookup key with
      | some v => .value v
      | none => .missing
  | some _, _ => .noMapping

def hop (s : Segment) (current : Value) (before : Hop) : Hop :=
  match s.name with
  | none => before
  | some key => .key current key

end Segment

namespace Path

def observeEnd (path : Path) (hop : Hop) : Reach → Observation
  | .noMapping => hop.observe .parentNotFound none path
  | .missing => hop.observe .elementNotFound none path
  | .value v => hop.observe .found (some v) path

/-- The observation of a branch that meets an empty sequence. An empty outer
dimension is reported against the container. -/
def observeEmpty (before : List Segment) (s : Segment) (next : Path) : Observation :=
  let slot := s.withKind (.array .unbound)
  let hop := Hop.item [] none
  match next with
  | last t =>
      let outcome := if t.kind = .element then .elementNotFound else .parentNotFound
      hop.observe outcome none (after before (link slot (last t)))
  | link t rest =>
      if t.kind = .element then
        hop.observe .elementNotFound none (after before (link slot (link t rest)))
      else
        hop.observe .parentNotFound none
          (after before (link slot (last (t.withKind .element))))

/-- The observations of the rest of a path from the value `current`, which the
segments `before` have led to. -/
def walkFrom (before : List Segment) (came : Hop) (current : Value) : Path → List Observation
  | last s => [observeEnd (after before (last s)) (s.hop current came) (s.reach current)]
  | link s next =>
      let here := after before (link s next)
      let hop := s.hop current came
      let wrongShape := [hop.observe .parentNotFound none (after before (element s.name))]
      match s.kind, s.reach current with
      | .element, reached => [observeEnd here hop reached]
      | _, .noMapping => [hop.observe .parentNotFound none here]
      | _, .missing => [hop.observe .parentNotFound none here]
      | .object, .value (.mapping entries) =>
          walkFrom (before ++ [s]) hop (.mapping entries) next
      | .array (.bound i), .value (.sequence items) =>
          match items[i]? with
          | some item => walkFrom (before ++ [s]) (.item items (some i)) item next
          | none => [(Hop.item items (some i)).observe .elementNotFound none here]
      | .array _, .value (.sequence []) => [observeEmpty before s next]
      | .array _, .value (.sequence items) =>
          items.zipIdx.flatMap fun (item, i) =>
            walkFrom (before ++ [s.withKind (.array (.bound i))]) (.item items (some i))
              item next
      | _, .value _ => wrongShape

/-- The observations of a path in a document, never none at all. -/
def walk (p : Path) (document : Value) : List Observation :=
  walkFrom [] .start document p.expand

end Path

end FieldPath
