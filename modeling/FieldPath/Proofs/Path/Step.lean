import FieldPath.Path.Text
import FieldPath.Path.Token

/-!
# Paths as lists of steps

A chain whose segments fit together takes one step after the other: it looks a
key up in a mapping, or it goes to elements of a sequence. The list of its steps
and the name of its first segment say all there is to say about such a chain.
-/

namespace FieldPath

/-- One look-up: of a key in a mapping, or of elements in a sequence. -/
inductive Step where
  | key (name : String)
  | item (index : Index)
  deriving DecidableEq

def IsName (name : String) : Prop :=
  name.toList ≠ [] ∧ ∀ c ∈ name.toList, Path.isNameChar c = true

namespace Step

/-- The text of a step that another one stands before. -/
def chars : Step → List Char
  | key name => '.' :: name.toList
  | item index => index.text.toList

/-- Whether a path text can have the step in it. Positions cannot be written. -/
def IsWritten : Step → Prop
  | key name => IsName name
  | item index => index = .unbound

def expand : Step → Step
  | item .unbound => item .wildcard
  | step => step

def withIndices : List Nat → List Step → List Step
  | [], steps => steps
  | _ :: _, [] => []
  | is, key name :: rest => key name :: withIndices is rest
  | i :: is, item _ :: rest => item (.bound i) :: withIndices is rest

@[simp] theorem withIndices_key (is : List Nat) (name : String) (rest : List Step) :
    withIndices is (key name :: rest) = key name :: withIndices is rest := by
  cases is <;> simp [withIndices]

end Step

/-- The look-ups of a segment: its name, then the elements of what it leads to. -/
def Segment.steps (s : Segment) : List Step :=
  s.name.toList.map .key ++
    (match s.kind with
      | .array index => [.item index]
      | _ => [])

namespace Path

def steps (p : Path) : List Step := p.segments.flatMap Segment.steps

def ofSteps (name : Option String) : List Step → Path
  | [] => element name
  | .key next :: rest => object name (ofSteps (some next) rest)
  | .item index :: rest => link ⟨name, .array index⟩ (ofSteps none rest)

def withIndices : List Nat → Path → Path
  | [], p => p
  | i :: _, last s => if s.kind.isArray then last (s.withKind (.array (.bound i))) else last s
  | i :: is, link s next =>
      if s.kind.isArray then link (s.withKind (.array (.bound i))) (next.withIndices is)
      else link s (next.withIndices (i :: is))

theorem head_ofSteps_name (name : Option String) (steps : List Step) :
    (ofSteps name steps).head.name = name := by
  cases steps with
  | nil => rfl
  | cons step rest => cases step <;> rfl

theorem segments_ofSteps_length (name : Option String) (steps : List Step) :
    (ofSteps name steps).segments.length = steps.length + 1 := by
  induction steps generalizing name with
  | nil => rfl
  | cons step rest ih => cases step <;> simp [ofSteps, object, segments, ih]

theorem depth_ofSteps (name : Option String) (steps : List Step) :
    (ofSteps name steps).depth = steps.length + 1 :=
  segments_ofSteps_length name steps

theorem item_mem_of_mem_segments {name : Option String} {steps : List Step} {s : Segment}
    {index : Index} (hs : s ∈ (ofSteps name steps).segments) (hk : s.kind = .array index) :
    .item index ∈ steps := by
  induction steps generalizing name with
  | nil =>
      cases List.mem_singleton.mp hs
      cases hk
  | cons step rest ih =>
      cases step with
      | key next =>
          rcases List.mem_cons.mp hs with rfl | hrest
          · cases hk
          · exact List.mem_cons_of_mem _ (ih hrest)
      | item other =>
          rcases List.mem_cons.mp hs with rfl | hrest
          · cases hk
            exact List.mem_cons_self
          · exact List.mem_cons_of_mem _ (ih hrest)

theorem steps_ofSteps (name : Option String) (steps : List Step) :
    (ofSteps name steps).steps = name.toList.map Step.key ++ steps := by
  induction steps generalizing name with
  | nil => cases name <;> rfl
  | cons step rest ih =>
      have hlink (s : Segment) (next : Path) : (link s next).steps = s.steps ++ next.steps := rfl
      cases step with
      | key next => simp [ofSteps, object, hlink, ih, Segment.steps]
      | item index => simp [ofSteps, hlink, ih, Segment.steps]

theorem expand_ofSteps (name : Option String) (steps : List Step) :
    (ofSteps name steps).expand = ofSteps name (steps.map Step.expand) := by
  induction steps generalizing name with
  | nil => rfl
  | cons step rest ih =>
      have hlink (s : Segment) (next : Path) :
          (link s next).expand = link s.expand next.expand := rfl
      cases step with
      | key next => simp [ofSteps, object, hlink, ih, Step.expand, Segment.expand,
          Segment.withKind, SegmentKind.expand]
      | item index =>
          cases index <;> simp [ofSteps, hlink, ih, Step.expand, Segment.expand,
            Segment.withKind, SegmentKind.expand]

theorem withIndices_ofSteps (is : List Nat) (name : Option String) (steps : List Step) :
    (ofSteps name steps).withIndices is = ofSteps name (Step.withIndices is steps) := by
  induction steps generalizing name is with
  | nil => cases is <;> rfl
  | cons step rest ih =>
      cases is with
      | nil => simp [withIndices, Step.withIndices]
      | cons i is =>
          cases step <;>
            simp [ofSteps, object, withIndices, Step.withIndices, SegmentKind.isArray,
              Segment.withKind, ih]

theorem textAfter_ofSteps (name : Option String) (steps : List Step) :
    (ofSteps name steps).textAfter.toList =
      (name.toList.map Step.key ++ steps).flatMap Step.chars := by
  induction steps generalizing name with
  | nil =>
      cases name <;> simp [ofSteps, element, textAfter, Segment.text, SegmentKind.text, Step.chars]
  | cons step rest ih =>
      cases step <;> cases name <;>
        simp [ofSteps, object, textAfter, Segment.text, SegmentKind.text, Step.chars, ih]

/-- The text of a chain is its first name and the texts of its steps. -/
theorem text_ofSteps (name : Option String) (steps : List Step) :
    (ofSteps name steps).text.toList =
      (name.getD "").toList ++ steps.flatMap Step.chars := by
  cases steps with
  | nil => simp [ofSteps, element, text, Segment.firstText, SegmentKind.text]
  | cons step rest =>
      cases step <;>
        simp [ofSteps, object, text, Segment.firstText, SegmentKind.text, Step.chars,
          textAfter_ofSteps]

end Path

end FieldPath
