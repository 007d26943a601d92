import FieldPath.Proofs.Path.Canonical

/-!
# Chains of canonical shape

Positions cannot be written in a path text, but they do not change the shape of a
chain: it takes one step after the other whatever its indices are. Cutting such a
chain and binding one of its indices are cutting its steps and binding one of them.
-/

namespace FieldPath

/-! ## Shapes -/

def SegmentKind.unbind : SegmentKind → SegmentKind
  | array _ => array .unbound
  | kind => kind

def Segment.unbind (s : Segment) : Segment := s.withKind s.kind.unbind

def Segment.isOpen (s : Segment) : Bool :=
  match s.kind with
  | .array index => index.isWildcard
  | _ => false

namespace Step

def unbind : Step → Step
  | key name => key name
  | item _ => item .unbound

def isOpen : Step → Bool
  | key _ => false
  | item index => index.isWildcard

end Step

namespace Path

def unbind (p : Path) : Path := p.map Segment.unbind

/-- The chain is canonical but for the state of its indices. -/
def IsShaped (p : Path) : Prop := p.unbind.IsCanonical

theorem unbind_ofSteps (name : Option String) (steps : List Step) :
    (ofSteps name steps).unbind = ofSteps name (steps.map Step.unbind) := by
  induction steps generalizing name with
  | nil => rfl
  | cons step rest ih =>
      cases step with
      | key next => exact congrArg (link ⟨name, .object⟩) (ih (some next))
      | item index => exact congrArg (link ⟨name, .array .unbound⟩) (ih none)

theorem exists_steps_of_unbind {p : Path} {name : Option String} {steps : List Step}
    (h : p.unbind = ofSteps name steps) :
    ∃ original : List Step, original.map Step.unbind = steps ∧ p = ofSteps name original := by
  induction p generalizing name steps with
  | last s =>
      obtain ⟨first, kind⟩ := s
      cases steps with
      | nil =>
          cases kind <;> cases h
          exact ⟨[], rfl, rfl⟩
      | cons step rest => cases step <;> cases h
  | link s next ih =>
      obtain ⟨first, kind⟩ := s
      cases steps with
      | nil => cases h
      | cons step rest =>
          have hsegment : (Segment.mk first kind).unbind = (ofSteps name (step :: rest)).head :=
            congrArg head h
          cases step with
          | key key =>
              have hnext : next.unbind = ofSteps (some key) rest := (link.inj h).2
              obtain ⟨original, horiginal, rfl⟩ := ih hnext
              cases kind <;> cases hsegment
              exact ⟨.key key :: original, congrArg _ horiginal, rfl⟩
          | item index =>
              have hnext : next.unbind = ofSteps none rest := (link.inj h).2
              obtain ⟨original, horiginal, rfl⟩ := ih hnext
              cases kind with
              | array old =>
                  cases hsegment
                  exact ⟨.item old :: original, congrArg _ horiginal, rfl⟩
              | _ => cases hsegment

/-- A shaped chain is the element under the empty key, or it takes steps from a name
to names and to elements. -/
theorem isShaped_iff {p : Path} :
    p.IsShaped ↔ p = element (some "") ∨
      ∃ name steps, IsName name ∧ (∀ s ∈ steps, s.unbind.IsWritten) ∧
        p = ofSteps (some name) steps := by
  unfold IsShaped IsCanonical
  rw [isLinked_iff]
  constructor
  · rintro (h | ⟨name, steps, hname, hw, h⟩)
    · have hempty : p.unbind = ofSteps (some "") [] := h
      obtain ⟨original, horiginal, rfl⟩ := exists_steps_of_unbind hempty
      rw [List.map_eq_nil_iff.mp horiginal]
      exact .inl rfl
    · obtain ⟨original, rfl, rfl⟩ := exists_steps_of_unbind h
      exact .inr ⟨name, original, hname, List.forall_mem_map.mp hw, rfl⟩
  · rintro (rfl | ⟨name, steps, hname, hw, rfl⟩)
    · exact .inl rfl
    · exact .inr ⟨name, steps.map Step.unbind, hname, List.forall_mem_map.mpr hw,
        unbind_ofSteps _ _⟩

theorem IsShaped.exists_steps {p : Path} (h : p.IsShaped) :
    ∃ name steps, p = ofSteps (some name) steps := by
  rcases isShaped_iff.mp h with rfl | ⟨name, steps, -, -, rfl⟩
  · exact ⟨"", [], rfl⟩
  · exact ⟨name, steps, rfl⟩

/-! ## One step among the others -/

theorem truncate_succ_ofSteps (name : Option String) (steps : List Step) (n : Nat) :
    (ofSteps name steps).truncate (n + 1) = some (ofSteps name (steps.take n)) := by
  induction steps generalizing name n with
  | nil => simp [ofSteps, element, truncate]
  | cons step rest ih =>
      cases n with
      | zero => cases step <;> rfl
      | succ n =>
          cases step with
          | key next => exact congrArg (Option.map (link ⟨name, .object⟩)) (ih (some next) n)
          | item index => exact congrArg (Option.map (link ⟨name, .array index⟩)) (ih none n)

theorem truncate_ofSteps (name : Option String) (front : List Step) (step : Step)
    (rest : List Step) :
    (ofSteps name (front ++ step :: rest)).truncate (front.length + 1) =
      some (ofSteps name front) := by
  rw [truncate_succ_ofSteps, List.take_left]

theorem modify?_ofSteps_item (name : Option String) (front : List Step) (old new : Index)
    (rest : List Step) :
    (ofSteps name (front ++ .item old :: rest)).modify? (·.withKind (.array new)) front.length =
      some (ofSteps name (front ++ .item new :: rest)) := by
  induction front generalizing name with
  | nil => rfl
  | cons first front ih =>
      cases first with
      | key next => exact congrArg (Option.map (link ⟨name, .object⟩)) (ih (some next))
      | item index => exact congrArg (Option.map (link ⟨name, .array index⟩)) (ih none)

def bindLast (position : Nat) : Path → Path
  | last s => last (if s.kind.isArray then s.withKind (.array (.bound position)) else s)
  | link s next =>
      if next.hasArray then link s (next.bindLast position)
      else if s.kind.isArray then link (s.withKind (.array (.bound position))) next
      else link s next

theorem hasArray_ofSteps_iff {name : Option String} {steps : List Step} :
    (ofSteps name steps).hasArray = true ↔ ∃ index, .item index ∈ steps := by
  induction steps generalizing name with
  | nil => simp [ofSteps, element, hasArray, segments, SegmentKind.isArray]
  | cons step rest ih =>
      cases step with
      | key next =>
          have hnext := @ih (some next)
          simpa [ofSteps, object, hasArray, segments, SegmentKind.isArray] using hnext
      | item index =>
          have hfirst : (ofSteps name (.item index :: rest)).hasArray = true := rfl
          simp [hfirst]

theorem bindLast_ofSteps_append_item (name : Option String) (front : List Step) (index : Index)
    (position : Nat) :
    (ofSteps name (front ++ [.item index])).bindLast position =
      ofSteps name (front ++ [.item (.bound position)]) := by
  induction front generalizing name with
  | nil => rfl
  | cons step rest ih =>
      cases step with
      | key next =>
          have hnext : (ofSteps (some next) (rest ++ [.item index])).hasArray = true :=
            hasArray_ofSteps_iff.mpr ⟨index, by simp⟩
          simp [ofSteps, object, bindLast, hnext, ih]
      | item other =>
          have hnext : (ofSteps none (rest ++ [.item index])).hasArray = true :=
            hasArray_ofSteps_iff.mpr ⟨index, by simp⟩
          simp [ofSteps, bindLast, hnext, ih]

/-- The first open segment of a chain comes from the first open step. -/
theorem exists_split_of_findIdx? {name : Option String} {steps : List Step} {k : Nat}
    (h : (ofSteps name steps).segments.findIdx? Segment.isOpen = some k) :
    ∃ front index rest, steps = front ++ .item index :: rest ∧ front.length = k ∧
      index.isWildcard = true ∧ ∀ s ∈ front, s.isOpen = false := by
  induction steps generalizing name k with
  | nil => cases h
  | cons step rest ih =>
      -- after a key and after a position the search goes on in the same way
      have hpast {next : Option String} {s : Segment} (hs : s.isOpen = false)
          (hstep : step.isOpen = false)
          (hfind : (s :: (ofSteps next rest).segments).findIdx? Segment.isOpen = some k) :
          ∃ front index more, step :: rest = front ++ .item index :: more ∧ front.length = k ∧
            index.isWildcard = true ∧ ∀ s ∈ front, s.isOpen = false := by
        rw [List.findIdx?_cons, hs, if_neg Bool.false_ne_true, Option.map_eq_some_iff] at hfind
        obtain ⟨j, hj, rfl⟩ := hfind
        obtain ⟨front, index, more, rfl, rfl, hopen, hfront⟩ := ih hj
        exact ⟨step :: front, index, more, rfl, rfl, hopen,
          List.forall_mem_cons.mpr ⟨hstep, hfront⟩⟩
      cases step with
      | key next => exact hpast rfl rfl h
      | item index =>
          by_cases hopen : index.isWildcard = true
          · have hzero : k = 0 := by simpa [ofSteps, segments, List.findIdx?_cons,
              Segment.isOpen, hopen] using h.symm
            exact ⟨[], index, rest, rfl, hzero.symm, hopen, by simp⟩
          · have hclosed : index.isWildcard = false := Bool.eq_false_iff.mpr hopen
            have hsegment : (Segment.mk name (.array index)).isOpen = false := hclosed
            exact hpast hsegment hclosed h

end Path

end FieldPath
