import FieldPath.Path.Value
import FieldPath.Proofs.Path.Reading
import Mathlib.Data.List.Chain

/-!
# Canonical chains

A canonical chain is one that reads as a path text says it: keys after objects,
elements after arrays, and positions nowhere. Reading and writing are inverse to
each other between path texts and canonical chains, and so they are between
strings in documents and canonical chains.
-/

namespace FieldPath

def Segment.Precedes (s next : Segment) : Prop :=
  s.kind = .object ∧ next.name ≠ none ∨ s.kind = .array .unbound ∧ next.name = none

namespace Path

/-- Each segment but the last leads to the next one, and the last is meant itself. -/
structure IsLinked (p : Path) : Prop where
  head_named : p.head.name ≠ none
  names : ∀ s ∈ p.segments, ∀ name ∈ s.name, IsName name
  links : p.segments.IsChain Segment.Precedes
  tail_element : p.tail.head.kind = .element

/-- The element under the empty key, or a chain whose segments fit together. -/
def IsCanonical (p : Path) : Prop := p = element (some "") ∨ p.IsLinked

theorem segments_eq_cons (p : Path) : ∃ rest, p.segments = p.head :: rest := by
  cases p with
  | last s => exact ⟨[], rfl⟩
  | link s next => exact ⟨next.segments, rfl⟩

theorem isChain_segments_link_iff {s : Segment} {next : Path} :
    (link s next).segments.IsChain Segment.Precedes ↔
      s.Precedes next.head ∧ next.segments.IsChain Segment.Precedes := by
  obtain ⟨rest, hrest⟩ := next.segments_eq_cons
  rw [segments, hrest, List.isChain_cons_cons]

/-- The chain of written steps fits together, whatever its first name. -/
theorem isChain_segments_ofSteps (name : Option String) {steps : List Step}
    (hw : ∀ s ∈ steps, s.IsWritten) :
    (ofSteps name steps).segments.IsChain Segment.Precedes := by
  induction steps generalizing name with
  | nil => exact List.isChain_singleton _
  | cons step rest ih =>
      obtain ⟨hs, hrest⟩ := List.forall_mem_cons.mp hw
      cases step with
      | key next =>
          refine isChain_segments_link_iff.mpr ⟨.inl ⟨rfl, ?_⟩, ih (some next) hrest⟩
          simp [head_ofSteps_name]
      | item index =>
          cases hs
          refine isChain_segments_link_iff.mpr ⟨.inr ⟨rfl, ?_⟩, ih none hrest⟩
          exact head_ofSteps_name none rest

theorem isName_of_mem_ofSteps {name : Option String} {steps : List Step}
    (hn : ∀ n ∈ name, IsName n) (hw : ∀ s ∈ steps, s.IsWritten) :
    ∀ s ∈ (ofSteps name steps).segments, ∀ n ∈ s.name, IsName n := by
  induction steps generalizing name with
  | nil =>
      intro s hs
      cases List.mem_singleton.mp hs
      exact hn
  | cons step rest ih =>
      obtain ⟨hs, hrest⟩ := List.forall_mem_cons.mp hw
      cases step with
      | key next =>
          refine List.forall_mem_cons.mpr ⟨hn, ih ?_ hrest⟩
          rintro n ⟨⟩
          exact hs
      | item index =>
          refine List.forall_mem_cons.mpr ⟨hn, ih ?_ hrest⟩
          rintro n ⟨⟩

theorem tail_ofSteps_kind (name : Option String) (steps : List Step) :
    (ofSteps name steps).tail.head.kind = .element := by
  induction steps generalizing name with
  | nil => rfl
  | cons step rest ih =>
      cases step with
      | key next => exact ih (some next)
      | item index => exact ih none

/-- A chain whose segments fit together takes written steps. -/
theorem exists_steps_of_isChain {p : Path} (hn : ∀ s ∈ p.segments, ∀ n ∈ s.name, IsName n)
    (hc : p.segments.IsChain Segment.Precedes) (ht : p.tail.head.kind = .element) :
    ∃ steps : List Step, (∀ s ∈ steps, s.IsWritten) ∧ p = ofSteps p.head.name steps := by
  induction p with
  | last s =>
      cases s with
      | mk name kind =>
          cases ht
          exact ⟨[], by simp, rfl⟩
  | link s next ih =>
      obtain ⟨hs, hchain⟩ := isChain_segments_link_iff.mp hc
      have hnext : ∀ t ∈ next.segments, ∀ n ∈ t.name, IsName n := fun t h =>
        hn t (List.mem_cons_of_mem s h)
      obtain ⟨steps, hw, hsteps⟩ := ih hnext hchain ht
      obtain ⟨name, kind⟩ := s
      rcases hs with ⟨hkind, hname⟩ | ⟨hkind, hname⟩
      · obtain ⟨k, hk⟩ := Option.ne_none_iff_exists'.mp hname
        have hkey : IsName k := by
          obtain ⟨rest, hrest⟩ := next.segments_eq_cons
          exact hnext next.head (by simp [hrest]) k hk
        cases hkind
        rw [hk] at hsteps
        exact ⟨.key k :: steps, List.forall_mem_cons.mpr ⟨hkey, hw⟩, congrArg _ hsteps⟩
      · cases hkind
        rw [hname] at hsteps
        exact ⟨.item .unbound :: steps, List.forall_mem_cons.mpr ⟨rfl, hw⟩, congrArg _ hsteps⟩

theorem isLinked_iff {p : Path} :
    p.IsLinked ↔ ∃ name steps, IsName name ∧ (∀ s ∈ steps, s.IsWritten) ∧
      p = ofSteps (some name) steps := by
  constructor
  · intro h
    obtain ⟨steps, hw, hsteps⟩ := exists_steps_of_isChain h.names h.links h.tail_element
    obtain ⟨name, hname⟩ := Option.ne_none_iff_exists'.mp h.head_named
    obtain ⟨rest, hrest⟩ := p.segments_eq_cons
    refine ⟨name, steps, h.names p.head (by simp [hrest]) name hname, hw, ?_⟩
    rwa [← hname]
  · rintro ⟨name, steps, hname, hw, rfl⟩
    refine ⟨?_, isName_of_mem_ofSteps ?_ hw, isChain_segments_ofSteps _ hw, tail_ofSteps_kind _ _⟩
    · simp [head_ofSteps_name]
    · rintro n ⟨⟩
      exact hname

/-- Reading succeeds with a chain exactly if the chain is canonical and the text
is its own. -/
theorem parse_eq_ok_iff_text {text : String} {p : Path} :
    parse text = .ok p ↔ p.IsCanonical ∧ p.text = text := by
  rw [parse_eq_ok_iff]
  constructor
  · rintro (⟨rfl, rfl⟩ | ⟨name, steps, ⟨hname, hw, htext⟩, rfl⟩)
    · exact ⟨.inl rfl, rfl⟩
    · refine ⟨.inr (isLinked_iff.mpr ⟨name, steps, hname, hw, rfl⟩), ?_⟩
      rw [← String.toList_inj, text_ofSteps, htext]
      rfl
  · rintro ⟨rfl | hlinked, rfl⟩
    · exact .inl ⟨rfl, rfl⟩
    · obtain ⟨name, steps, hname, hw, rfl⟩ := isLinked_iff.mp hlinked
      exact .inr ⟨name, steps, ⟨hname, hw, text_ofSteps _ _⟩, rfl⟩

/-- Writing a canonical chain and reading a path text are inverse to each other,
for texts and for the strings that stand for them in documents. -/
theorem parse_text_inverse (p : Path) :
    (∀ text, parse text = .ok p ↔ p.IsCanonical ∧ p.text = text) ∧
      ∀ value, ofValue value = .ok p ↔ p.IsCanonical ∧ p.toValue = value := by
  refine ⟨fun text => parse_eq_ok_iff_text, fun value => ?_⟩
  cases value with
  | string text =>
      have hvalue : ofValue (.string text) = .ok p ↔ parse text = .ok p := by
        cases h : parse text <;> simp [ofValue, h, Except.mapError]
      rw [hvalue, parse_eq_ok_iff_text, toValue, Value.string.injEq]
  | _ => simp [ofValue, toValue]

end Path

end FieldPath
