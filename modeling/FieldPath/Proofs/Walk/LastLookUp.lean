import FieldPath.Proofs.Path.Shape
import FieldPath.Proofs.Walk.Retrace

/-!
# The last look-up

Parent, name and index of an observation are the last look-up of its branch. It gave the
value that was found, or one of the wrong shape for what comes next. Or it is what failed:
in a mapping without the key, in a sequence without the element, or in a document that is
no mapping.
-/

namespace FieldPath

/-! ## What a look-up came to -/

namespace Hop

def Gives (hop : Hop) (v : Value) : Prop :=
  match hop.index with
  | some i => ∃ items, hop.parent = some (.sequence items) ∧ hop.name = "" ∧ items[i]? = some v
  | none => ∃ entries, hop.parent = some (.mapping entries) ∧ entries.lookup hop.name = some v

/-- The look-up was made in a sequence that is too short, in an empty one for any of its
elements, or in a mapping without the key. -/
def FindsNothing (hop : Hop) : Prop :=
  match hop.index with
  | some i => ∃ items, hop.parent = some (.sequence items) ∧ hop.name = "" ∧ items.length ≤ i
  | none =>
      hop.parent = some (.sequence []) ∧ hop.name = "" ∨
        ∃ entries, hop.parent = some (.mapping entries) ∧ entries.lookup hop.name = none

theorem gives_key {entries : List (String × Value)} {name : String} {v : Value}
    (h : entries.lookup name = some v) : (key (.mapping entries) name).Gives v :=
  ⟨entries, rfl, h⟩

theorem gives_item {items : List Value} {i : Nat} {v : Value} (h : items[i]? = some v) :
    (item items (some i)).Gives v :=
  ⟨items, rfl, rfl, h⟩

end Hop

theorem Step.gives_of_mem_advance {step : Step} {v : Value} {a : Advance}
    (led : a ∈ step.advance v) : a.hop.Gives a.value := by
  cases step with
  | key name =>
      obtain ⟨w, hw, rfl⟩ := mem_advance_key_iff.mp led
      cases v with
      | mapping entries => exact Hop.gives_key hw
      | _ => cases hw
  | item index =>
      obtain ⟨i, w, -, hw, rfl⟩ := mem_advance_item_iff.mp led
      cases v with
      | sequence items => exact Hop.gives_item hw
      | _ => cases hw

namespace IsBranch

variable {hop : Hop} {v : Value} {steps : List Step} {b : Branch}

theorem gives_of_gives (h : IsBranch hop v steps b) (hgives : hop.Gives v) :
    b.hop.Gives b.value := by
  induction h with
  | done => exact hgives
  | stop => exact hgives
  | past led _ ih => exact ih (Step.gives_of_mem_advance led)

/-- The last look-up of a branch that took a step led to where it ended. -/
theorem gives (h : IsBranch hop v steps b) (htaken : b.taken ≠ []) : b.hop.Gives b.value := by
  cases h with
  | done => exact absurd rfl htaken
  | stop => exact absurd rfl htaken
  | past led onward => exact onward.gives_of_gives (Step.gives_of_mem_advance led)

end IsBranch

/-! ## What an observation tells of it -/

namespace Observation

def hop (o : Observation) : Hop := ⟨o.parent, o.name, o.index⟩

/-- What the last look-up is where no parent was found: it led to a value of the wrong
shape for the next step, the mapping has no such key, the document is no mapping, or the
sequence is empty and more than its elements is asked for. -/
inductive LacksParent (p : Path) (d : Value) (o : Observation) : Prop where
  | wrongShape {v : Value} {step : Step} (gives : o.hop.Gives v)
      (next : p.steps[o.path.depth]? = some step) (unfit : ¬step.Fits v)
  | noKey {entries : List (String × Value)} (parent : o.parent = some (.mapping entries))
      (index : o.index = none) (missing : entries.lookup o.name = none)
  | noMapping (parent : o.parent = some d) (index : o.index = none)
      (unfit : d.isMapping = false)
  | empty (parent : o.parent = some (.sequence [])) (index : o.index = none)
      (name : o.name = "") (more : o.path.depth < p.depth)

/-- Parent, name and index are a look-up, and it explains the value and the outcome. -/
structure TellsLookUp (p : Path) (d : Value) (o : Observation) : Prop where
  value_isSome_iff : o.value.isSome = true ↔ o.outcome = .found
  parent_isSome : o.parent.isSome = true
  name_of_index : o.index.isSome = true → o.name = ""
  of_found : o.outcome = .found → ∃ v, o.value = some v ∧ o.hop.Gives v
  of_elementNotFound : o.outcome = .elementNotFound → o.hop.FindsNothing
  of_parentNotFound : o.outcome = .parentNotFound → o.LacksParent p d

end Observation

namespace Hop

variable {hop : Hop} {p : Path} {d v : Value}

structure IsMade (hop : Hop) : Prop where
  parent_isSome : hop.parent.isSome = true
  name_of_index : hop.index.isSome = true → hop.name = ""

theorem isMade_key (v : Value) (name : String) : (key v name).IsMade :=
  ⟨rfl, fun hindex => by cases hindex⟩

theorem Gives.isMade (h : hop.Gives v) : hop.IsMade := by
  obtain ⟨parent, name, index⟩ := hop
  cases index with
  | none =>
      obtain ⟨entries, rfl, -⟩ := h
      exact ⟨rfl, nofun⟩
  | some i =>
      obtain ⟨items, rfl, rfl, -⟩ := h
      exact ⟨rfl, fun _ => rfl⟩

theorem FindsNothing.isMade (h : hop.FindsNothing) : hop.IsMade := by
  obtain ⟨parent, name, index⟩ := hop
  cases index with
  | none =>
      obtain ⟨rfl, -⟩ | ⟨entries, rfl, -⟩ := h
      · exact ⟨rfl, nofun⟩
      · exact ⟨rfl, nofun⟩
  | some i =>
      obtain ⟨items, rfl, rfl, -⟩ := h
      exact ⟨rfl, fun _ => rfl⟩

theorem Gives.tellsLookUp (h : hop.Gives v) (path : Path) :
    (hop.observe .found (some v) path).TellsLookUp p d where
  value_isSome_iff := iff_of_true rfl rfl
  parent_isSome := h.isMade.parent_isSome
  name_of_index := h.isMade.name_of_index
  of_found := fun _ => ⟨v, rfl, h⟩
  of_elementNotFound := nofun
  of_parentNotFound := nofun

theorem FindsNothing.tellsLookUp (h : hop.FindsNothing) (path : Path) :
    (hop.observe .elementNotFound none path).TellsLookUp p d where
  value_isSome_iff := iff_of_false nofun nofun
  parent_isSome := h.isMade.parent_isSome
  name_of_index := h.isMade.name_of_index
  of_found := nofun
  of_elementNotFound := fun _ => h
  of_parentNotFound := nofun

theorem IsMade.tellsLookUp (h : hop.IsMade) {path : Path}
    (hlacks : (hop.observe .parentNotFound none path).LacksParent p d) :
    (hop.observe .parentNotFound none path).TellsLookUp p d where
  value_isSome_iff := iff_of_false nofun nofun
  parent_isSome := h.parent_isSome
  name_of_index := h.name_of_index
  of_found := nofun
  of_elementNotFound := nofun
  of_parentNotFound := fun _ => hlacks

end Hop

/-! ## Branches and walks -/

namespace Branch

variable {b : Branch} {rest : List Step}

theorem lackOutcome_map_expand (rest : List Step) :
    lackOutcome (rest.map Step.expand) = lackOutcome rest := by
  cases rest <;> rfl

theorem observation_expand_of_noKey {name : String} {entries : List (String × Value)}
    (hleft : b.left = .key name :: rest) (hvalue : b.value = .mapping entries) :
    b.expand.observation = (Hop.key (.mapping entries) name).observe (lackOutcome rest) none
      (pathOf (b.taken ++ .key name :: rest.map Step.expand)) := by
  rw [← lackOutcome_map_expand]
  obtain ⟨taken, left, hop, value⟩ := b
  cases hleft
  cases hvalue
  cases taken <;> rfl

theorem observation_expand_of_beyond {i : Nat} {items : List Value}
    (hleft : b.left = .item (.bound i) :: rest) (hvalue : b.value = .sequence items) :
    b.expand.observation = (Hop.item items (some i)).observe .elementNotFound none
      (pathOf (b.taken ++ .item (.bound i) :: rest.map Step.expand)) := by
  obtain ⟨taken, left, hop, value⟩ := b
  cases hleft
  cases hvalue
  cases taken <;> rfl

theorem observation_expand_of_noMapping {name : String} (htaken : b.taken = [])
    (hleft : b.left = .key name :: rest) (hvalue : b.value.isMapping = false) :
    b.expand.observation = (Hop.key b.value name).observe .parentNotFound none
      (.ofSteps (some name) (rest.map Step.expand)) := by
  obtain ⟨taken, left, hop, value⟩ := b
  cases htaken
  cases hleft
  cases value with
  | mapping entries => cases hvalue
  | _ => rfl

end Branch

namespace IsBranch

variable {d : Value} {name : String} {steps : List Step} {b : Branch}

theorem depth_pathOf_taken (h : IsBranch .start d (.key name :: steps) b) (htaken : b.taken ≠ [])
    (more : List Step) :
    (Branch.pathOf (b.taken ++ more)).depth = b.taken.length + more.length := by
  rcases h.taken_or_left_eq_key_cons with ⟨rest, hkey⟩ | ⟨hnil, -⟩
  · rw [hkey, List.cons_append, Branch.pathOf, Path.depth_ofSteps]
    simp
    omega
  · exact absurd hnil htaken

section

variable {rest : List Step}

theorem tellsLookUp_of_not_fits (h : IsBranch .start d (.key name :: steps) b) {step : Step}
    (hleft : b.left = step :: rest) (hfits : ¬step.Fits b.value) :
    b.expand.observation.TellsLookUp (.ofSteps (some name) steps) d := by
  by_cases htaken : b.taken = []
  · cases h with
    | stop nowhere =>
        cases hleft
        have hmapping : d.isMapping = false := Bool.eq_false_iff.mpr hfits
        rw [Branch.observation_expand_of_noMapping rfl rfl hmapping]
        exact (Hop.isMade_key d name).tellsLookUp (.noMapping rfl rfl hmapping)
    | past led onward => cases htaken
  · have hgives := h.gives htaken
    have hdepth := h.depth_pathOf_taken htaken []
    have hnext := h.getElem?_taken_length
    rw [List.append_nil, List.length_nil, Nat.add_zero] at hdepth
    rw [hleft, List.head?_cons] at hnext
    rw [Branch.observation_expand_of_not_fits htaken hleft hfits]
    refine hgives.isMade.tellsLookUp (.wrongShape hgives ?_ hfits)
    rw [Path.steps_ofSteps]
    exact hdepth.symm ▸ hnext

theorem tellsLookUp_of_noKey {p : Path} {key : String} {entries : List (String × Value)}
    (hleft : b.left = .key key :: rest) (hvalue : b.value = .mapping entries)
    (hmissing : entries.lookup key = none) : b.expand.observation.TellsLookUp p d := by
  have hnothing : (Hop.key (.mapping entries) key).FindsNothing := .inr ⟨entries, rfl, hmissing⟩
  rw [Branch.observation_expand_of_noKey hleft hvalue]
  cases rest with
  | nil => exact hnothing.tellsLookUp _
  | cons next rest => exact hnothing.isMade.tellsLookUp (.noKey rfl rfl hmissing)

theorem tellsLookUp_of_beyond {p : Path} {i : Nat} {items : List Value}
    (hleft : b.left = .item (.bound i) :: rest) (hvalue : b.value = .sequence items)
    (hmissing : items[i]? = none) : b.expand.observation.TellsLookUp p d := by
  have hnothing : (Hop.item items (some i)).FindsNothing :=
    ⟨items, rfl, rfl, List.getElem?_eq_none_iff.mp hmissing⟩
  rw [Branch.observation_expand_of_beyond hleft hvalue]
  exact hnothing.tellsLookUp _

theorem tellsLookUp_of_empty (h : IsBranch .start d (.key name :: steps) b) {index : Index}
    (hleft : b.left = .item index :: rest) (hopen : index.isWildcard = true)
    (hvalue : b.value = .sequence []) :
    b.expand.observation.TellsLookUp (.ofSteps (some name) steps) d := by
  have hnothing : (Hop.item [] none).FindsNothing := .inl ⟨rfl, rfl⟩
  obtain ⟨first, hfirst⟩ := h.exists_taken_of_left_item hleft
  have htaken : b.taken ≠ [] := hfirst ▸ List.cons_ne_nil _ _
  rw [Branch.observation_expand_of_empty hleft hopen hvalue]
  cases rest with
  | nil => exact hnothing.tellsLookUp _
  | cons next rest =>
      obtain ⟨front, hfront, hlength⟩ := h.exists_append_left
      have hsteps := congrArg List.length hfront
      have hdepth := h.depth_pathOf_taken htaken [.item .unbound]
      rw [hleft, List.length_append, hlength] at hsteps
      refine hnothing.isMade.tellsLookUp (.empty rfl rfl rfl ?_)
      rw [Path.depth_ofSteps, ← List.length_cons, hsteps]
      simp [Hop.observe, hdepth]

end

/-- A branch that ends before a step tells which look-up was its last. -/
theorem tellsLookUp_of_left (h : IsBranch .start d (.key name :: steps) b) {step : Step}
    {rest : List Step} (hleft : b.left = step :: rest) :
    b.expand.observation.TellsLookUp (.ofSteps (some name) steps) d := by
  by_cases hfits : step.Fits b.value
  · have hnil : step.advance b.value = [] := h.advance_eq_nil hleft
    cases step with
    | key key =>
        cases hvalue : b.value with
        | mapping entries =>
            rw [hvalue] at hnil
            exact tellsLookUp_of_noKey hleft hvalue (Step.advance_key_eq_nil_iff.mp hnil)
        | _ =>
            rw [hvalue] at hfits
            cases hfits
    | item index =>
        cases hvalue : b.value with
        | sequence items =>
            rw [hvalue] at hnil
            cases index with
            | bound i =>
                have hmissing := Step.advance_item_eq_nil_iff.mp hnil i rfl
                exact tellsLookUp_of_beyond hleft hvalue hmissing
            | _ =>
                obtain rfl := (Step.advance_sequence_eq_nil_iff rfl).mp hnil
                exact h.tellsLookUp_of_empty hleft rfl hvalue
        | _ =>
            rw [hvalue] at hfits
            cases hfits
  · exact h.tellsLookUp_of_not_fits hleft hfits

theorem tellsLookUp (h : IsBranch .start d (.key name :: steps) b) :
    b.expand.observation.TellsLookUp (.ofSteps (some name) steps) d := by
  cases hleft : b.left with
  | nil =>
      have htaken : b.taken ≠ [] := by
        intro hnil
        have hlength := h.left_eq_nil_iff.mp hleft
        rw [hnil] at hlength
        cases hlength
      rw [Branch.observation_of_left_nil hleft]
      exact (h.gives htaken).tellsLookUp _
  | cons step rest => exact h.tellsLookUp_of_left hleft

end IsBranch

namespace Path

/-- Every observation tells the last look-up of its branch, and what that came to. -/
theorem walk_tells_lookUp {p : Path} (hp : p.IsShaped) (d : Value) :
    ∀ o ∈ p.walk d, o.TellsLookUp p d := by
  obtain ⟨name, steps, rfl⟩ := hp.exists_steps
  rw [walk_ofSteps, List.forall_mem_map]
  exact fun b hb => (mem_branches_iff.mp hb).tellsLookUp

/-- Of the three rows under `a`, the first has no second cell, the cells of the second are
no sequence, and the second cell of the third is an empty sequence. -/
theorem walk_tells_lookUp_nested :
    ∃ p d, p = array (some "a") (arrayAt none 1 (array none (object none (element (some "b"))))) ∧
      d = .mapping [("a", .sequence [.sequence [.null], .bool true,
        .sequence [.null, .sequence []]])] ∧
      p.IsShaped ∧
      (p.walk d).map (·.outcome) = [.elementNotFound, .parentNotFound, .parentNotFound] ∧
      ∀ o ∈ p.walk d, o.TellsLookUp p d := by
  have hp : (ofSteps (some "a") [.item .unbound, .item (.bound 1), .item .unbound,
      .key "b"]).IsShaped := by
    refine isShaped_iff.mpr (.inr ⟨"a", _, ?_, ?_, rfl⟩) <;>
      simp [IsName, Step.IsWritten, Step.unbind, isNameChar]
  exact ⟨_, _, rfl, rfl, hp, rfl, walk_tells_lookUp hp _⟩

end Path

end FieldPath
