import FieldPath.Proofs.Path.Reading
import FieldPath.Proofs.Walk.Report
import Mathlib.Data.List.Forall2

/-!
# Outcomes of walks

A walk of a parsed path reports every choice of elements once, in the
lexicographic order of their positions. What is found is what the steps lead to,
and what is not found is told apart by the last step: whether that step alone
failed, on a value of the shape it asks for.
-/

namespace FieldPath

/-! ## Found values -/

namespace Step

/-- Follows steps through a value, an element of the given positions at each
pair of brackets. -/
def follow : List Step → List Nat → Value → Option Value
  | [], [], v => some v
  | key name :: rest, is, v => (v.get? name).bind (follow rest is)
  | item _ :: rest, i :: is, v => (v.at? i).bind (follow rest is)
  | _, _, _ => none

/-- Whether this step alone can fail on `v`: the shape is right, but a key is
missing from the mapping, or the sequence is empty. -/
def FindsNothing (v : Value) : Step → Prop
  | key name => v.isMapping = true ∧ v.get? name = none
  | item _ => v = .sequence []

theorem position?_of_isWritten {step : Step} (h : step.IsWritten) : step.position? = none := by
  cases step with
  | key name => rfl
  | item index =>
      cases h
      rfl

theorem admits_of_position? {index : Index} (h : (item index).position? = none) (i : Nat) :
    index.Admits i := by
  cases index with
  | bound j => cases h
  | _ => trivial

/-- A step that no position binds leads nowhere in an empty sequence only. -/
theorem advance_sequence_eq_nil_iff {index : Index} (h : (item index).position? = none)
    {items : List Value} : (item index).advance (.sequence items) = [] ↔ items = [] := by
  rw [advance_item_eq_nil_iff]
  constructor
  · intro hnone
    have hzero := hnone 0 (admits_of_position? h 0)
    cases items with
    | nil => rfl
    | cons v rest => cases hzero
  · rintro rfl i -
    rfl

/-- Following all steps is a branch that takes all of them. -/
theorem follow_eq_some_iff {steps : List Step} (hp : ∀ s ∈ steps, s.position? = none)
    {is : List Nat} {v reached : Value} :
    follow steps is v = some reached ↔ Ends steps v is steps.length reached := by
  induction steps generalizing is v with
  | nil =>
      cases is with
      | nil =>
          constructor
          · rintro ⟨⟩
            exact .done _
          · rintro ⟨⟩
            rfl
      | cons i is =>
          constructor
          · rintro ⟨⟩
          · rintro ⟨⟩
  | cons step rest ih =>
      obtain ⟨hstep, hrest⟩ := List.forall_mem_cons.mp hp
      cases step with
      | key name =>
          rw [follow, Option.bind_eq_some_iff]
          constructor
          · rintro ⟨w, hw, hfollow⟩
            exact .key hw ((ih hrest).mp hfollow)
          · intro h
            cases h with
            | key found ends => exact ⟨_, found, (ih hrest).mpr ends⟩
      | item index =>
          cases is with
          | nil =>
              constructor
              · intro h
                cases h
              · intro h
                cases h
          | cons i is =>
              rw [follow, Option.bind_eq_some_iff]
              constructor
              · rintro ⟨w, hw, hfollow⟩
                exact .item (admits_of_position? hstep i) hw ((ih hrest).mp hfollow)
              · intro h
                cases h with
                | item admitted found ends => exact ⟨_, found, (ih hrest).mpr ends⟩

end Step

/-! ## The outcome of a branch -/

namespace Branch

theorem report_outcome_eq_found_iff (path : List Step → Path) {b : Branch} :
    (b.report path).outcome = .found ↔ b.left = [] := by
  obtain ⟨taken, left, hop, value⟩ := b
  rcases left with _ | ⟨step, rest⟩
  · exact iff_of_true rfl rfl
  refine iff_of_false ?_ (List.cons_ne_nil step rest)
  rcases step with name | (_ | _ | i) <;> cases value <;> cases rest <;> exact nofun

/-- Before another step, a step that no position binds can only find no parent. -/
theorem report_outcome_of_left_cons_cons (path : List Step → Path) {b : Branch}
    {step next : Step} {rest : List Step} (hleft : b.left = step :: next :: rest)
    (hstep : step.position? = none) : (b.report path).outcome = .parentNotFound := by
  obtain ⟨taken, left, hop, value⟩ := b
  cases hleft
  rcases step with name | (_ | _ | i)
  · cases value <;> rfl
  · cases value <;> rfl
  · cases value <;> rfl
  · cases hstep

/-- The last step finds no element exactly if it alone fails. -/
theorem report_outcome_of_left_singleton (path : List Step → Path) {b : Branch} {step : Step}
    (hleft : b.left = [step]) (hstep : step.position? = none)
    (hnil : step.advance b.value = []) :
    (b.report path).outcome = .elementNotFound ↔ step.FindsNothing b.value := by
  obtain ⟨taken, left, hop, value⟩ := b
  cases hleft
  rcases step with name | index
  · have hget := Step.advance_key_eq_nil_iff.mp hnil
    cases value with
    | mapping entries => exact iff_of_true rfl ⟨rfl, hget⟩
    | _ => exact iff_of_false nofun nofun
  · cases value with
    | sequence items =>
        have hat := Step.advance_item_eq_nil_iff.mp hnil 0 (Step.admits_of_position? hstep 0)
        cases items with
        | nil =>
            cases index with
            | bound i => cases hstep
            | _ => exact iff_of_true rfl rfl
        | cons v rest => cases hat
    | _ => cases index <;> exact iff_of_false nofun nofun

/-- A branch that no bound position ends is told apart by its last step. -/
theorem report_outcome_eq_elementNotFound_iff (path : List Step → Path) {b : Branch}
    (hp : ∀ s ∈ b.left, s.position? = none)
    (hstop : ∀ step rest, b.left = step :: rest → step.advance b.value = []) :
    (b.report path).outcome = .elementNotFound ↔
      ∃ step, b.left = [step] ∧ step.FindsNothing b.value := by
  match hleft : b.left with
  | [] =>
      rw [(report_outcome_eq_found_iff path).mpr hleft]
      exact iff_of_false nofun (by rintro ⟨step, hstep, -⟩; cases hstep)
  | [step] =>
      have hstep := hp step (by simp [hleft])
      rw [report_outcome_of_left_singleton path hleft hstep (hstop step [] hleft)]
      simp
  | step :: next :: rest =>
      have hstep := hp step (by simp [hleft])
      rw [report_outcome_of_left_cons_cons path hleft hstep]
      exact iff_of_false nofun (by rintro ⟨s, hs, -⟩; cases hs)

/-- The root and the state of the indices left make no difference to the outcome. -/
theorem observation_expand_outcome (b : Branch) :
    b.expand.observation.outcome = (b.report pathOf).outcome := by
  obtain ⟨taken, left, hop, value⟩ := b
  rcases left with _ | ⟨name | (_ | _ | i), rest⟩
  · cases taken <;> rfl
  · cases taken <;> cases value <;> cases rest <;> rfl
  · cases taken <;> cases value <;> cases rest <;> rfl
  · cases taken <;> cases value <;> cases rest <;> rfl
  · cases taken <;> cases value <;> cases rest <;> rfl

theorem isFound_observation (b : Branch) : b.expand.observation.isFound = b.left.isEmpty := by
  rw [Bool.eq_iff_iff, Observation.isFound, beq_iff_eq, b.observation_expand_outcome,
    report_outcome_eq_found_iff, List.isEmpty_iff]

theorem observation_of_left_nil {b : Branch} (h : b.left = []) :
    b.expand.observation = b.hop.observe .found (some b.value) (pathOf b.taken) := by
  obtain ⟨taken, left, hop, value⟩ := b
  cases h
  cases taken <;> rfl

end Branch

/-! ## Walks of parsed paths -/

namespace Path

def LacksElement (p : Path) (resolved : Nat) (reached : Value) : Prop :=
  resolved + 1 = p.depth ∧ ∃ step ∈ p.steps.getLast?, step.FindsNothing reached

structure ReportedAs (p : Path) (resolved : Nat) (reached : Value) (outcome : Outcome) : Prop where
  found_iff : outcome = .found ↔ resolved = p.depth
  elementNotFound_iff : outcome = .elementNotFound ↔ p.LacksElement resolved reached
  parentNotFound_iff : outcome = .parentNotFound ↔
    resolved < p.depth ∧ ¬p.LacksElement resolved reached

structure FoundAt (p : Path) (d : Value) (positions : List Nat) (o : Observation) : Prop where
  value_eq : o.value = Step.follow p.steps positions d
  path_eq : o.path = p.withIndices positions
  all_bound : ∀ s ∈ o.path.segments, ∀ index, s.kind = .array index → index.isWildcard = false

section

variable {text : String} {p : Path}

theorem length_steps_of_parse (h : parse text = .ok p) : p.steps.length = p.depth := by
  obtain ⟨name, steps, -, rfl⟩ := exists_steps_of_parse h
  rw [steps_ofSteps, depth_ofSteps]
  rfl

theorem position?_of_mem_steps (h : parse text = .ok p) : ∀ s ∈ p.steps, s.position? = none := by
  obtain ⟨name, steps, hw, rfl⟩ := exists_steps_of_parse h
  rw [steps_ofSteps]
  exact List.forall_mem_cons.mpr ⟨rfl, fun s hs => Step.position?_of_isWritten (hw s hs)⟩

theorem walk_eq_map_branches (h : parse text = .ok p) (d : Value) :
    p.walk d = (branches .start d p.steps).map fun b => b.expand.observation := by
  obtain ⟨name, steps, -, rfl⟩ := exists_steps_of_parse h
  rw [walk_ofSteps, steps_ofSteps]
  rfl

theorem reportedAs_of_isBranch (h : parse text = .ok p) {d : Value} {b : Branch}
    (hb : IsBranch .start d p.steps b) :
    ReportedAs p b.taken.length b.value b.expand.observation.outcome := by
  obtain ⟨front, hfront, hlength⟩ := hb.exists_append_left
  have hdepth : p.depth = b.taken.length + b.left.length := by
    rw [← length_steps_of_parse h, hfront, List.length_append, hlength]
  have hposition : ∀ s ∈ b.left, s.position? = none := fun s hs =>
    position?_of_mem_steps h s (by rw [hfront]; exact List.mem_append_right front hs)
  have hstop (step : Step) (rest : List Step) (hleft : b.left = step :: rest) :=
    hb.advance_eq_nil hleft
  have hlast : (∃ step, b.left = [step] ∧ step.FindsNothing b.value) ↔
      p.LacksElement b.taken.length b.value := by
    constructor
    · rintro ⟨step, hleft, hnothing⟩
      exact ⟨by simp [hdepth, hleft], step, by simp [hfront, hleft], hnothing⟩
    · rintro ⟨hone, step, hlast, hnothing⟩
      obtain ⟨last, hleft⟩ := List.length_eq_one_iff.mp (by omega : b.left.length = 1)
      have heq : last = step := by simpa [hfront, hleft] using hlast
      exact ⟨last, hleft, heq ▸ hnothing⟩
  have hfound : b.expand.observation.outcome = .found ↔ b.taken.length = p.depth := by
    rw [b.observation_expand_outcome, Branch.report_outcome_eq_found_iff, hdepth,
      ← List.length_eq_zero_iff]
    omega
  have helement : b.expand.observation.outcome = .elementNotFound ↔
      p.LacksElement b.taken.length b.value := by
    rw [b.observation_expand_outcome,
      Branch.report_outcome_eq_elementNotFound_iff _ hposition hstop, hlast]
  refine ⟨hfound, helement, ?_⟩
  have hparent (outcome : Outcome) : outcome = .parentNotFound ↔
      ¬outcome = .found ∧ ¬outcome = .elementNotFound := by
    cases outcome <;> simp
  rw [hparent, hfound, helement]
  exact and_congr_left' (by omega)

/-- A chain that takes the steps taken has no wildcards. -/
theorem isWildcard_of_mem_segments {hop : Hop} {v : Value} {steps : List Step} {b : Branch}
    (hb : IsBranch hop v steps b) {name : String} {front : List Step}
    (htaken : b.taken = .key name :: front) :
    ∀ s ∈ (ofSteps (some name) front).segments, ∀ index, s.kind = .array index →
      index.isWildcard = false := by
  intro s hs index hk
  apply hb.isWildcard_of_mem_taken
  rw [htaken]
  exact List.mem_cons_of_mem _ (item_mem_of_mem_segments hs hk)

theorem foundAt_of_isBranch (h : parse text = .ok p) {d : Value} {b : Branch}
    (hb : IsBranch .start d p.steps b) (hleft : b.left = []) :
    FoundAt p d b.chosen b.expand.observation := by
  have hposition := position?_of_mem_steps h
  have hends := hb.ends
  rw [hb.left_eq_nil_iff.mp hleft] at hends
  have htaken := hb.taken_append_left
  obtain ⟨name, steps, -, rfl⟩ := exists_steps_of_parse h
  have hsteps : (ofSteps (some name) steps).steps = .key name :: steps := steps_ofSteps _ _
  rw [hleft, List.append_nil, hsteps, Step.withIndices_key] at htaken
  have hpath : Branch.pathOf b.taken = (ofSteps (some name) steps).withIndices b.chosen := by
    rw [htaken, withIndices_ofSteps]
    rfl
  rw [Branch.observation_of_left_nil hleft, hpath]
  refine ⟨((Step.follow_eq_some_iff hposition).mpr hends).symm, rfl, ?_⟩
  rw [Hop.observe, withIndices_ofSteps]
  exact isWildcard_of_mem_segments hb htaken

/-- The values that a walk finds are those that the steps of its path lead to, one for
each choice of elements and in lexicographic order of the positions. -/
theorem walk_finds_followed (h : parse text = .ok p) (d : Value) :
    ∃ choices : List (List Nat),
      (∀ positions, positions ∈ choices ↔ ∃ v, Step.follow p.steps positions d = some v) ∧
      choices.Pairwise (· < ·) ∧
      List.Forall₂ (FoundAt p d) choices ((p.walk d).filter Observation.isFound) := by
  have hfilter : (p.walk d).filter Observation.isFound =
      ((branches .start d p.steps).filter (·.left.isEmpty)).map fun b => b.expand.observation := by
    rw [walk_eq_map_branches h, List.filter_map]
    simp only [Function.comp_def, Branch.isFound_observation]
  refine ⟨((branches .start d p.steps).filter (·.left.isEmpty)).map Branch.chosen, ?_, ?_, ?_⟩
  · intro positions
    simp only [Step.follow_eq_some_iff (position?_of_mem_steps h), List.mem_map, List.mem_filter,
      List.isEmpty_iff, mem_branches_iff]
    constructor
    · rintro ⟨b, ⟨hb, hleft⟩, rfl⟩
      exact ⟨b.value, hb.left_eq_nil_iff.mp hleft ▸ hb.ends⟩
    · rintro ⟨v, hends⟩
      obtain ⟨b, hb, rfl, hlength, rfl⟩ := hends.exists_branch .start
      exact ⟨b, ⟨hb, hb.left_eq_nil_iff.mpr hlength⟩, rfl⟩
  · rw [List.pairwise_map]
    exact (branches_pairwise _ _ _).filter _
  · rw [hfilter, List.forall₂_map_left_iff, List.forall₂_map_right_iff, List.forall₂_same]
    intro b hb
    obtain ⟨hmem, hleft⟩ := List.mem_filter.mp hb
    exact foundAt_of_isBranch h (mem_branches_iff.mp hmem) (List.isEmpty_iff.mp hleft)

/-- Of the two rows under `a`, only the second has a cell. -/
theorem walk_finds_followed_nested :
    ∃ p d, parse "a[].b[]" = .ok p ∧
      d = .mapping [("a", .sequence [.null, .mapping [("b", .sequence [.bool true])]])] ∧
      ∃ choices : List (List Nat),
        (∀ positions, positions ∈ choices ↔ ∃ v, Step.follow p.steps positions d = some v) ∧
        choices.Pairwise (· < ·) ∧
        List.Forall₂ (FoundAt p d) choices ((p.walk d).filter Observation.isFound) := by
  have htext : IsPathText "a[].b[]" "a" [.item .unbound, .key "b", .item .unbound] := by
    simp [IsPathText, IsName, Step.IsWritten, Step.chars, isNameChar, Index.text]
  have hparse := parse_of_isPathText htext
  exact ⟨_, _, hparse, rfl, walk_finds_followed hparse _⟩

/-- A walk reports each way to choose elements once, in lexicographic order of the
positions, as its end tells. -/
theorem walk_reports_ends (h : parse text = .ok p) (d : Value) :
    p.steps.length = p.depth ∧ p.walk d ≠ [] ∧
      ∃ ends : List (List Nat × Nat × Value),
        (∀ positions resolved reached, (positions, resolved, reached) ∈ ends ↔
          Ends p.steps d positions resolved reached) ∧
        ends.Pairwise (fun a b => a.1 < b.1) ∧
        List.Forall₂ (fun e o => ReportedAs p e.2.1 e.2.2 o.outcome) ends (p.walk d) := by
  have hwalk := walk_eq_map_branches h d
  refine ⟨length_steps_of_parse h, ?_, (branches .start d p.steps).map fun b =>
    (b.chosen, b.taken.length, b.value), ?_, ?_, ?_⟩
  · rw [hwalk]
    exact fun hnil => branches_ne_nil _ _ _ (List.map_eq_nil_iff.mp hnil)
  · intro positions resolved reached
    rw [List.mem_map]
    constructor
    · rintro ⟨b, hb, heq⟩
      cases heq
      exact (mem_branches_iff.mp hb).ends
    · intro hends
      obtain ⟨b, hb, rfl, rfl, rfl⟩ := hends.exists_branch .start
      exact ⟨b, mem_branches_iff.mpr hb, rfl⟩
  · rw [List.pairwise_map]
    exact branches_pairwise _ _ _
  · rw [hwalk, List.forall₂_map_left_iff, List.forall₂_map_right_iff, List.forall₂_same]
    exact fun b hb => reportedAs_of_isBranch h (mem_branches_iff.mp hb)

/-- Of the two rows under `a`, the first can have no cells and the second has none. -/
theorem walk_reports_ends_nested :
    ∃ p d, parse "a[].b[]" = .ok p ∧
      d = .mapping [("a", .sequence [.null, .mapping [("b", .sequence [])]])] ∧
      p.steps.length = p.depth ∧ p.walk d ≠ [] ∧
        ∃ ends : List (List Nat × Nat × Value),
          (∀ positions resolved reached, (positions, resolved, reached) ∈ ends ↔
            Ends p.steps d positions resolved reached) ∧
          ends.Pairwise (fun a b => a.1 < b.1) ∧
          List.Forall₂ (fun e o => ReportedAs p e.2.1 e.2.2 o.outcome) ends (p.walk d) := by
  have htext : IsPathText "a[].b[]" "a" [.item .unbound, .key "b", .item .unbound] := by
    simp [IsPathText, IsName, Step.IsWritten, Step.chars, isNameChar, Index.text]
  have hparse := parse_of_isPathText htext
  exact ⟨_, _, hparse, rfl, walk_reports_ends hparse _⟩

end

end Path

end FieldPath
