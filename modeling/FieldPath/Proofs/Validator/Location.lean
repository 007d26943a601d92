import FieldPath.Proofs.Path.Position
import FieldPath.Proofs.Validator.Verdict
import FieldPath.Proofs.Walk.Retrace

/-!
# Reported places

What is reported for a branch takes all its steps, with their positions bound, and then
some of those left. So no two branches are reported for the same place, and without
its positions every place is a first part of the declared path.
-/

namespace FieldPath

/-! ## The steps of a reported path -/

namespace Step

theorem map_unbind_withIndices (positions : List Nat) (steps : List Step) :
    (withIndices positions steps).map unbind = steps.map unbind := by
  induction steps generalizing positions with
  | nil => cases positions <;> rfl
  | cons step rest ih =>
      cases step with
      | key name => rw [withIndices_key, List.map_cons, ih, List.map_cons]
      | item index =>
          cases positions with
          | nil => rfl
          | cons i positions => exact congrArg (unbind (.item index) :: ·) (ih positions)

theorem map_unbind_expand (steps : List Step) :
    (steps.map expand).map unbind = steps.map unbind := by
  have hunbind (step : Step) : step.expand.unbind = step.unbind := by
    rcases step with name | (_ | _ | i) <;> rfl
  simp [Function.comp_def, hunbind]

end Step

namespace Branch

theorem map_unbind_kept_isPrefix (b : Branch) :
    b.kept.map Step.unbind <+: b.left.map Step.unbind := by
  rcases b.kept_eq_left_or with hkept | ⟨step, rest, hleft, ⟨htaken, hfits⟩ | ⟨index, items, rfl,
    hopen, hvalue⟩⟩
  · exact hkept ▸ List.prefix_rfl
  · rw [kept_of_not_fits hleft hfits, if_neg htaken]
    exact List.nil_prefix
  · rw [kept_of_sequence hleft hopen hvalue, hleft]
    exact ⟨rest.map Step.unbind, rfl⟩

/-- Where an element is not found, its own step is kept. -/
theorem kept_ne_nil {b : Branch} (h : b.observation.outcome = .elementNotFound) :
    b.kept ≠ [] := by
  obtain ⟨taken, left, hop, value⟩ := b
  rcases left with _ | ⟨name | index, rest⟩
  · cases taken <;> cases h
  · cases value with
    | mapping entries => exact List.cons_ne_nil _ _
    | _ =>
        cases taken with
        | nil => exact List.cons_ne_nil _ _
        | cons first taken => cases h
  · cases value with
    | sequence items => cases index <;> exact List.cons_ne_nil _ _
    | _ =>
        cases taken with
        | nil => cases index <;> exact List.cons_ne_nil _ _
        | cons first taken => cases index <;> cases h

end Branch

namespace IsBranch

variable {hop : Hop} {v : Value} {name : String} {steps : List Step} {b : Branch}

theorem map_unbind_taken_append_kept_isPrefix (h : IsBranch hop v steps b) :
    (b.taken ++ b.kept).map Step.unbind <+: steps.map Step.unbind := by
  rw [← Step.map_unbind_withIndices b.chosen steps, ← h.taken_append_left, List.map_append,
    List.map_append, List.prefix_append_right_inj]
  exact b.map_unbind_kept_isPrefix

/-- Whatever the rule, the place reported takes all the steps taken. -/
theorem exists_reportedPath (h : IsBranch hop v (.key name :: steps) b) (rule : Rule) :
    ∃ rest more, rule.reportedPath b.observation = .ofSteps (some name) rest ∧
      .key name :: rest = b.taken ++ more ∧ more <+: b.kept := by
  obtain ⟨rest, hkey, hpath⟩ := h.exists_observation_path
  by_cases hempty : (rule.isRequired && b.observation.isEmptySequence) = true
  · cases rest with
    | nil =>
        refine ⟨[], b.kept, ?_, hkey.symm, List.prefix_rfl⟩
        rw [Rule.reportedPath, if_pos hempty, hpath]
        rfl
    | cons step rest =>
        -- the container is reported, and what is dropped for it is the last step kept
        have houtcome : b.observation.outcome = .elementNotFound := by
          simp only [Observation.isEmptySequence, Bool.and_eq_true, beq_iff_eq] at hempty
          exact hempty.2.1.1.1
        refine ⟨(step :: rest).dropLast, b.kept.dropLast, ?_, ?_, List.dropLast_prefix _⟩
        · rw [Rule.reportedPath, if_pos hempty, hpath, Path.depth_ofSteps, Nat.add_sub_cancel,
            List.length_cons, Path.truncate_succ_ofSteps, Option.getD_some, List.dropLast_eq_take]
          rfl
        · rw [← List.dropLast_append_of_ne_nil (Branch.kept_ne_nil houtcome), hkey]
          rfl
  · refine ⟨rest, b.kept, ?_, hkey.symm, List.prefix_rfl⟩
    rw [Rule.reportedPath, if_neg hempty, hpath]

/-- The steps reported are the first of those given, but for the positions. -/
theorem exists_reportedPath_isPrefix (h : IsBranch hop v (.key name :: steps) b) (rule : Rule) :
    ∃ rest, rule.reportedPath b.expand.observation = .ofSteps (some name) rest ∧
      rest.map Step.unbind <+: steps.map Step.unbind := by
  have hexpand : IsBranch hop v (.key name :: steps.map Step.expand) b.expand := h.expand
  obtain ⟨rest, more, hpath, htaken, hmore⟩ := hexpand.exists_reportedPath rule
  refine ⟨rest, hpath, ?_⟩
  have hkept : (.key name :: rest) <+: b.taken ++ b.expand.kept := by
    rw [htaken]
    exact (List.prefix_append_right_inj _).mpr hmore
  have hall := (hkept.map Step.unbind).trans hexpand.map_unbind_taken_append_kept_isPrefix
  rw [List.map_cons, List.map_cons, Step.map_unbind_expand] at hall
  exact (List.cons_prefix_cons.mp hall).2

/-- The steps taken lead where the branch did, now that they can lead nowhere else. -/
theorem ends_taken (h : IsBranch hop v steps b) :
    Ends b.taken v b.chosen b.taken.length b.value := by
  have hagain : ⟨b.taken, [], b.hop, b.value⟩ ∈ branches hop v b.taken := by
    rw [h.branches_taken]
    exact List.mem_singleton_self _
  exact (mem_branches_iff.mp hagain).ends

end IsBranch

/-! ## No place twice -/

theorem branches_pairwise_diverge (hop : Hop) (v : Value) (steps : List Step) :
    (branches hop v steps).Pairwise fun a b => Step.Diverge a.taken b.taken :=
  branches_pairwise_of (fun step _ _ h => .past step h) (fun hlt _ _ => .here hlt.ne _ _)
    hop v steps

/-- One rule fails at most once for each observation. -/
theorem FieldRules.validate_singleton (p : Path) (rule : Rule) (d : Value) :
    FieldRules.validate ⟨p, [rule]⟩ d =
      ((p.walk d).filter fun o => !rule.check o).map fun o =>
        (FieldRules.mk p [rule]).violation o rule := by
  unfold validate
  induction p.walk d with
  | nil => rfl
  | cons o rest ih =>
      rw [List.flatMap_cons, ih]
      cases hcheck : rule.check o <;> simp [hcheck]

namespace Path

/-- Whatever the rule, the branches of a chain are reported for different places. -/
theorem nodup_reportedPath_text {p : Path} (hp : p.IsShaped) (rule : Rule) (d : Value) :
    ((p.walk d).map fun o => (rule.reportedPath o).text).Nodup := by
  obtain ⟨name, steps, rfl⟩ := hp.exists_steps
  rw [walk_ofSteps, List.map_map, List.Nodup, List.pairwise_map]
  refine (branches_pairwise_diverge _ _ _).imp_of_mem fun {a b} ha hb hdiverge => ?_
  obtain ⟨rest, more, hpath, htaken, -⟩ :=
    (mem_branches_iff.mp ha).expand.exists_reportedPath rule
  obtain ⟨rest', more', hpath', htaken', -⟩ :=
    (mem_branches_iff.mp hb).expand.exists_reportedPath rule
  have hrest : Step.Diverge (.key name :: rest) (.key name :: rest') := by
    rw [htaken, htaken']
    exact hdiverge.append more more'
  rw [Function.comp_apply, Function.comp_apply, hpath, hpath']
  exact hrest.of_key_cons.text_ne _

/-- No two observations of one walk are of the same place, and one rule fails for no place
twice, even where it is reported for a container. -/
theorem reported_once :
    (∀ p : Path, p.IsShaped → ∀ d, ((p.walk d).map (·.path.text)).Nodup) ∧
      ∀ text p, parse text = .ok p → ∀ rule d,
        (((Validator.empty.withPath p [rule]).validate d).map (·.path)).Nodup := by
  constructor
  · intro p hp d
    -- rules that are not required report the path of the observation
    exact nodup_reportedPath_text hp .string d
  · intro text p h rule d
    rw [FieldRules.validate_withPath, FieldRules.validate_singleton, List.map_map]
    exact (nodup_reportedPath_text (isShaped_of_parse h) rule d).sublist
      (List.filter_sublist.map _)

/-- Two of the three rows under `a` have an empty sequence of cells, and one has no cells. -/
theorem reported_once_nested :
    ∃ p q d, p = array (some "a") (object none (arrayAt (some "b") 1 (element none))) ∧
      parse "a[].b[]" = .ok q ∧
      d = .mapping [("a", .sequence [.mapping [("b", .sequence [])],
        .mapping [("b", .sequence [])], .mapping []])] ∧
      p.IsShaped ∧ ((p.walk d).map (·.path.text)).Nodup ∧
      (((Validator.empty.withPath q [.required]).validate d).map (·.path)).Nodup := by
  have hp : (ofSteps (some "a") [.item .unbound, .key "b", .item (.bound 1)]).IsShaped := by
    refine isShaped_iff.mpr (.inr ⟨"a", _, ?_, ?_, rfl⟩) <;>
      simp [IsName, Step.IsWritten, Step.unbind, isNameChar]
  have htext : IsPathText "a[].b[]" "a" [.item .unbound, .key "b", .item .unbound] := by
    simp [IsPathText, IsName, Step.IsWritten, Step.chars, isNameChar, Index.text]
  have hparse := parse_of_isPathText htext
  exact ⟨_, _, _, rfl, hparse, rfl, hp, reported_once.1 _ hp _,
    reported_once.2 _ _ hparse .required _⟩

/-! ## First parts of declared paths -/

/-- A first part of the path, with the positions bound in the steps that are resolved. -/
structure Specializes (p : Path) (d : Value) (positions : List Nat) (resolved : Nat)
    (reached : Value) (q : Path) : Prop where
  shaped : q.IsShaped
  part : ∃ part, p.truncate q.depth = some part ∧ parse (erasePositions q.text) = .ok part
  bound : ∀ index, .item index ∈ q.steps.take resolved → index.isWildcard = false
  visits : Ends (q.steps.take resolved) d positions resolved reached

theorem specializes_of_isBranch {text : String} {p : Path} (h : parse text = .ok p) {d : Value}
    {b : Branch} (hb : IsBranch .start d p.steps b) :
    Specializes p d b.chosen b.taken.length b.value b.expand.observation.path := by
  obtain ⟨name, steps, -, rfl⟩ := exists_steps_of_parse h
  have hbranch : IsBranch .start d (.key name :: steps) b := by
    rwa [steps_ofSteps] at hb
  obtain ⟨rest, hkey, hpath⟩ := hbranch.expand.exists_observation_path
  obtain ⟨rest', hpath', hfirst⟩ := hbranch.exists_reportedPath_isPrefix .string
  obtain ⟨-, rfl⟩ := ofSteps_inj (hpath.symm.trans hpath')
  have hshaped := (isShaped_of_parse h).of_isPrefix hfirst
  have htake : (ofSteps (some name) rest).steps.take b.taken.length = b.taken := by
    have hsteps : (ofSteps (some name) rest).steps = b.taken ++ b.expand.kept :=
      (steps_ofSteps _ _).trans hkey.symm
    rw [hsteps, List.take_left]
  rw [hpath]
  refine ⟨hshaped, ⟨_, truncate_depth_of_isPrefix h hfirst, parse_erasePositions hshaped⟩, ?_, ?_⟩
  · rw [htake]
    exact fun index => hbranch.isWildcard_of_mem_taken
  · rw [htake]
    exact hbranch.ends_taken

/-- Every place reported is a first part of the declared path: that of an observation
with each element visited bound, and that of a violation in its text too. -/
theorem reported_specializes :
    (∀ text p, parse text = .ok p → ∀ d, ∃ ends : List (List Nat × Nat × Value),
      (∀ positions resolved reached, (positions, resolved, reached) ∈ ends ↔
        Ends p.steps d positions resolved reached) ∧
      ends.Pairwise (fun a b => a.1 < b.1) ∧
      List.Forall₂ (fun e o => Specializes p d e.1 e.2.1 e.2.2 o.path) ends (p.walk d)) ∧
    ∀ v : Validator, (∀ f ∈ v.fields, ∃ text, parse text = .ok f.path) →
      ∀ d, ∀ x ∈ v.validate d, ∃ rest, x.field = erasePositions x.path ++ rest := by
  constructor
  · intro text p h d
    exact exists_ends_forall₂ h fun b hb => specializes_of_isBranch h hb
  · intro v hv d x hx
    obtain ⟨⟨p, rules⟩, hf, hx⟩ := List.mem_flatMap.mp hx
    obtain ⟨text, h⟩ := hv _ hf
    obtain ⟨o, ho, hx⟩ := List.mem_flatMap.mp hx
    obtain ⟨rule, -, rfl⟩ := List.mem_map.mp hx
    obtain ⟨name, steps, -, rfl⟩ := exists_steps_of_parse h
    rw [walk_ofSteps] at ho
    obtain ⟨b, hb, rfl⟩ := List.mem_map.mp ho
    obtain ⟨rest, hpath, hfirst⟩ := (mem_branches_iff.mp hb).exists_reportedPath_isPrefix rule
    rw [FieldRules.violation, hpath]
    exact exists_text_eq_append h hfirst

/-- Of the three rows under `a`, one has no sequence of cells, one an empty one, and one a
cell without `c`. -/
theorem reported_specializes_nested :
    ∃ p d, parse "a[].b[].c" = .ok p ∧
      d = .mapping [("a", .sequence [.mapping [("b", .null)], .mapping [("b", .sequence [])],
        .mapping [("b", .sequence [.mapping []])]])] ∧
      (∃ ends : List (List Nat × Nat × Value),
        (∀ positions resolved reached, (positions, resolved, reached) ∈ ends ↔
          Ends p.steps d positions resolved reached) ∧
        ends.Pairwise (fun a b => a.1 < b.1) ∧
        List.Forall₂ (fun e o => Specializes p d e.1 e.2.1 e.2.2 o.path) ends (p.walk d)) ∧
      ∀ x ∈ (Validator.empty.withPath p [.required]).validate d,
        ∃ rest, x.field = erasePositions x.path ++ rest := by
  have htext : IsPathText "a[].b[].c" "a"
      [.item .unbound, .key "b", .item .unbound, .key "c"] := by
    simp [IsPathText, IsName, Step.IsWritten, Step.chars, isNameChar, Index.text]
  have hparse := parse_of_isPathText htext
  exact ⟨_, _, hparse, rfl, reported_specializes.1 _ _ hparse _,
    reported_specializes.2 _ (List.forall_mem_singleton.mpr ⟨_, hparse⟩) _⟩

end Path

end FieldPath
