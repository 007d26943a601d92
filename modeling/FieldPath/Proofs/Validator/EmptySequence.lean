import FieldPath.Proofs.Validator.Verdict
import FieldPath.Proofs.Walk.Repair

/-!
# Required sequences that are empty

A required element of an empty sequence is reported for the sequence, at the place where
it is found. Nothing marks such an observation: that the path ends in brackets and that no
element was looked up tells it apart from all others. Every other failure is reported for
the place of its observation.
-/

namespace FieldPath

namespace Path

/-! ## The ends of chains -/

theorem tail_ofSteps_append (name : Option String) (front : List Step) (step : Step) :
    (ofSteps name (front ++ [step])).tail = (ofSteps none [step]).tail := by
  induction front generalizing name with
  | nil => cases step <;> rfl
  | cons first front ih =>
      cases first with
      | key next => exact ih (some next)
      | item index => exact ih none

theorem lastParent?_link_ofSteps (s : Segment) (name : Option String) {steps : List Step}
    (hne : steps ≠ []) :
    (link s (ofSteps name steps)).lastParent? = (ofSteps name steps).lastParent? := by
  cases steps with
  | nil => exact absurd rfl hne
  | cons step rest => cases step <;> rfl

theorem lastParent?_ofSteps_append_item (name : Option String) (front : List Step)
    (index : Index) :
    ∃ parent, (ofSteps name (front ++ [.item index])).lastParent? = some parent ∧
      parent.head.kind.isArray = true := by
  induction front generalizing name with
  | nil => exact ⟨_, rfl, rfl⟩
  | cons first front ih =>
      have hne : front ++ [.item index] ≠ [] := by simp
      cases first with
      | key next =>
          obtain ⟨parent, hparent, harray⟩ := ih (some next)
          exact ⟨parent, (lastParent?_link_ofSteps _ _ hne).trans hparent, harray⟩
      | item other =>
          obtain ⟨parent, hparent, harray⟩ := ih none
          exact ⟨parent, (lastParent?_link_ofSteps _ _ hne).trans hparent, harray⟩

theorem tail_pathOf_append_key (taken : List Step) (key : String) :
    (Branch.pathOf (taken ++ [.key key])).tail.head.name = some key := by
  cases taken with
  | nil => rfl
  | cons first front =>
      have htail (name : Option String) :
          (ofSteps name (front ++ [.key key])).tail.head.name = some key :=
        congrArg (·.head.name) (tail_ofSteps_append name front (.key key))
      cases first with
      | key name => exact htail (some name)
      | item index => exact htail none

end Path

/-! ## Observations of empty sequences -/

def Observation.FindsEmpty (o : Observation) : Prop :=
  o.outcome = .elementNotFound ∧ o.parent = some (.sequence [])

namespace IsBranch

variable {d : Value} {name : String} {steps : List Step} {b : Branch}

/-- What tells an empty sequence apart: its path takes one step more than the branch, which
is to an element. -/
theorem exists_path_of_findsEmpty (h : IsBranch .start d (.key name :: steps) b)
    (hopen : ∀ s ∈ b.left, s.position? = none) (hempty : b.expand.observation.FindsEmpty) :
    ∃ front, b.taken = .key name :: front ∧ b.value = .sequence [] ∧
      b.expand.observation.path = .ofSteps (some name) (front ++ [.item .unbound]) ∧
      b.expand.observation.index = none := by
  obtain ⟨houtcome, hparent⟩ := hempty
  obtain ⟨step, hleft, hstep, hnothing⟩ := h.exists_findsNothing hopen houtcome
  have hobserved := Branch.observation_expand_of_findsNothing hstep hleft hnothing
  rw [hobserved] at hparent ⊢
  have hvalue : b.value = .sequence [] := Option.some.inj hparent
  cases step with
  | key key =>
      rw [hvalue] at hnothing
      cases hnothing.1
  | item index =>
      obtain ⟨front, htaken⟩ := h.exists_taken_of_left_item hleft
      exact ⟨front, htaken, hvalue, by rw [htaken]; rfl, rfl⟩

/-- The end of the path marks the observations of empty sequences. -/
theorem isEmptySequence_iff (h : IsBranch .start d (.key name :: steps) b)
    (hopen : ∀ s ∈ b.left, s.position? = none) :
    b.expand.observation.isEmptySequence = true ↔ b.expand.observation.FindsEmpty := by
  constructor
  · intro hmarked
    simp only [Observation.isEmptySequence, Bool.and_eq_true, beq_iff_eq] at hmarked
    obtain ⟨⟨⟨houtcome, -⟩, hunnamed⟩, -⟩ := hmarked
    obtain ⟨step, hleft, hstep, hnothing⟩ := h.exists_findsNothing hopen houtcome
    have hobserved := Branch.observation_expand_of_findsNothing hstep hleft hnothing
    cases step with
    | key key =>
        -- a key that is missing is itself the last name of the path
        have hnamed : b.expand.observation.path.tail.head.name = some key := by
          rw [hobserved]
          exact Path.tail_pathOf_append_key b.taken key
        rw [hnamed] at hunnamed
        cases hunnamed
    | item index =>
        refine ⟨houtcome, ?_⟩
        rw [hobserved]
        exact congrArg some hnothing
  · intro hempty
    obtain ⟨front, -, -, hpath, hindex⟩ := h.exists_path_of_findsEmpty hopen hempty
    obtain ⟨parent, hparent, harray⟩ :=
      Path.lastParent?_ofSteps_append_item (some name) front .unbound
    have htail : (Path.ofSteps (some name) (front ++ [.item .unbound])).tail.head.name = none := by
      rw [Path.tail_ofSteps_append]
      rfl
    simp [Observation.isEmptySequence, hempty.1, hindex, hpath, htail, hparent, harray]

/-- The steps taken lead back to the value found at the end of the branch. -/
theorem walk_taken (h : IsBranch .start d (.key name :: steps) b) {front : List Step}
    (htaken : b.taken = .key name :: front) :
    (Path.ofSteps (some name) front).walk d =
      [b.hop.observe .found (some b.value) (.ofSteps (some name) front)] := by
  rw [Path.walk_ofSteps, ← htaken, h.branches_taken, List.map_singleton,
    Branch.observation_of_left_nil rfl, htaken]
  rfl

end IsBranch

/-! ## Places of failures -/

namespace FieldRules

/-- The observations with the rules that fail them, by observation and then by rule. -/
def failures (f : FieldRules) (d : Value) : List (Observation × Rule) :=
  (f.path.walk d).flatMap fun o => (f.rules.filter fun rule => !rule.check o).map (o, ·)

theorem validate_eq_map_failures (f : FieldRules) (d : Value) :
    f.validate d = (f.failures d).map fun x => f.violation x.1 x.2 := by
  rw [failures, List.map_flatMap, validate]
  simp only [List.map_map]
  rfl

theorem mem_walk_of_mem_failures {f : FieldRules} {d : Value} {x : Observation × Rule}
    (hx : x ∈ f.failures d) : x.1 ∈ f.path.walk d := by
  obtain ⟨o, ho, hx⟩ := List.mem_flatMap.mp hx
  obtain ⟨rule, -, rfl⟩ := List.mem_map.mp hx
  exact ho

end FieldRules

namespace Path

structure LeadsToEmpty (q : Path) (d : Value) : Prop where
  all_bound : ∀ s ∈ q.segments, ∀ index, s.kind = .array index → index.isWildcard = false
  walk_eq : ∃ o, q.walk d = [o] ∧ o.outcome = .found ∧ o.value = some (.sequence [])

/-- A required sequence that is empty is reported where it is found, and all else where
it was observed. -/
structure ReportedAt (d : Value) (rule : Rule) (o : Observation) (place : String) : Prop where
  of_empty : rule = .required → o.FindsEmpty →
    ∃ q, o.path.truncate (o.path.depth - 1) = some q ∧ q.LeadsToEmpty d ∧ place = q.text
  of_else : ¬(rule = .required ∧ o.FindsEmpty) → place = o.path.text

section

variable {d : Value} {name : String} {steps : List Step} {b : Branch}

theorem leadsToEmpty_of_taken (h : IsBranch .start d (.key name :: steps) b)
    {front : List Step} (htaken : b.taken = .key name :: front) (hvalue : b.value = .sequence []) :
    (ofSteps (some name) front).LeadsToEmpty d :=
  ⟨isWildcard_of_mem_segments h htaken, _, h.walk_taken htaken, rfl, congrArg some hvalue⟩

theorem reportedAt_of_isBranch (h : IsBranch .start d (.key name :: steps) b)
    (hopen : ∀ s ∈ b.left, s.position? = none) (rule : Rule) :
    ReportedAt d rule b.expand.observation (rule.reportedPath b.expand.observation).text := by
  have hmark := h.isEmptySequence_iff hopen
  constructor
  · rintro rfl hempty
    obtain ⟨front, htaken, hvalue, hpath, -⟩ := h.exists_path_of_findsEmpty hopen hempty
    have htruncate : b.expand.observation.path.truncate (b.expand.observation.path.depth - 1) =
        some (ofSteps (some name) front) := by
      rw [hpath, depth_ofSteps, Nat.add_sub_cancel, List.length_append]
      exact truncate_ofSteps (some name) front (.item .unbound) []
    refine ⟨_, htruncate, leadsToEmpty_of_taken h htaken hvalue, ?_⟩
    have hredirected : (Rule.required.isRequired && b.expand.observation.isEmptySequence) = true :=
      hmark.mpr hempty
    rw [Rule.reportedPath, if_pos hredirected, htruncate, Option.getD_some]
  · intro hother
    have hkept : ¬(rule.isRequired && b.expand.observation.isEmptySequence) = true := by
      rw [Bool.and_eq_true, hmark]
      rintro ⟨hrequired, hempty⟩
      have hrule : rule = .required := by
        by_contra hne
        rw [Rule.isRequired_eq_false hne] at hrequired
        cases hrequired
      exact hother ⟨hrule, hempty⟩
    rw [Rule.reportedPath, if_neg hkept]

end

section

variable {text : String} {p : Path}

/-- Each failure is reported once, and where it was observed unless a required sequence is
there and empty: that is reported itself. -/
theorem violations_reported_at (h : parse text = .ok p) (rules : List Rule) (d : Value) :
    List.Forall₂
      (fun x v => v.field = p.text ∧ v.rule = x.2.name ∧ v.outcome = x.1.outcome ∧
        ReportedAt d x.2 x.1 v.path)
      (FieldRules.failures ⟨p, rules⟩ d) ((Validator.empty.withPath p rules).validate d) := by
  rw [FieldRules.validate_withPath, FieldRules.validate_eq_map_failures,
    List.forall₂_map_right_iff, List.forall₂_same]
  rintro ⟨o, rule⟩ hx
  have ho : o ∈ p.walk d := FieldRules.mem_walk_of_mem_failures hx
  rw [walk_eq_map_branches h] at ho
  obtain ⟨b, hmem, rfl⟩ := List.mem_map.mp ho
  have hb : IsBranch .start d p.steps b := mem_branches_iff.mp hmem
  have hopen := position?_of_mem_left h hb
  obtain ⟨name, steps, hsteps⟩ := exists_steps_eq_key_cons h
  rw [hsteps] at hb
  exact ⟨rfl, rfl, rfl, reportedAt_of_isBranch hb hopen rule⟩

/-- Of the rows under `a`, one has an empty sequence of cells, one has no cells, and one has
a text for a number. -/
theorem violations_reported_at_nested :
    ∃ p d rules, parse "a[].b[]" = .ok p ∧
      d = .mapping [("a", .sequence [.mapping [("b", .sequence [])], .mapping [],
        .mapping [("b", .sequence [.string "x"])]])] ∧
      rules = [Rule.required, .numeric] ∧
      ((Validator.empty.withPath p rules).validate d).map (·.path) =
        ["a[0].b", "a[1].b[]", "a[2].b[0]"] ∧
      List.Forall₂
        (fun x v => v.field = p.text ∧ v.rule = x.2.name ∧ v.outcome = x.1.outcome ∧
          ReportedAt d x.2 x.1 v.path)
        (FieldRules.failures ⟨p, rules⟩ d) ((Validator.empty.withPath p rules).validate d) := by
  have htext : IsPathText "a[].b[]" "a" [.item .unbound, .key "b", .item .unbound] := by
    simp [IsPathText, IsName, Step.IsWritten, Step.chars, isNameChar, Index.text]
  have hparse := parse_of_isPathText htext
  exact ⟨_, _, _, hparse, rfl, rfl, by decide, violations_reported_at hparse _ _⟩

end

end Path

end FieldPath
