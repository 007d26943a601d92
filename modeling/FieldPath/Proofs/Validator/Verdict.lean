import FieldPath.Proofs.Walk.Outcome
import FieldPath.Validator

/-!
# Verdicts

A validator finds nothing wrong with a document exactly if the document has what
its rules ask for: whatever is required is present along all branches, and every
value that the path leads to is null or of the kind described. What is not found
is wrong for the required rule alone.
-/

namespace FieldPath

/-! ## Presence -/

namespace Step

/-- Steps are present in a value if they lead on through every element, of which
each sequence has one at least, and to something in the end. -/
def Present : List Step → Value → Prop
  | [], v => v ≠ .null ∧ v ≠ .string ""
  | key name :: rest, v => ∃ w, v.get? name = some w ∧ Present rest w
  | item _ :: rest, v => ∃ items, v = .sequence items ∧ items ≠ [] ∧ ∀ w ∈ items, Present rest w

theorem present_cons_iff {step : Step} (hopen : step.position? = none) {rest : List Step}
    {v : Value} :
    Present (step :: rest) v ↔
      step.advance v ≠ [] ∧ ∀ a ∈ step.advance v, Present rest a.value := by
  cases step with
  | key name =>
      rw [Present]
      cases h : v.get? name <;> simp [advance, h]
  | item index =>
      cases v with
      | sequence items =>
          have hitems : (∀ a ∈ (item index).advance (.sequence items), Present rest a.value) ↔
              ∀ w ∈ items, Present rest w := by
            constructor
            · intro h w hw
              obtain ⟨i, hi⟩ := List.mem_iff_getElem?.mp hw
              exact h _ (mem_advance_item_iff.mpr ⟨i, w, admits_of_position? hopen i, hi, rfl⟩)
            · intro h a ha
              obtain ⟨i, w, -, hw, rfl⟩ := mem_advance_item_iff.mp ha
              exact h w (List.mem_of_getElem? hw)
          rw [hitems, Ne, advance_sequence_eq_nil_iff hopen]
          simp [Present]
      | _ => simp [Present, advance]

/-- Steps are present exactly if every branch takes all of them, to something. -/
theorem present_iff {steps : List Step} (hopen : ∀ s ∈ steps, s.position? = none) {v : Value}
    (hop : Hop) :
    Present steps v ↔
      ∀ b ∈ branches hop v steps, b.left = [] ∧ b.value ≠ .null ∧ b.value ≠ .string "" := by
  induction steps generalizing hop v with
  | nil => simp [Present, branches]
  | cons step rest ih =>
      obtain ⟨hstep, hrest⟩ := List.forall_mem_cons.mp hopen
      rw [present_cons_iff hstep]
      by_cases hnil : step.advance v = []
      · simp [branches_of_advance_nil hnil, hnil]
      · rw [branches_of_advance_ne_nil hnil, List.forall_mem_flatMap, and_iff_right hnil]
        apply forall₂_congr
        intro a _
        rw [ih hrest a.hop, List.forall_mem_map]
        rfl

end Step

/-! ## Kinds of values -/

def Number.isWhole : Number → Bool
  | float x => x.isWhole
  | _ => true

namespace Rule

/-- The values that a rule on found values is about. -/
inductive Describes : Rule → Value → Prop where
  | text (text : String) : Describes string (.string text)
  | number (n : Number) : Describes numeric (.number n)
  | numeral {text : String} (h : isNumericText text = true) : Describes numeric (.string text)
  | whole {n : Number} (h : n.isWhole = true) : Describes integer (.number n)
  | wholeNumeral {text : String} (h : isIntegerText text = true) :
      Describes integer (.string text)

def IsBuiltIn (rule : Rule) : Prop := ∃ name, ofName? name = some rule

theorem IsBuiltIn.cases {rule : Rule} (h : rule.IsBuiltIn) :
    rule = required ∨ rule = string ∨ rule = numeric ∨ rule = integer := by
  obtain ⟨name, hname⟩ := h
  unfold ofName? at hname
  split_ifs at hname <;> cases hname <;> simp

theorem required_accepts_iff {o : Observation} {v : Value} :
    required.accepts o v = true ↔ v ≠ .null ∧ v ≠ .string "" := by
  cases v <;> simp [accepts]

theorem string_accepts_iff {o : Observation} {v : Value} :
    string.accepts o v = true ↔ v = .null ∨ string.Describes v := by
  constructor
  · intro h
    cases v with
    | null => exact .inl rfl
    | string text => exact .inr (.text text)
    | _ => cases h
  · rintro (rfl | h)
    · rfl
    · cases h
      rfl

theorem numeric_accepts_iff {o : Observation} {v : Value} :
    numeric.accepts o v = true ↔ v = .null ∨ numeric.Describes v := by
  constructor
  · intro h
    cases v with
    | null => exact .inl rfl
    | number n => exact .inr (.number n)
    | string text => exact .inr (.numeral h)
    | _ => cases h
  · rintro (rfl | h)
    · rfl
    · cases h with
      | number n => rfl
      | numeral h => exact h

theorem integer_accepts_number (o : Observation) (n : Number) :
    integer.accepts o (.number n) = n.isWhole := by
  cases n <;> rfl

theorem integer_accepts_iff {o : Observation} {v : Value} :
    integer.accepts o v = true ↔ v = .null ∨ integer.Describes v := by
  constructor
  · intro h
    cases v with
    | null => exact .inl rfl
    | number n => exact .inr (.whole (integer_accepts_number o n ▸ h))
    | string text => exact .inr (.wholeNumeral h)
    | _ => cases h
  · rintro (rfl | h)
    · rfl
    · cases h with
      | whole h => exact (integer_accepts_number o _).trans h
      | wholeNumeral h => exact h

theorem accepts_iff_describes {rule : Rule} (hrule : rule.IsBuiltIn) (hne : rule ≠ required)
    {o : Observation} {v : Value} :
    rule.accepts o v = true ↔ v = .null ∨ rule.Describes v := by
  rcases hrule.cases with rfl | rfl | rfl | rfl
  · exact absurd rfl hne
  · exact string_accepts_iff
  · exact numeric_accepts_iff
  · exact integer_accepts_iff

theorem isRequired_eq_false {rule : Rule} (h : rule ≠ required) : rule.isRequired = false := by
  cases rule with
  | required => exact absurd rfl h
  | _ => rfl

/-- What was not found fails the required rule and passes any other. -/
theorem check_of_not_isFound {o : Observation} (h : o.isFound = false) (rule : Rule) :
    rule.check o = !rule.isRequired := by
  have hne : o.outcome ≠ .found := by
    intro hfound
    rw [Observation.isFound, hfound] at h
    cases h
  unfold check
  split
  · contradiction
  · rfl

/-- How a rule fares on a branch: on its value if it takes all steps. -/
theorem check_observation (rule : Rule) (b : Branch) :
    rule.check b.expand.observation =
      if b.left = [] then rule.accepts b.expand.observation b.value else !rule.isRequired := by
  split_ifs with hleft
  · rw [Branch.observation_of_left_nil hleft]
    rfl
  · apply check_of_not_isFound
    rw [b.isFound_observation, ← Bool.not_eq_true, List.isEmpty_iff]
    exact hleft

end Rule

/-! ## What a field asks for -/

namespace Path

section

variable {text : String} {p : Path}

/-- The required rule passes everywhere exactly if the steps are present. -/
theorem required_check_iff (h : parse text = .ok p) (d : Value) :
    (∀ o ∈ p.walk d, Rule.required.check o = true) ↔ Step.Present p.steps d := by
  rw [Step.present_iff (position?_of_mem_steps h) .start, walk_eq_map_branches h,
    List.forall_mem_map]
  apply forall₂_congr
  intro b _
  rw [Rule.check_observation]
  split_ifs with hleft
  · rw [Rule.required_accepts_iff, and_iff_right hleft]
  · simp [Rule.isRequired, hleft]

/-- Any other rule passes everywhere exactly if it describes what the steps lead to. -/
theorem optional_check_iff (h : parse text = .ok p) (d : Value) {rule : Rule}
    (hrule : rule.IsBuiltIn) (hne : rule ≠ .required) :
    (∀ o ∈ p.walk d, rule.check o = true) ↔
      ∀ positions v, Step.follow p.steps positions d = some v → v = .null ∨ rule.Describes v := by
  have hcheck (b : Branch) : rule.check b.expand.observation = true ↔
      (b.left = [] → b.value = .null ∨ rule.Describes b.value) := by
    rw [Rule.check_observation, Rule.isRequired_eq_false hne]
    split_ifs with hleft
    · rw [Rule.accepts_iff_describes hrule hne, forall_prop_of_true hleft]
    · simp [hleft]
  rw [walk_eq_map_branches h, List.forall_mem_map]
  simp only [hcheck, Step.follow_eq_some_iff (position?_of_mem_steps h)]
  constructor
  · intro hall positions v hends
    obtain ⟨b, hb, -, hlength, rfl⟩ := hends.exists_branch .start
    exact hall b (mem_branches_iff.mpr hb) (hb.left_eq_nil_iff.mpr hlength)
  · intro hall b hmem hleft
    have hb : IsBranch .start d p.steps b := mem_branches_iff.mp hmem
    exact hall b.chosen b.value (hb.left_eq_nil_iff.mp hleft ▸ hb.ends)

end

end Path

namespace FieldRules

theorem validate_withPath (p : Path) (rs : List Rule) (d : Value) :
    (Validator.empty.withPath p rs).validate d = FieldRules.validate ⟨p, rs⟩ d := by
  simp [Validator.validate, Validator.withPath, Validator.empty]

theorem validate_eq_nil_iff {f : FieldRules} {d : Value} :
    f.validate d = [] ↔ ∀ rule ∈ f.rules, ∀ o ∈ f.path.walk d, rule.check o = true := by
  have hobserved (o : Observation) :
      (f.rules.filter fun rule => !rule.check o).map (f.violation o) = [] ↔
        ∀ rule ∈ f.rules, rule.check o = true := by
    simp [List.filter_eq_nil_iff]
  simp only [validate, List.flatMap_eq_nil_iff, hobserved]
  exact ⟨fun h rule hrule o ho => h o ho rule hrule, fun h o ho rule hrule => h rule hrule o ho⟩

/-- What was not found violates each required rule, and nothing else does. -/
theorem validate_filter_not_found (f : FieldRules) (d : Value) :
    (f.validate d).filter (·.outcome != .found) =
      ((f.path.walk d).filter (!·.isFound)).flatMap fun o =>
        (f.rules.filter Rule.isRequired).map (f.violation o) := by
  have hobserved (o : Observation) :
      ((f.rules.filter fun rule => !rule.check o).map (f.violation o)).filter
          (·.outcome != .found) =
        if o.isFound then [] else (f.rules.filter Rule.isRequired).map (f.violation o) := by
    have houtcome : ((·.outcome != .found) ∘ f.violation o : Rule → Bool) = fun _ => !o.isFound :=
      rfl
    rw [List.filter_map, houtcome]
    cases hfound : o.isFound with
    | true => simp
    | false => simp [Rule.check_of_not_isFound hfound]
  unfold validate
  rw [List.filter_flatMap]
  simp only [hobserved]
  induction f.path.walk d with
  | nil => rfl
  | cons o rest ih => cases hfound : o.isFound <;> simp [hfound, ih]

end FieldRules

namespace Path

/-- A validator accepts a document exactly if what is required is present and what
is found is null or as described. What is not found violates the required rule, once
for each time it is asked for, and no other. -/
theorem validate_eq_nil_iff_present {text : String} {p : Path} (h : parse text = .ok p)
    {rs : List Rule} (hrs : ∀ rule ∈ rs, rule.IsBuiltIn) (d : Value) :
    ((Validator.empty.withPath p rs).validate d = [] ↔
      (.required ∈ rs → Step.Present p.steps d) ∧
        ∀ positions v, Step.follow p.steps positions d = some v →
          v = .null ∨ ∀ rule ∈ rs, rule ≠ .required → rule.Describes v) ∧
      ((Validator.empty.withPath p rs).validate d).filter (·.outcome != .found) =
        ((p.walk d).filter (!·.isFound)).flatMap fun o =>
          (rs.filter Rule.isRequired).map ((FieldRules.mk p rs).violation o) := by
  rw [FieldRules.validate_withPath]
  refine ⟨?_, FieldRules.validate_filter_not_found _ _⟩
  rw [FieldRules.validate_eq_nil_iff]
  constructor
  · intro hchecks
    refine ⟨fun hmem => (required_check_iff h d).mp (hchecks _ hmem), ?_⟩
    intro positions v hfollow
    -- null passes each of the rules, so it is set aside before they are told apart
    by_cases hnull : v = .null
    · exact .inl hnull
    · right
      intro rule hrule hne
      have hdescribed := (optional_check_iff h d (hrs rule hrule) hne).mp (hchecks rule hrule)
      exact (hdescribed positions v hfollow).resolve_left hnull
  · rintro ⟨hpresent, hdescribed⟩ rule hrule
    by_cases hne : rule = .required
    · subst hne
      exact (required_check_iff h d).mpr (hpresent hrule)
    · apply (optional_check_iff h d (hrs rule hrule) hne).mpr
      intro positions v hfollow
      exact (hdescribed positions v hfollow).imp_right fun hall => hall rule hrule hne

/-- Of the two rows under `a`, the first has no cells and the second a text for a number. -/
theorem validate_eq_nil_iff_present_nested :
    ∃ p d rs, parse "a[].b[]" = .ok p ∧
      d = .mapping [("a", .sequence [.mapping [("b", .sequence [])],
        .mapping [("b", .sequence [.string "x"])]])] ∧
      rs = [Rule.required, .numeric] ∧ (∀ rule ∈ rs, rule.IsBuiltIn) ∧
      ((Validator.empty.withPath p rs).validate d = [] ↔
        (.required ∈ rs → Step.Present p.steps d) ∧
          ∀ positions v, Step.follow p.steps positions d = some v →
            v = .null ∨ ∀ rule ∈ rs, rule ≠ .required → rule.Describes v) ∧
        ((Validator.empty.withPath p rs).validate d).filter (·.outcome != .found) =
          ((p.walk d).filter (!·.isFound)).flatMap fun o =>
            (rs.filter Rule.isRequired).map ((FieldRules.mk p rs).violation o) := by
  have htext : IsPathText "a[].b[]" "a" [.item .unbound, .key "b", .item .unbound] := by
    simp [IsPathText, IsName, Step.IsWritten, Step.chars, isNameChar, Index.text]
  have hparse := parse_of_isPathText htext
  have hrs : ∀ rule ∈ [Rule.required, .numeric], rule.IsBuiltIn :=
    List.forall_mem_cons.mpr ⟨⟨"required", rfl⟩, List.forall_mem_singleton.mpr ⟨"numeric", rfl⟩⟩
  exact ⟨_, _, _, hparse, rfl, rfl, hrs, validate_eq_nil_iff_present hparse hrs _⟩

end Path

end FieldPath
