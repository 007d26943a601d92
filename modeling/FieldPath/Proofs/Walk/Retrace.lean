import FieldPath.Proofs.Walk.Outcome

/-!
# Walks of reported paths

The path of an observation leads back to where its branch ended, with every
position bound on the way. Walking it makes one observation, and the same one
unless the path was cut short: the value of the wrong shape where it was cut is
found then, and an empty sequence has no element to go on from.
-/

namespace FieldPath

theorem Index.select_of_isWildcard {index : Index} (h : index.isWildcard = true)
    (items : List Value) : index.select items = items.zipIdx := by
  cases index with
  | bound i => cases h
  | _ => rfl

/-! ## Steps taken once more -/

namespace Step

theorem advance_taken {step : Step} {v : Value} {a : Advance} (led : a ∈ step.advance v) :
    a.taken.advance v = [a] := by
  cases step with
  | key name =>
      obtain ⟨w, hw, rfl⟩ := mem_advance_key_iff.mp led
      simp [advance, hw]
  | item index =>
      obtain ⟨i, w, -, hw, rfl⟩ := mem_advance_item_iff.mp led
      cases v with
      | sequence items =>
          have hitem : items[i]? = some w := hw
          simp [advance, Index.select, hitem, Hop.item]
      | _ => cases hw

theorem map_expand_map_expand (steps : List Step) :
    (steps.map expand).map expand = steps.map expand := by
  have hexpand (step : Step) : step.expand.expand = step.expand := by
    rcases step with name | (_ | _ | i) <;> rfl
  simp [Function.comp_def, hexpand]

theorem isWildcard_of_position? {index : Index} (h : (item index).position? = none) :
    index.isWildcard = true := by
  cases index with
  | bound i => cases h
  | _ => rfl

def Fits (v : Value) : Step → Prop
  | key _ => v.isMapping = true
  | item _ => v.isSequence = true

end Step

theorem branches_of_advance_singleton {step : Step} {v : Value} {a : Advance}
    (h : step.advance v = [a]) (hop : Hop) (rest : List Step) :
    branches hop v (step :: rest) = (branches a.hop a.value rest).map (.past a.taken) := by
  rw [branches_of_advance_ne_nil (by simp [h]), h, List.flatMap_singleton]

namespace Branch

def after (front : List Step) (b : Branch) : Branch := { b with taken := front ++ b.taken }

/-- The steps left that the reported path keeps. It is cut before a value of the
wrong shape, but not before the document, and after the slot of an empty sequence. -/
def kept (b : Branch) : List Step :=
  match b.left, b.value with
  | [], _ => []
  | .key name :: rest, .mapping _ => .key name :: rest
  | .item (.bound i) :: rest, .sequence _ => .item (.bound i) :: rest
  | .item _ :: _, .sequence _ => [.item .unbound]
  | left, _ => if b.taken = [] then left else []

def again (b : Branch) : Branch := { b with left := b.kept }

section

variable {b : Branch} {step : Step} {index : Index} {rest : List Step} {items : List Value}

theorem kept_of_not_fits (hleft : b.left = step :: rest) (hfits : ¬step.Fits b.value) :
    b.kept = if b.taken = [] then b.left else [] := by
  obtain ⟨taken, left, hop, value⟩ := b
  cases hleft
  cases step with
  | key name =>
      cases value with
      | mapping entries => exact absurd rfl hfits
      | _ => rfl
  | item index =>
      cases value with
      | sequence items => exact absurd rfl hfits
      | _ => cases index <;> rfl

theorem kept_of_sequence (hleft : b.left = .item index :: rest) (hopen : index.isWildcard = true)
    (hvalue : b.value = .sequence items) : b.kept = [.item .unbound] := by
  obtain ⟨taken, left, hop, value⟩ := b
  cases hleft
  cases hvalue
  cases index with
  | bound i => cases hopen
  | _ => rfl

/-- All steps left are kept but in the two cases that cut the path short. -/
theorem kept_eq_left_or (b : Branch) :
    b.kept = b.left ∨
      ∃ step rest, b.left = step :: rest ∧
        (b.taken ≠ [] ∧ ¬step.Fits b.value ∨
          ∃ index items, step = .item index ∧ index.isWildcard = true ∧
            b.value = .sequence items) := by
  cases hleft : b.left with
  | nil =>
      left
      simp only [kept, hleft]
  | cons step rest =>
      by_cases hfits : step.Fits b.value
      · obtain ⟨taken, left, hop, value⟩ := b
        cases hleft
        cases step with
        | key name =>
            cases value with
            | mapping entries => exact .inl rfl
            | _ => cases hfits
        | item index =>
            cases value with
            | sequence items =>
                cases index with
                | bound i => exact .inl rfl
                | _ => exact .inr ⟨_, rest, rfl, .inr ⟨_, items, rfl, rfl, rfl⟩⟩
            | _ => cases hfits
      · by_cases htaken : b.taken = []
        · left
          rw [kept_of_not_fits hleft hfits, if_pos htaken, hleft]
        · exact .inr ⟨step, rest, rfl, .inl ⟨htaken, hfits⟩⟩

/-- The first step kept visits what the first step left visits. -/
theorem exists_left_of_kept (h : b.kept = step :: rest) :
    ∃ first left, b.left = first :: left ∧ step.expand = first.expand := by
  rcases b.kept_eq_left_or with hkept | ⟨first, left, hleft, ⟨htaken, hfits⟩ | ⟨index, items, rfl,
    hopen, hvalue⟩⟩
  · exact ⟨step, rest, hkept ▸ h, rfl⟩
  · rw [kept_of_not_fits hleft hfits, if_neg htaken] at h
    cases h
  · rw [kept_of_sequence hleft hopen hvalue] at h
    cases h
    refine ⟨_, left, hleft, ?_⟩
    cases index with
    | bound i => cases hopen
    | _ => rfl

/-- The state of the indices left makes no difference to the steps kept. -/
theorem expand_again_expand (b : Branch) : b.expand.again.expand = b.again.expand := by
  have hkept : b.expand.kept.map Step.expand = b.kept.map Step.expand := by
    have hleft : (b.left.map Step.expand).map Step.expand = b.left.map Step.expand :=
      Step.map_expand_map_expand b.left
    obtain ⟨taken, left, hop, value⟩ := b
    rcases left with _ | ⟨name | index, rest⟩
    · rfl
    · cases value with
      | mapping entries => exact hleft
      | _ =>
          cases taken with
          | nil => exact hleft
          | cons first taken => rfl
    · cases value with
      | sequence items =>
          cases index with
          | bound i => exact hleft
          | _ => rfl
      | _ =>
          cases taken with
          | nil => cases index <;> exact hleft
          | cons first taken => cases index <;> rfl
  exact congrArg (Branch.mk b.taken · b.hop b.value) hkept

end

end Branch

namespace IsBranch

variable {hop : Hop} {v : Value} {steps : List Step} {b : Branch}

/-- After the steps taken by a branch come the branches from where it ended. -/
theorem branches_taken_append (h : IsBranch hop v steps b) (more : List Step) :
    branches hop v (b.taken ++ more) = (branches b.hop b.value more).map (.after b.taken) := by
  induction h with
  | done hop v => exact (List.map_id' _).symm
  | stop => exact (List.map_id' _).symm
  | @past hop v step rest a b led _ ih =>
      -- a step taken has its position bound, so that it cannot branch again
      rw [Branch.past_taken, List.cons_append,
        branches_of_advance_singleton (Step.advance_taken led), ih, List.map_map]
      rfl

/-- The steps taken lead to where the branch ended, and nowhere else. -/
theorem branches_taken (h : IsBranch hop v steps b) :
    branches hop v b.taken = [⟨b.taken, [], b.hop, b.value⟩] := by
  have hnil := h.branches_taken_append []
  rw [List.append_nil] at hnil
  simp [hnil, branches, Branch.after]

theorem advance_kept (h : IsBranch hop v steps b) {step : Step} {rest : List Step}
    (hkept : b.kept = step :: rest) : step.advance b.value = [] := by
  obtain ⟨first, left, hleft, hexpand⟩ := Branch.exists_left_of_kept hkept
  have hnil : first.advance b.value = [] := h.advance_eq_nil hleft
  rw [← first.advance_expand, ← hexpand, step.advance_expand] at hnil
  exact hnil

/-- Along the steps of the reported path there is one branch. -/
theorem branches_again (h : IsBranch hop v steps b) :
    branches hop v (b.taken ++ b.kept) = [b.again] := by
  rw [h.branches_taken_append]
  cases hkept : b.kept with
  | nil => simp [branches, Branch.after, Branch.again, hkept]
  | cons step rest =>
      rw [branches_of_advance_nil (h.advance_kept hkept)]
      simp [Branch.after, Branch.again, hkept]

theorem getElem?_taken_length (h : IsBranch hop v steps b) :
    steps[b.taken.length]? = b.left.head? := by
  obtain ⟨front, hfront, hlength⟩ := h.exists_append_left
  rw [hfront, ← hlength, List.getElem?_append_right (Nat.le_refl _), Nat.sub_self]
  exact List.head?_eq_getElem?.symm

theorem expand (h : IsBranch hop v steps b) :
    IsBranch hop v (steps.map Step.expand) b.expand := by
  rw [← mem_branches_iff, branches_map_expand]
  exact List.mem_map_of_mem (mem_branches_iff.mpr h)

/-- A branch took the key that all branches begin with, unless that leads nowhere. -/
theorem taken_or_left_eq_key_cons {name : String} (h : IsBranch hop v (.key name :: steps) b) :
    (∃ rest, b.taken = .key name :: rest) ∨ b.taken = [] ∧ b.left = .key name :: steps := by
  cases h with
  | stop nowhere => exact .inr ⟨rfl, rfl⟩
  | @past _ _ _ _ a b led onward =>
      obtain ⟨w, hw, rfl⟩ := Step.mem_advance_key_iff.mp led
      exact .inl ⟨b.taken, rfl⟩

/-- Before elements are asked for, the first key has been taken. -/
theorem exists_taken_of_left_item {name : String} (h : IsBranch hop v (.key name :: steps) b)
    {index : Index} {rest : List Step} (hleft : b.left = .item index :: rest) :
    ∃ front, b.taken = .key name :: front := by
  rcases h.taken_or_left_eq_key_cons with htaken | ⟨-, hkey⟩
  · exact htaken
  · rw [hleft] at hkey
    cases hkey

theorem taken_append_kept {name : String} (h : IsBranch hop v (.key name :: steps) b) :
    ∃ rest, b.taken ++ b.kept = .key name :: rest := by
  rcases h.taken_or_left_eq_key_cons with ⟨rest, htaken⟩ | ⟨htaken, hleft⟩
  · exact ⟨rest ++ b.kept, by rw [htaken]; rfl⟩
  · obtain ⟨taken, left, hop, value⟩ := b
    cases htaken
    cases hleft
    cases value <;> exact ⟨steps, rfl⟩

end IsBranch

/-! ## The observation of a reported path -/

namespace Branch

section

variable {b : Branch} {step : Step} {index : Index} {rest : List Step}

/-- The reported path takes the steps taken and those kept. -/
theorem observation_path (h : b.taken = [] → ∃ name rest, b.left = .key name :: rest) :
    b.observation.path = pathOf (b.taken ++ b.kept) := by
  obtain ⟨taken, left, hop, value⟩ := b
  have happend : pathOf (taken ++ []) = pathOf taken := by rw [List.append_nil]
  cases taken with
  | nil =>
      obtain ⟨name, rest, hleft⟩ := h rfl
      cases hleft
      cases value <;> rfl
  | cons first taken =>
      rcases left with _ | ⟨name | index, rest⟩
      · exact happend.symm
      · cases value with
        | mapping entries => rfl
        | _ => exact happend.symm
      · cases value with
        | sequence items => cases index <;> rfl
        | _ => cases index <;> exact happend.symm

theorem observation_expand_of_not_fits (htaken : b.taken ≠ []) (hleft : b.left = step :: rest)
    (hfits : ¬step.Fits b.value) :
    b.expand.observation = b.hop.observe .parentNotFound none (pathOf b.taken) := by
  obtain ⟨_ | ⟨first, taken⟩, left, hop, value⟩ := b
  · exact absurd rfl htaken
  cases hleft
  cases step with
  | key name =>
      cases value with
      | mapping entries => exact absurd rfl hfits
      | _ => rfl
  | item index =>
      cases value with
      | sequence items => exact absurd rfl hfits
      | _ => cases index <;> rfl

theorem observation_expand_of_empty (hleft : b.left = .item index :: rest)
    (hopen : index.isWildcard = true) (hvalue : b.value = .sequence []) :
    b.expand.observation =
      (Hop.item [] none).observe (lackOutcome rest) none
        (pathOf (b.taken ++ [.item .unbound])) := by
  obtain ⟨taken, left, hop, value⟩ := b
  cases hleft
  cases hvalue
  cases index with
  | bound i => cases hopen
  | _ => cases taken <;> cases rest <;> rfl

theorem observation_again_of_not_fits (htaken : b.taken ≠ []) (hleft : b.left = step :: rest)
    (hfits : ¬step.Fits b.value) :
    b.again.expand.observation = b.hop.observe .found (some b.value) (pathOf b.taken) := by
  have hkept : b.again.left = [] := (kept_of_not_fits hleft hfits).trans (if_neg htaken)
  exact observation_of_left_nil hkept

theorem observation_again_of_empty (hleft : b.left = .item index :: rest)
    (hopen : index.isWildcard = true) (hvalue : b.value = .sequence []) :
    b.again.expand.observation =
      (Hop.item [] none).observe .elementNotFound none (pathOf (b.taken ++ [.item .unbound])) := by
  have hkept : b.again.left = [.item .unbound] := kept_of_sequence hleft hopen hvalue
  exact observation_expand_of_empty hkept rfl hvalue

/-- A path that is not cut short asks for all that the branch lacked. -/
theorem again_expand_of_not_cut (hshape : ∀ step ∈ b.left.head?, b.taken ≠ [] → step.Fits b.value)
    (hempty : ∀ index next rest items, b.left = .item index :: next :: rest →
      index.isWildcard = true → b.value ≠ .sequence items) :
    b.again.expand = b.expand := by
  rcases b.kept_eq_left_or with hkept | ⟨step, rest, hleft, ⟨htaken, hfits⟩ | ⟨index, items, rfl,
    hopen, hvalue⟩⟩
  · rw [again, hkept]
  · exact absurd (hshape step (by simp [hleft]) htaken) hfits
  · cases rest with
    | nil =>
        -- the slot is all that was left, but for the state of its index
        have hkept : b.kept = [.item .unbound] := kept_of_sequence hleft hopen hvalue
        cases index with
        | bound i => cases hopen
        | _ => simp [again, expand, hkept, hleft, Step.expand]
    | cons next rest => exact absurd hvalue (hempty index next rest items hleft hopen)

end

end Branch

/-- The reported path of a branch takes its first key, and the steps after that. -/
theorem IsBranch.exists_observation_path {hop : Hop} {v : Value} {name : String}
    {steps : List Step} {b : Branch} (h : IsBranch hop v (.key name :: steps) b) :
    ∃ rest, b.taken ++ b.kept = .key name :: rest ∧
      b.observation.path = .ofSteps (some name) rest := by
  obtain ⟨rest, hkey⟩ := h.taken_append_kept
  refine ⟨rest, hkey, ?_⟩
  rw [Branch.observation_path, hkey]
  · rfl
  · intro hnil
    rcases h.taken_or_left_eq_key_cons with ⟨more, htaken⟩ | ⟨-, hleft⟩
    · rw [hnil] at htaken
      cases htaken
    · exact ⟨name, _, hleft⟩

namespace Path

def StopsAtShape (p : Path) (resolved : Nat) (reached : Value) : Prop :=
  0 < resolved ∧ ∃ step ∈ p.steps[resolved]?, ¬step.Fits reached

def StopsAtEmpty (p : Path) (resolved : Nat) (reached : Value) : Prop :=
  reached = .sequence [] ∧ (∃ index, p.steps[resolved]? = some (.item index)) ∧
    resolved + 1 < p.depth

/-- What the walk of a reported path observes, beside the observation that reported
it where the steps stopped at `reached`. -/
structure Readdresses (p : Path) (resolved : Nat) (reached : Value) (o again : Observation) :
    Prop where
  parent_eq : again.parent = o.parent
  path_eq : again.path = o.path
  name_eq : again.name = o.name
  index_eq : again.index = o.index
  of_shape : p.StopsAtShape resolved reached →
    o.outcome = .parentNotFound ∧ again.outcome = .found ∧ again.value = some reached
  of_empty : p.StopsAtEmpty resolved reached →
    o.outcome = .parentNotFound ∧ again.outcome = .elementNotFound ∧
      again.parent = some (.sequence [])
  of_else : ¬p.StopsAtShape resolved reached → ¬p.StopsAtEmpty resolved reached → again = o

section

variable {text : String} {p : Path} {d : Value} {b : Branch}

theorem exists_steps_eq_key_cons (h : parse text = .ok p) :
    ∃ name steps, p.steps = .key name :: steps := by
  obtain ⟨name, steps, -, rfl⟩ := exists_steps_of_parse h
  exact ⟨name, steps, steps_ofSteps _ _⟩

theorem depth_eq_add_length (h : parse text = .ok p) (hb : IsBranch .start d p.steps b) :
    p.depth = b.taken.length + b.left.length := by
  obtain ⟨front, hfront, hlength⟩ := hb.exists_append_left
  rw [← length_steps_of_parse h, hfront, List.length_append, hlength]

theorem position?_of_mem_left (h : parse text = .ok p) (hb : IsBranch .start d p.steps b) :
    ∀ s ∈ b.left, s.position? = none := by
  intro s hs
  obtain ⟨front, hfront, -⟩ := hb.exists_append_left
  apply position?_of_mem_steps h
  rw [hfront]
  exact List.mem_append_right front hs

/-- The walk of a reported path is the branch that ends in the same place. -/
theorem walk_observation_path {name : String} {steps : List Step}
    (hb : IsBranch .start d (.key name :: steps) b) :
    b.expand.observation.path.walk d = [b.again.expand.observation] := by
  have hexpand : IsBranch .start d (.key name :: steps.map Step.expand) b.expand := hb.expand
  obtain ⟨rest, hkey, hpath⟩ := hexpand.exists_observation_path
  rw [hpath, walk_ofSteps, ← hkey, hexpand.branches_again, ← b.expand_again_expand]
  rfl

theorem StopsAtShape.exists_left (hb : IsBranch .start d p.steps b)
    (hstops : p.StopsAtShape b.taken.length b.value) :
    b.taken ≠ [] ∧ ∃ step rest, b.left = step :: rest ∧ ¬step.Fits b.value := by
  obtain ⟨hpos, step, hstep, hfits⟩ := hstops
  rw [hb.getElem?_taken_length] at hstep
  obtain ⟨rest, hleft⟩ := List.head?_eq_some_iff.mp hstep
  exact ⟨List.length_pos_iff.mp hpos, step, rest, hleft, hfits⟩

theorem StopsAtEmpty.exists_left (h : parse text = .ok p) (hb : IsBranch .start d p.steps b)
    (hstops : p.StopsAtEmpty b.taken.length b.value) :
    b.value = .sequence [] ∧ ∃ index next rest,
      b.left = .item index :: next :: rest ∧ index.isWildcard = true := by
  obtain ⟨hvalue, ⟨index, hitem⟩, hlt⟩ := hstops
  rw [hb.getElem?_taken_length] at hitem
  obtain ⟨rest, hleft⟩ := List.head?_eq_some_iff.mp hitem
  have hposition := position?_of_mem_left h hb (.item index) (by simp [hleft])
  have hrest : 0 < rest.length := by
    rw [depth_eq_add_length h hb, hleft, List.length_cons] at hlt
    omega
  obtain ⟨next, more, rfl⟩ := List.exists_cons_of_length_pos hrest
  exact ⟨hvalue, index, next, more, hleft, Step.isWildcard_of_position? hposition⟩

theorem again_expand_of_not_stops (h : parse text = .ok p) (hb : IsBranch .start d p.steps b)
    (hshape : ¬p.StopsAtShape b.taken.length b.value)
    (hempty : ¬p.StopsAtEmpty b.taken.length b.value) : b.again.expand = b.expand := by
  have hnext : p.steps[b.taken.length]? = b.left.head? := hb.getElem?_taken_length
  apply Branch.again_expand_of_not_cut
  · intro step hstep htaken
    by_contra hfits
    exact hshape ⟨List.length_pos_iff.mpr htaken, step, hnext ▸ hstep, hfits⟩
  · intro index next rest items hleft hopen hvalue
    have hitem : p.steps[b.taken.length]? = some (.item index) := by
      rw [hnext, hleft]
      rfl
    have hlt : b.taken.length + 1 < p.depth := by
      rw [depth_eq_add_length h hb, hleft, List.length_cons, List.length_cons]
      omega
    -- the step before which a branch ends leads nowhere, so the sequence is empty
    have hnil : (Step.item index).advance (.sequence items) = [] :=
      hvalue ▸ hb.advance_eq_nil hleft
    have hposition := position?_of_mem_left h hb (.item index) (by simp [hleft])
    have hitems : items = [] := (Step.advance_sequence_eq_nil_iff hposition).mp hnil
    exact hempty ⟨hitems ▸ hvalue, ⟨index, hitem⟩, hlt⟩

theorem readdresses_of_isBranch (h : parse text = .ok p) (hb : IsBranch .start d p.steps b) :
    Readdresses p b.taken.length b.value b.expand.observation b.again.expand.observation := by
  by_cases hshape : p.StopsAtShape b.taken.length b.value
  · obtain ⟨htaken, step, rest, hleft, hfits⟩ := hshape.exists_left hb
    rw [Branch.observation_expand_of_not_fits htaken hleft hfits,
      Branch.observation_again_of_not_fits htaken hleft hfits]
    refine ⟨rfl, rfl, rfl, rfl, fun _ => ⟨rfl, rfl, rfl⟩, ?_, fun hs => absurd hshape hs⟩
    intro hempty
    obtain ⟨hvalue, index, next, more, hitem, -⟩ := hempty.exists_left h hb
    rw [hleft] at hitem
    cases hitem
    rw [hvalue] at hfits
    exact absurd rfl hfits
  by_cases hempty : p.StopsAtEmpty b.taken.length b.value
  · obtain ⟨hvalue, index, next, rest, hleft, hopen⟩ := hempty.exists_left h hb
    rw [Branch.observation_expand_of_empty hleft hopen hvalue,
      Branch.observation_again_of_empty hleft hopen hvalue]
    exact ⟨rfl, rfl, rfl, rfl, fun hs => absurd hs hshape, fun _ => ⟨rfl, rfl, rfl⟩,
      fun _ he => absurd hempty he⟩
  · rw [again_expand_of_not_stops h hb hshape hempty]
    exact ⟨rfl, rfl, rfl, rfl, fun hs => absurd hs hshape, fun he => absurd he hempty,
      fun _ _ => rfl⟩

/-- What holds of each branch holds of the observations, beside the ends of the
choices of elements in lexicographic order. -/
theorem exists_ends_forall₂ (h : parse text = .ok p)
    {R : List Nat × Nat × Value → Observation → Prop}
    (hR : ∀ b, IsBranch .start d p.steps b →
      R (b.chosen, b.taken.length, b.value) b.expand.observation) :
    ∃ ends : List (List Nat × Nat × Value),
      (∀ positions resolved reached, (positions, resolved, reached) ∈ ends ↔
        Ends p.steps d positions resolved reached) ∧
      ends.Pairwise (fun a b => a.1 < b.1) ∧ List.Forall₂ R ends (p.walk d) := by
  refine ⟨(branches .start d p.steps).map fun b => (b.chosen, b.taken.length, b.value), ?_, ?_, ?_⟩
  · intro positions resolved reached
    rw [List.mem_map]
    constructor
    · rintro ⟨b, hb, heq⟩
      cases heq
      exact (mem_branches_iff.mp hb).ends
    · intro hends
      obtain ⟨b, hb, rfl, rfl, rfl⟩ := hends.exists_branch .start
      exact ⟨b, mem_branches_iff.mpr hb, rfl⟩
  · rw [List.pairwise_map]
    exact branches_pairwise _ _ _
  · rw [walk_eq_map_branches h, List.forall₂_map_left_iff, List.forall₂_map_right_iff,
      List.forall₂_same]
    exact fun b hb => hR b (mem_branches_iff.mp hb)

/-- Walking the path of an observation makes one observation of the same place, and
the same observation unless the path was cut short. -/
theorem walk_reported_path (h : parse text = .ok p) (d : Value) :
    ∃ ends : List (List Nat × Nat × Value),
      (∀ positions resolved reached, (positions, resolved, reached) ∈ ends ↔
        Ends p.steps d positions resolved reached) ∧
      ends.Pairwise (fun a b => a.1 < b.1) ∧
      List.Forall₂ (fun e o => ∃ again, o.path.walk d = [again] ∧
        Readdresses p e.2.1 e.2.2 o again) ends (p.walk d) := by
  apply exists_ends_forall₂ h
  intro b hb
  have hagain : b.expand.observation.path.walk d = [b.again.expand.observation] := by
    obtain ⟨name, steps, hsteps⟩ := exists_steps_eq_key_cons h
    rw [hsteps] at hb
    exact walk_observation_path hb
  exact ⟨_, hagain, readdresses_of_isBranch h hb⟩

/-- Of the three rows under `a`, one has no sequence of cells, one an empty one, and one a
cell without `c`. -/
theorem walk_reported_path_nested :
    ∃ p d, parse "a[].b[].c" = .ok p ∧
      d = .mapping [("a", .sequence [.mapping [("b", .null)], .mapping [("b", .sequence [])],
        .mapping [("b", .sequence [.mapping []])]])] ∧
      ∃ ends : List (List Nat × Nat × Value),
        (∀ positions resolved reached, (positions, resolved, reached) ∈ ends ↔
          Ends p.steps d positions resolved reached) ∧
        ends.Pairwise (fun a b => a.1 < b.1) ∧
        List.Forall₂ (fun e o => ∃ again, o.path.walk d = [again] ∧
          Readdresses p e.2.1 e.2.2 o again) ends (p.walk d) := by
  have htext : IsPathText "a[].b[].c" "a"
      [.item .unbound, .key "b", .item .unbound, .key "c"] := by
    simp [IsPathText, IsName, Step.IsWritten, Step.chars, isNameChar, Index.text]
  have hparse := parse_of_isPathText htext
  exact ⟨_, _, hparse, rfl, walk_reported_path hparse _⟩

end

end Path

end FieldPath
