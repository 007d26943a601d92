import FieldPath.Proofs.Walk.Branch

/-!
# What a walk reports of its branches

A walk goes by segments, each with a look-up of its own and a demand on the
shape of what it finds. On a chain that takes steps it reports one observation
for each branch of the steps, and the end of the branch alone decides which.
-/

namespace FieldPath

namespace Branch

def lackOutcome : List Step → Outcome
  | [] => .elementNotFound
  | _ :: _ => .parentNotFound

/-- The observation of a branch that set out from a value reached already. The
path that takes given steps from there is `path`. A value of the wrong shape cuts
it short, and so does an empty sequence, after its own slot. -/
def report (path : List Step → Path) (b : Branch) : Observation :=
  match b.left, b.value with
  | [], v => b.hop.observe .found (some v) (path b.taken)
  | .key name :: rest, .mapping entries =>
      (Hop.key (.mapping entries) name).observe (lackOutcome rest) none (path (b.taken ++ b.left))
  | .item (.bound i) :: _, .sequence items =>
      (Hop.item items (some i)).observe .elementNotFound none (path (b.taken ++ b.left))
  | .item _ :: rest, .sequence items =>
      (Hop.item items none).observe (lackOutcome rest) none (path (b.taken ++ [.item .unbound]))
  | _, _ => b.hop.observe .parentNotFound none (path b.taken)

theorem report_past (path : List Step → Path) (step : Step) (b : Branch) :
    (b.past step).report path = b.report fun taken => path (step :: taken) := rfl

def pathOf : List Step → Path
  | .key name :: rest => .ofSteps (some name) rest
  | steps => .ofSteps none steps

/-- The observation of a branch that set out from a document. A document that is
no mapping is itself the container reported, with the whole path. -/
def observation (b : Branch) : Observation :=
  match b.taken, b.left, b.value.isMapping with
  | [], .key name :: rest, false =>
      (Hop.key b.value name).observe .parentNotFound none (.ofSteps (some name) rest)
  | _, _, _ => b.report pathOf

theorem observation_past_key (name : String) (b : Branch) :
    (b.past (.key name)).observation = b.report (.ofSteps (some name)) := rfl

end Branch

namespace Path

@[simp] theorem after_append_singleton (before : List Segment) (s : Segment) (p : Path) :
    after (before ++ [s]) p = after before (link s p) := by
  simp [after]

/-- A key that its mapping lacks. -/
theorem walkFrom_missing (before : List Segment) (came : Hop) {entries : List (String × Value)}
    {name : String} (h : (Value.mapping entries).get? name = none) (rest : List Step) :
    walkFrom before came (.mapping entries) (ofSteps (some name) rest) =
      [(Hop.key (.mapping entries) name).observe (Branch.lackOutcome rest) none
        (after before (ofSteps (some name) rest))] := by
  have hlookup : entries.lookup name = none := h
  cases rest with
  | nil =>
      simp [ofSteps, element, walkFrom, observeEnd, Segment.reach, Segment.hop, hlookup,
        Branch.lackOutcome]
  | cons step rest =>
      cases step with
      | key next =>
          simp [ofSteps, object, walkFrom, Segment.reach, Segment.hop, hlookup, Branch.lackOutcome]
      | item index =>
          cases index <;>
            simp [ofSteps, walkFrom, Segment.reach, Segment.hop, hlookup, Branch.lackOutcome]

/-- An empty sequence where elements are visited. -/
theorem observeEmpty_ofSteps (before : List Segment) (name : Option String) (index : Index)
    (rest : List Step) :
    observeEmpty before ⟨name, .array index⟩ (ofSteps none rest) =
      (Hop.item [] none).observe (Branch.lackOutcome rest) none
        (after before (ofSteps name [.item .unbound])) := by
  cases rest with
  | nil => rfl
  | cons step rest => cases step <;> rfl

structure LooksUp (name : Option String) (came : Hop) (current : Value) (hop : Hop) (v : Value) :
    Prop where
  hop_eq : ∀ kind, (Segment.mk name kind).hop current came = hop
  reach_eq : ∀ kind, (Segment.mk name kind).reach current = .value v

theorem LooksUp.unnamed (came : Hop) (v : Value) : LooksUp none came v came v :=
  ⟨fun _ => rfl, fun _ => rfl⟩

theorem LooksUp.named (came : Hop) {current v : Value} {name : String}
    (h : current.get? name = some v) : LooksUp (some name) came current (.key current name) v := by
  refine ⟨fun _ => rfl, fun _ => ?_⟩
  cases current with
  | mapping entries =>
      have hlookup : entries.lookup name = some v := h
      simp [Segment.reach, hlookup]
  | _ => cases h

section

variable {name : Option String} {came hop : Hop} {current v : Value}

theorem walkFrom_object (h : LooksUp name came current hop v) (before : List Segment)
    (next : Path) :
    walkFrom before came current (link ⟨name, .object⟩ next) =
      match v with
      | .mapping entries => walkFrom (before ++ [⟨name, .object⟩]) hop (.mapping entries) next
      | _ => [hop.observe .parentNotFound none (after before (element name))] := by
  cases v <;> simp [walkFrom, h.reach_eq, h.hop_eq]

theorem walkFrom_array (h : LooksUp name came current hop v) (before : List Segment)
    (index : Index) (next : Path) :
    walkFrom before came current (link ⟨name, .array index⟩ next) =
      match v, index with
      | .sequence items, .bound i =>
          match items[i]? with
          | some item =>
              walkFrom (before ++ [⟨name, .array (.bound i)⟩]) (.item items (some i)) item next
          | none =>
              [(Hop.item items (some i)).observe .elementNotFound none
                (after before (link ⟨name, .array (.bound i)⟩ next))]
      | .sequence [], _ => [observeEmpty before ⟨name, .array index⟩ next]
      | .sequence items, _ =>
          items.zipIdx.flatMap fun (item, i) =>
            walkFrom (before ++ [⟨name, .array (.bound i)⟩]) (.item items (some i)) item next
      | _, _ => [hop.observe .parentNotFound none (after before (element name))] := by
  cases v with
  | sequence items =>
      cases index with
      | bound i => cases hitem : items[i]? <;> simp [walkFrom, h.reach_eq, hitem]
      | _ => cases items <;> simp [walkFrom, h.reach_eq, Segment.withKind]
  | _ => cases index <;> simp [walkFrom, h.reach_eq, h.hop_eq]

end

/-! ## Walks of chains -/

/-- From any look-up of a segment called `name`, the walk of the chain that takes
the steps from there reports their branches. -/
def ReportsBranches (name : Option String) (steps : List Step) : Prop :=
  ∀ {came hop : Hop} {current v : Value}, LooksUp name came current hop v →
    ∀ before : List Segment, walkFrom before came current (ofSteps name steps) =
      (branches hop v steps).map (Branch.report fun taken => after before (ofSteps name taken))

theorem reportsBranches_nil (name : Option String) : ReportsBranches name [] := by
  intro came hop current v h before
  simp [ofSteps, element, walkFrom, h.reach_eq, h.hop_eq, branches, observeEnd, Branch.report]

/-- A key is looked up by the segment after the object that asks for a mapping. -/
theorem reportsBranches_key {next : String} {rest : List Step}
    (hrest : ReportsBranches (some next) rest) (name : Option String) :
    ReportsBranches name (.key next :: rest) := by
  intro came hop current v h before
  rw [ofSteps, object, walkFrom_object h]
  cases v with
  | mapping entries =>
      cases hget : (Value.mapping entries).get? next with
      | none =>
          rw [branches_of_advance_nil (Step.advance_key_eq_nil_iff.mpr hget)]
          simp [walkFrom_missing _ _ hget, Branch.report, ofSteps, object]
      | some w =>
          have hadvance : (Step.key next).advance (.mapping entries) =
              [⟨.key next, .key (.mapping entries) next, w⟩] := by
            simp [Step.advance, hget]
          have hnext := hrest (LooksUp.named hop hget) (before ++ [⟨name, .object⟩])
          rw [branches_of_advance_ne_nil (by simp [hadvance]), hadvance]
          simp [hnext, Function.comp_def, Branch.report_past, ofSteps, object]
  | _ =>
      rw [branches_of_advance_nil (Step.advance_key_eq_nil_iff.mpr rfl)]
      rfl

/-- Elements are visited by the array segment itself, and what follows is unnamed. -/
theorem reportsBranches_item {rest : List Step} (hrest : ReportsBranches none rest) (index : Index)
    (name : Option String) : ReportsBranches name (.item index :: rest) := by
  intro came hop current v h before
  have hnext (i : Nat) (came : Hop) (w : Value) :=
    hrest (LooksUp.unnamed came w) (before ++ [⟨name, .array (.bound i)⟩])
  rw [ofSteps, walkFrom_array h]
  cases v with
  | sequence items =>
      cases index with
      | bound i =>
          cases hitem : items[i]? with
          | none =>
              have hnil : (Step.item (.bound i)).advance (.sequence items) = [] := by
                simp [Step.advance, Index.select, hitem]
              simp [branches_of_advance_nil hnil, hitem, Branch.report, ofSteps]
          | some w =>
              have hadvance : (Step.item (.bound i)).advance (.sequence items) =
                  [⟨.item (.bound i), .item items (some i), w⟩] := by
                simp [Step.advance, Index.select, hitem]
              rw [branches_of_advance_ne_nil (by simp [hadvance]), hadvance]
              simp [hitem, hnext, Function.comp_def, Branch.report_past, ofSteps]
      | _ =>
          cases items with
          | nil =>
              rw [branches_of_advance_nil rfl, observeEmpty_ofSteps]
              rfl
          | cons w items =>
              rw [branches_of_advance_ne_nil (by simp [Step.advance, Index.select])]
              simp only [Step.advance, Index.select, List.flatMap_map, List.map_flatMap,
                List.map_map, hnext]
              simp only [after_append_singleton]
              rfl
  | _ =>
      rw [branches_of_advance_nil rfl]
      cases index <;> rfl

theorem reportsBranches (name : Option String) (steps : List Step) :
    ReportsBranches name steps := by
  induction steps generalizing name with
  | nil => exact reportsBranches_nil name
  | cons step rest ih =>
      cases step with
      | key next => exact reportsBranches_key (ih (some next)) name
      | item index => exact reportsBranches_item (ih none) index name

/-- A key looked up in a document that is no mapping. -/
theorem walkFrom_noMapping (came : Hop) {d : Value} (h : d.isMapping = false) (name : String)
    (rest : List Step) :
    walkFrom [] came d (ofSteps (some name) rest) =
      [(Hop.key d name).observe .parentNotFound none (ofSteps (some name) rest)] := by
  have hreach (kind : SegmentKind) : (Segment.mk (some name) kind).reach d = .noMapping := by
    cases d with
    | mapping entries => cases h
    | _ => rfl
  cases rest with
  | nil => simp [ofSteps, element, walkFrom, hreach, observeEnd, Segment.hop, after]
  | cons step rest =>
      cases step with
      | key next => simp [ofSteps, object, walkFrom, hreach, Segment.hop, after]
      | item index => cases index <;> simp [ofSteps, walkFrom, hreach, Segment.hop, after]

/-- A walk reports one observation for each branch that its path takes through
the document, in their order. -/
theorem walk_ofSteps (name : String) (steps : List Step) (d : Value) :
    (ofSteps (some name) steps).walk d =
      (branches .start d (.key name :: steps)).map fun b => b.expand.observation := by
  have hsteps : .key name :: steps.map Step.expand = (.key name :: steps).map Step.expand := rfl
  have hexpand : (branches .start d (.key name :: steps)).map (fun b => b.expand.observation) =
      (branches .start d (.key name :: steps.map Step.expand)).map Branch.observation := by
    rw [hsteps, branches_map_expand, List.map_map]
    rfl
  rw [hexpand, walk, expand_ofSteps]
  cases hget : d.get? name with
  | some v =>
      have hadvance : (Step.key name).advance d = [⟨.key name, .key d name, v⟩] := by
        simp [Step.advance, hget]
      rw [branches_of_advance_ne_nil (by simp [hadvance]), hadvance,
        reportsBranches _ _ (LooksUp.named .start hget)]
      simp [Function.comp_def, Branch.observation_past_key, after]
  | none =>
      rw [branches_of_advance_nil (Step.advance_key_eq_nil_iff.mpr hget)]
      cases d with
      | mapping entries =>
          rw [walkFrom_missing _ _ hget]
          rfl
      | _ => exact walkFrom_noMapping _ rfl name _

end Path

end FieldPath
