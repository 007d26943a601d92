import FieldPath.Proofs.Path.Shape
import FieldPath.Proofs.Walk.Retrace

/-!
# Repairs

An observation that found no element names all that is missing: its parent lacks
the key, or is empty. With that one element supplied in the document, the walk finds
it there, and makes all other observations as before.
-/

namespace FieldPath

/-! ## Changes inside a value -/

def Entries.modify {α : Type} (key : String) (f : α → α) : Entries α → Entries α
  | [] => []
  | (k, v) :: rest => if k = key then (k, f v) :: rest else (k, v) :: Entries.modify key f rest

theorem Entries.lookup_modify {α : Type} (key : String) (f : α → α) (entries : Entries α) :
    (Entries.modify key f entries).lookup key = (entries.lookup key).map f := by
  induction entries with
  | nil => rfl
  | cons entry rest ih =>
      obtain ⟨k, v⟩ := entry
      by_cases hkey : k = key
      · simp [Entries.modify, hkey]
      · have hne : (key == k) = false := beq_false_of_ne (Ne.symm hkey)
        simp [Entries.modify, hkey, List.lookup_cons, hne, ih]

namespace Value

def modifyAt (f : Value → Value) : List Step → Value → Value
  | [], v => f v
  | .key name :: rest, .mapping entries => .mapping (Entries.modify name (modifyAt f rest) entries)
  | .item (.bound i) :: rest, .sequence items => .sequence (items.modify i (modifyAt f rest))
  | _ :: _, v => v

/-- Appends an entry to a mapping, or makes an empty sequence one of a single element. -/
def supply (name : String) (new : Value) : Value → Value
  | mapping entries => mapping (entries ++ [(name, new)])
  | sequence [] => sequence [new]
  | other => other

theorem get?_modifyAt (f : Value → Value) {name : String} (rest : List Step) {v w : Value}
    (h : v.get? name = some w) :
    (v.modifyAt f (.key name :: rest)).get? name = some (w.modifyAt f rest) := by
  cases v with
  | mapping entries =>
      have hlookup : entries.lookup name = some w := h
      simp [modifyAt, get?, Entries.lookup_modify, hlookup]
  | _ => cases h

end Value

namespace Step

def hopName : Step → String
  | key name => name
  | item _ => ""

def supplied (container new : Value) (step : Step) : Advance where
  taken :=
    match step with
    | key name => key name
    | item _ => item (.bound 0)
  hop :=
    match step with
    | key name => .key (Value.supply name new container) name
    | item _ => .item [new] (some 0)
  value := new

theorem advance_supply {step : Step} (hopen : step.position? = none) {container : Value}
    (hnothing : step.FindsNothing container) (new : Value) :
    step.advance (Value.supply step.hopName new container) = [step.supplied container new] := by
  cases step with
  | key name =>
      obtain ⟨hmapping, hmissing⟩ := hnothing
      cases container with
      | mapping entries =>
          have hlookup : entries.lookup name = none := hmissing
          have hget : (Value.mapping (entries ++ [(name, new)])).get? name = some new := by
            simp [Value.get?, List.lookup_append, hlookup]
          simp [advance, Value.supply, hopName, supplied, hget]
      | _ => cases hmapping
  | item index =>
      have hempty : container = .sequence [] := hnothing
      subst hempty
      cases index with
      | bound i => cases hopen
      | _ => rfl

end Step

/-! ## Branches through a changed value -/

namespace Branch

/-- The branches tell the same, whatever the container of the last look-up. -/
structure Alike (x y : Branch) : Prop where
  taken_eq : y.taken = x.taken
  left_eq : y.left = x.left
  value_eq : y.value = x.value
  name_eq : y.hop.name = x.hop.name
  index_eq : y.hop.index = x.hop.index

theorem Alike.past {x y : Branch} (h : x.Alike y) (step : Step) :
    (x.past step).Alike (y.past step) :=
  ⟨congrArg (step :: ·) h.taken_eq, h.left_eq, h.value_eq, h.name_eq, h.index_eq⟩

def supplied (b : Branch) (step : Step) (new : Value) : Branch :=
  let a := step.supplied b.value new
  ⟨b.taken ++ [a.taken], [], a.hop, new⟩

/-- The branch `y` stands where `x` stood: for `b` there is `c` now, and any other
branch is as it was. -/
def Replaces (b c x y : Branch) : Prop :=
  (x.chosen = b.chosen → y = c) ∧ (x.chosen ≠ b.chosen → x.Alike y)

theorem Replaces.past {b c x y : Branch} (h : Replaces b c x y) (step : Step) :
    Replaces (b.past step) (c.past step) (x.past step) (y.past step) := by
  have hchosen : (x.past step).chosen = (b.past step).chosen ↔ x.chosen = b.chosen := by
    cases hposition : step.position? <;> simp [chosen, hposition]
  unfold Replaces
  rw [Ne, hchosen]
  exact ⟨fun heq => congrArg _ (h.1 heq), fun hne => (h.2 hne).past step⟩

theorem Replaces.of_alike_past {b c x y : Branch} {i j : Nat} (hne : j ≠ i) (h : x.Alike y) :
    Replaces (b.past (.item (.bound i))) c (x.past (.item (.bound j)))
      (y.past (.item (.bound j))) := by
  have hchosen : (x.past (.item (.bound j))).chosen ≠ (b.past (.item (.bound i))).chosen := by
    intro heq
    exact hne (List.cons.inj heq).1
  exact ⟨fun heq => absurd heq hchosen, fun _ => h.past _⟩

end Branch

/-- The look-up before the steps matters to branches that take none of them. -/
theorem branches_alike (hop hop' : Hop) (hname : hop'.name = hop.name)
    (hindex : hop'.index = hop.index) (v : Value) (steps : List Step) :
    List.Forall₂ Branch.Alike (branches hop v steps) (branches hop' v steps) := by
  cases steps with
  | nil => exact .cons ⟨rfl, rfl, rfl, hname, hindex⟩ .nil
  | cons step rest =>
      by_cases hnil : step.advance v = []
      · rw [branches_of_advance_nil hnil, branches_of_advance_nil hnil]
        exact .cons ⟨rfl, rfl, rfl, hname, hindex⟩ .nil
      · rw [branches_of_advance_ne_nil hnil, branches_of_advance_ne_nil hnil,
          List.forall₂_same]
        exact fun b _ => ⟨rfl, rfl, rfl, rfl, rfl⟩

theorem chosen_ne_of_getElem? {hop : Hop} {v : Value} {steps : List Step} {m n : Nat}
    {x y : Branch} (hx : (branches hop v steps)[m]? = some x)
    (hy : (branches hop v steps)[n]? = some y) (hne : m ≠ n) : x.chosen ≠ y.chosen := by
  have hnodup : ((branches hop v steps).map Branch.chosen).Nodup := by
    rw [List.Nodup, List.pairwise_map]
    exact (branches_pairwise hop v steps).imp fun hlt => ne_of_lt hlt
  intro heq
  have hlt : m < ((branches hop v steps).map Branch.chosen).length := by
    rw [List.length_map]
    exact (List.getElem?_eq_some_iff.mp hx).1
  have hsame : ((branches hop v steps).map Branch.chosen)[m]? =
      ((branches hop v steps).map Branch.chosen)[n]? := by
    rw [List.getElem?_map, List.getElem?_map, hx, hy, Option.map_some, Option.map_some, heq]
  exact hne ((List.getElem?_inj hlt hnodup).mp hsame)

theorem zipIdx_modify (items : List Value) (i : Nat) (f : Value → Value) :
    (items.modify i f).zipIdx = items.zipIdx.map fun (w, j) => (if j = i then f w else w, j) := by
  apply List.ext_getElem?
  intro j
  rw [List.getElem?_zipIdx, List.getElem?_modify, List.getElem?_map, List.getElem?_zipIdx]
  cases items[j]? with
  | none => rfl
  | some w =>
      simp [@eq_comm _ i j]

theorem branches_item {index : Index} (hopen : (Step.item index).position? = none)
    {items : List Value} (hne : items ≠ []) (hop : Hop) (rest : List Step) :
    branches hop (.sequence items) (.item index :: rest) =
      items.zipIdx.flatMap fun (w, j) =>
        (branches (.item items (some j)) w rest).map (.past (.item (.bound j))) := by
  have hselect := Index.select_of_isWildcard (Step.isWildcard_of_position? hopen) items
  have hadvance : (Step.item index).advance (.sequence items) ≠ [] :=
    mt (Step.advance_sequence_eq_nil_iff hopen).mp hne
  rw [branches_of_advance_ne_nil hadvance, Step.advance, hselect, List.flatMap_map]

section

variable {b c : Branch} {w : Value} {rest : List Step} {f : Value → Value}

theorem forall₂_modify_key {name : String} {v : Value} (hget : v.get? name = some w)
    {location : List Step}
    (hbelow : ∀ hop' : Hop, hop'.name = name → hop'.index = none →
      List.Forall₂ (Branch.Replaces b c) (branches (.key v name) w rest)
        (branches hop' (w.modifyAt f location) rest)) (hop hop' : Hop) :
    List.Forall₂ (Branch.Replaces (b.past (.key name)) (c.past (.key name)))
      (branches hop v (.key name :: rest))
      (branches hop' (v.modifyAt f (.key name :: location)) (.key name :: rest)) := by
  have hadvance {v w : Value} (hget : v.get? name = some w) :
      (Step.key name).advance v = [⟨.key name, .key v name, w⟩] := by
    simp [Step.advance, hget]
  rw [branches_of_advance_singleton (hadvance hget),
    branches_of_advance_singleton (hadvance (Value.get?_modifyAt f location hget)),
    List.forall₂_map_left_iff, List.forall₂_map_right_iff]
  exact (hbelow _ rfl rfl).imp fun x y hxy => hxy.past (.key name)

/-- A change of one element changes the branches through it and through no other. -/
theorem forall₂_modify_item {index : Index} (hopen : (Step.item index).position? = none)
    {items : List Value} {i : Nat} (hitem : items[i]? = some w)
    (hbelow : ∀ hop' : Hop, hop'.name = "" → hop'.index = some i →
      List.Forall₂ (Branch.Replaces b c) (branches (.item items (some i)) w rest)
        (branches hop' (f w) rest)) (hop hop' : Hop) :
    List.Forall₂ (Branch.Replaces (b.past (.item (.bound i))) (c.past (.item (.bound i))))
      (branches hop (.sequence items) (.item index :: rest))
      (branches hop' (.sequence (items.modify i f)) (.item index :: rest)) := by
  have hne : items ≠ [] := List.ne_nil_of_mem (List.mem_of_getElem? hitem)
  have hmodified : items.modify i f ≠ [] := by
    rw [Ne, ← List.length_eq_zero_iff, List.length_modify, List.length_eq_zero_iff]
    exact hne
  have hsame : List.Forall₂ (fun x y => x = y ∧ x ∈ items.zipIdx) items.zipIdx items.zipIdx :=
    List.forall₂_same.mpr fun x hx => ⟨rfl, hx⟩
  -- each element has branches of its own, so they are compared element by element
  rw [branches_item hopen hne, branches_item hopen hmodified, zipIdx_modify, List.flatMap_map]
  refine List.rel_flatMap hsame ?_
  rintro ⟨u, j⟩ _ ⟨rfl, hmem⟩
  rw [List.forall₂_map_left_iff, List.forall₂_map_right_iff]
  by_cases hj : j = i
  · subst hj
    have hu : u = w := by
      have hget : items[j]? = some u := List.mem_zipIdx_iff_getElem?.mp hmem
      rw [hitem] at hget
      exact (Option.some.inj hget).symm
    rw [if_pos rfl, hu]
    exact (hbelow _ rfl rfl).imp fun x y hxy => hxy.past (.item (.bound j))
  · have halike := branches_alike (.item items (some j)) (.item (items.modify i f) (some j))
      rfl rfl u rest
    rw [if_neg hj]
    exact halike.imp fun x y hxy => Branch.Replaces.of_alike_past hj hxy

end

/-- Where a branch lacks one element only and that is supplied, the branch finds it, and
the others stay as they are. -/
theorem IsBranch.forall₂_supply {hop : Hop} {d : Value} {steps : List Step} {b : Branch}
    (h : IsBranch hop d steps b) (hopen : ∀ s ∈ steps, s.position? = none) {step : Step}
    (hleft : b.left = [step]) (hnothing : step.FindsNothing b.value) (new : Value) (hop' : Hop)
    (hname : hop'.name = hop.name) (hindex : hop'.index = hop.index) :
    List.Forall₂ (Branch.Replaces b (b.supplied step new)) (branches hop d steps)
      (branches hop' (d.modifyAt (Value.supply step.hopName new) b.taken) steps) := by
  -- the last look-up of `d` is another one after each step, as its container changed
  induction h generalizing hop' with
  | done => cases hleft
  | @stop hop v first rest nowhere =>
      cases hleft
      have hadvance := Step.advance_supply (hopen step List.mem_cons_self) hnothing new
      rw [branches_of_advance_nil nowhere, Value.modifyAt, branches_of_advance_singleton hadvance]
      exact .cons ⟨fun _ => rfl, fun hne => absurd rfl hne⟩ .nil
  | @past hop v first rest a b led onward ih =>
      obtain ⟨hfirst, hrest⟩ := List.forall_mem_cons.mp hopen
      cases first with
      | key name =>
          obtain ⟨w, hw, rfl⟩ := Step.mem_advance_key_iff.mp led
          exact forall₂_modify_key hw (ih hrest hleft hnothing) hop hop'
      | item index =>
          obtain ⟨i, w, -, hw, rfl⟩ := Step.mem_advance_item_iff.mp led
          cases v with
          | sequence items =>
              exact forall₂_modify_item hfirst hw (ih hrest hleft hnothing) hop hop'
          | _ => cases hw

/-! ## Observations of a repaired document -/

namespace Observation

structure Agrees (o o' : Observation) : Prop where
  value_eq : o'.value = o.value
  path_eq : o'.path = o.path
  name_eq : o'.name = o.name
  index_eq : o'.index = o.index
  outcome_eq : o'.outcome = o.outcome

/-- The keys and positions that lead to the container of the last look-up, where that
look-up found no element. -/
def location (o : Observation) : List Step := o.path.steps.dropLast

def supplied (o : Observation) (new d : Value) : Value :=
  d.modifyAt (Value.supply o.name new) o.location

end Observation

namespace Observation

structure FoundInstead (o o' : Observation) (new : Value) : Prop where
  outcome_eq : o'.outcome = .found
  value_eq : o'.value = some new
  place : (∃ entries, o.parent = some (.mapping entries) ∧ o'.path = o.path ∧ o'.name = o.name) ∨
    (o.parent = some (.sequence []) ∧ o'.path = o.path.bindLast 0 ∧ o'.index = some 0)

end Observation

namespace Branch

theorem Alike.agrees {x y : Branch} (h : x.Alike y) :
    x.expand.observation.Agrees y.expand.observation := by
  obtain ⟨taken, left, hop, value⟩ := x
  obtain ⟨taken', left', hop', value'⟩ := y
  obtain ⟨htaken, hleft, hvalue, hname, hindex⟩ := h
  cases htaken
  cases hleft
  cases hvalue
  rcases left with _ | ⟨name | (_ | _ | i), rest⟩ <;> cases taken <;> cases value
  all_goals first | exact ⟨rfl, rfl, rfl, rfl, rfl⟩ | exact ⟨rfl, rfl, hname, hindex, rfl⟩

theorem observation_expand_of_findsNothing {b : Branch} {step : Step}
    (hopen : step.position? = none) (hleft : b.left = [step])
    (hnothing : step.FindsNothing b.value) :
    b.expand.observation = Hop.observe ⟨some b.value, step.hopName, none⟩ .elementNotFound none
      (pathOf (b.taken ++ [step.unbind])) := by
  cases step with
  | key name =>
      obtain ⟨taken, left, hop, value⟩ := b
      cases hleft
      obtain ⟨hmapping, -⟩ := hnothing
      cases value with
      | mapping entries => cases taken <;> rfl
      | _ => cases hmapping
  | item index =>
      have hvalue : b.value = .sequence [] := hnothing
      rw [observation_expand_of_empty hleft (Step.isWildcard_of_position? hopen) hvalue, hvalue]
      rfl

end Branch

namespace IsBranch

variable {hop : Hop} {v : Value} {steps : List Step} {b : Branch}

theorem follow_taken (h : IsBranch hop v steps b) :
    Step.follow b.taken b.chosen v = some b.value := by
  induction h with
  | done => rfl
  | stop => rfl
  | @past hop v step rest a b led _ ih =>
      cases step with
      | key name =>
          obtain ⟨w, hw, rfl⟩ := Step.mem_advance_key_iff.mp led
          exact Option.bind_eq_some_iff.mpr ⟨w, hw, ih⟩
      | item index =>
          obtain ⟨i, w, -, hw, rfl⟩ := Step.mem_advance_item_iff.mp led
          exact Option.bind_eq_some_iff.mpr ⟨w, hw, ih⟩

/-- Where no element is found, one step is left, and it finds nothing in the value. -/
theorem exists_findsNothing (h : IsBranch hop v steps b) (hopen : ∀ s ∈ b.left, s.position? = none)
    (hmissing : b.expand.observation.outcome = .elementNotFound) :
    ∃ step, b.left = [step] ∧ step.position? = none ∧ step.FindsNothing b.value := by
  obtain ⟨step, hleft, hnothing⟩ :=
    (Branch.report_outcome_eq_elementNotFound_iff Branch.pathOf hopen
      fun _ _ hleft => h.advance_eq_nil hleft).mp (b.observation_expand_outcome ▸ hmissing)
  exact ⟨step, hleft, hopen step (by simp [hleft]), hnothing⟩

theorem taken_append_unbind {name : String} (h : IsBranch hop v (.key name :: steps) b)
    {step : Step} {rest : List Step} (hleft : b.left = step :: rest) :
    ∃ more, b.taken ++ [step.unbind] = .key name :: more := by
  rcases h.taken_or_left_eq_key_cons with ⟨more, htaken⟩ | ⟨htaken, hkey⟩
  · exact ⟨more ++ [step.unbind], by rw [htaken]; rfl⟩
  · rw [hleft] at hkey
    cases hkey
    exact ⟨[], by rw [htaken]; rfl⟩

end IsBranch

namespace Path

theorem foundInstead_of_isBranch {name : String} {steps : List Step} {d : Value} {b : Branch}
    (hb : IsBranch .start d (.key name :: steps) b) {step : Step} (hopen : step.position? = none)
    (hleft : b.left = [step]) (hnothing : step.FindsNothing b.value) (new : Value) :
    b.expand.observation.FoundInstead (b.supplied step new).expand.observation new := by
  have hfound : (b.supplied step new).expand.observation = _ :=
    Branch.observation_of_left_nil rfl
  rw [hfound, Branch.observation_expand_of_findsNothing hopen hleft hnothing]
  refine ⟨rfl, rfl, ?_⟩
  cases step with
  | key key =>
      obtain ⟨hmapping, -⟩ := hnothing
      cases hvalue : b.value with
      | mapping entries => exact .inl ⟨entries, rfl, rfl, rfl⟩
      | _ =>
          rw [hvalue] at hmapping
          cases hmapping
  | item index =>
      have hvalue : b.value = .sequence [] := hnothing
      refine .inr ⟨congrArg some hvalue, ?_, rfl⟩
      obtain ⟨front, htaken⟩ := hb.exists_taken_of_left_item hleft
      have hsupplied : (b.supplied (.item index) new).taken =
          .key name :: (front ++ [.item (.bound 0)]) :=
        congrArg (· ++ [Step.item (.bound 0)]) htaken
      rw [hsupplied, htaken]
      exact (bindLast_ofSteps_append_item (some name) front .unbound 0).symm

/-- The container that lacked the element stands where the reported path says. -/
theorem location_of_isBranch {name : String} {steps : List Step} {d : Value} {b : Branch}
    (hb : IsBranch .start d (.key name :: steps) b) {step : Step} (hopen : step.position? = none)
    (hleft : b.left = [step]) (hnothing : step.FindsNothing b.value) :
    b.expand.observation.location = b.taken := by
  obtain ⟨more, hmore⟩ := hb.taken_append_unbind hleft
  rw [Observation.location, Branch.observation_expand_of_findsNothing hopen hleft hnothing]
  have hsteps : (Branch.pathOf (b.taken ++ [step.unbind])).steps = b.taken ++ [step.unbind] := by
    rw [hmore]
    exact steps_ofSteps (some name) more
  rw [Hop.observe, hsteps, List.dropLast_concat]

section

variable {text : String} {p : Path}

theorem forall₂_getElem? {α β : Type} {R : α → β → Prop} {xs : List α} {ys : List β}
    (h : List.Forall₂ R xs ys) {n : Nat} {x : α} {y : β} (hx : xs[n]? = some x)
    (hy : ys[n]? = some y) : R x y := by
  obtain ⟨hxlt, rfl⟩ := List.getElem?_eq_some_iff.mp hx
  obtain ⟨hylt, rfl⟩ := List.getElem?_eq_some_iff.mp hy
  exact h.get hxlt hylt

/-- Where an observation found no element, supplying just that element makes the
observation find it, and leaves all others as they are. -/
theorem walk_supplied (h : parse text = .ok p) {d : Value} {n : Nat} {o : Observation}
    (ho : (p.walk d)[n]? = some o) (hmissing : o.outcome = .elementNotFound) (new : Value) :
    Step.follow o.location (o.location.filterMap Step.position?) d = o.parent ∧
      (p.walk (o.supplied new d)).length = (p.walk d).length ∧
      (∃ o', (p.walk (o.supplied new d))[n]? = some o' ∧ o.FoundInstead o' new) ∧
      ∀ m, m ≠ n → ∀ x y, (p.walk d)[m]? = some x → (p.walk (o.supplied new d))[m]? = some y →
        x.Agrees y := by
  have hopen := position?_of_mem_steps h
  rw [walk_eq_map_branches h, List.getElem?_map, Option.map_eq_some_iff] at ho
  obtain ⟨b, hn, rfl⟩ := ho
  have hb : IsBranch .start d p.steps b := mem_branches_iff.mp (List.mem_of_getElem? hn)
  obtain ⟨step, hleft, hstep, hnothing⟩ :=
    hb.exists_findsNothing (position?_of_mem_left h hb) hmissing
  have hobserved := Branch.observation_expand_of_findsNothing hstep hleft hnothing
  obtain ⟨name, steps, hsteps⟩ := exists_steps_eq_key_cons h
  rw [hsteps] at hb hn hopen
  have hlocation := location_of_isBranch hb hstep hleft hnothing
  have hsupplied : b.expand.observation.supplied new d =
      d.modifyAt (Value.supply step.hopName new) b.taken := by
    rw [Observation.supplied, hlocation, hobserved]
    rfl
  have hrelated := hb.forall₂_supply hopen hleft hnothing new .start rfl rfl
  simp only [hsupplied, walk_eq_map_branches h, hsteps]
  refine ⟨?_, ?_, ?_, ?_⟩
  · rw [hlocation, hobserved]
    exact hb.follow_taken
  · rw [List.length_map, List.length_map]
    exact hrelated.length_eq.symm
  · obtain ⟨y, hy⟩ : ∃ y, (branches .start (d.modifyAt (Value.supply step.hopName new) b.taken)
        (.key name :: steps))[n]? = some y := by
      have hlt := (List.getElem?_eq_some_iff.mp hn).1
      rw [hrelated.length_eq] at hlt
      exact ⟨_, List.getElem?_eq_getElem hlt⟩
    have hreplaced : y = b.supplied step new := (forall₂_getElem? hrelated hn hy).1 rfl
    subst hreplaced
    refine ⟨_, by rw [List.getElem?_map, hy]; rfl, ?_⟩
    exact foundInstead_of_isBranch hb hstep hleft hnothing new
  · intro m hne x y hx hy
    rw [List.getElem?_map, Option.map_eq_some_iff] at hx hy
    obtain ⟨bx, hbx, rfl⟩ := hx
    obtain ⟨by', hby, rfl⟩ := hy
    exact ((forall₂_getElem? hrelated hbx hby).2 (chosen_ne_of_getElem? hbx hn hne)).agrees

/-- Of the two rows under `a`, the second has no cells, and gets one. -/
theorem walk_supplied_nested :
    ∃ p d o, parse "a[].b[]" = .ok p ∧
      d = .mapping [("a", .sequence [.mapping [("b", .sequence [.bool true])],
        .mapping [("b", .sequence [])]])] ∧
      (p.walk d)[1]? = some o ∧ o.outcome = .elementNotFound ∧
      ∀ new, Step.follow o.location (o.location.filterMap Step.position?) d = o.parent ∧
        (p.walk (o.supplied new d)).length = (p.walk d).length ∧
        (∃ o', (p.walk (o.supplied new d))[1]? = some o' ∧ o.FoundInstead o' new) ∧
        ∀ m, m ≠ 1 → ∀ x y, (p.walk d)[m]? = some x → (p.walk (o.supplied new d))[m]? = some y →
          x.Agrees y := by
  have htext : IsPathText "a[].b[]" "a" [.item .unbound, .key "b", .item .unbound] := by
    simp [IsPathText, IsName, Step.IsWritten, Step.chars, isNameChar, Index.text]
  have hparse := parse_of_isPathText htext
  exact ⟨_, _, _, hparse, rfl, rfl, rfl, walk_supplied hparse rfl rfl⟩

end

end Path

end FieldPath
