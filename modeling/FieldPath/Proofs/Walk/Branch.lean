import FieldPath.Proofs.Path.Step
import FieldPath.Walk

/-!
# Branches

The steps of a path lead through a document along branches, one for each choice
of elements at the sequences met. A branch ends when all steps are taken, or
before a step that leads nowhere. The branches are enumerated in the
lexicographic order of the positions chosen.
-/

namespace FieldPath

/-! ## Where steps lead -/

def Index.Admits : Index → Nat → Prop
  | bound i, position => position = i
  | _, _ => True

def Index.select (items : List Value) : Index → List (Value × Nat)
  | bound i => (items[i]?).toList.map (·, i)
  | _ => items.zipIdx

theorem Index.mem_select_iff {items : List Value} {index : Index} {v : Value} {i : Nat} :
    (v, i) ∈ index.select items ↔ index.Admits i ∧ items[i]? = some v := by
  cases index with
  | bound j =>
      simp only [select, Admits, List.mem_map, Option.mem_toList, Prod.mk.injEq]
      constructor
      · rintro ⟨w, hw, rfl, rfl⟩
        exact ⟨rfl, hw⟩
      · rintro ⟨rfl, hv⟩
        exact ⟨v, hv, rfl, rfl⟩
  | _ => simp [select, Admits, List.mem_zipIdx_iff_getElem?]

theorem Index.select_pairwise (items : List Value) (index : Index) :
    (index.select items).Pairwise fun a b => a.2 < b.2 := by
  have hzip : items.zipIdx.Pairwise fun a b => a.2 < b.2 := by
    rw [← List.pairwise_map, List.zipIdx_map_snd]
    exact List.pairwise_lt_range'
  cases index with
  | bound j => cases h : items[j]? <;> simp [select, h]
  | _ => exact hzip

structure Advance where
  taken : Step
  hop : Hop
  value : Value

namespace Step

def position? : Step → Option Nat
  | item (.bound i) => some i
  | _ => none

/-- All ways to take a step from a value, in the order of the elements. -/
def advance (v : Value) : Step → List Advance
  | key name => ((v.get? name).map fun w => ⟨.key name, .key v name, w⟩).toList
  | item index =>
      match v with
      | .sequence items =>
          (index.select items).map fun (w, i) => ⟨.item (.bound i), .item items (some i), w⟩
      | _ => []

end Step

/-- How far steps led: those taken, those left, the last look-up and its value. -/
structure Branch where
  taken : List Step
  left : List Step
  hop : Hop
  value : Value

namespace Branch

def past (step : Step) (b : Branch) : Branch := { b with taken := step :: b.taken }

def chosen (b : Branch) : List Nat := b.taken.filterMap Step.position?

@[simp] theorem past_taken (step : Step) (b : Branch) : (b.past step).taken = step :: b.taken := rfl

@[simp] theorem past_left (step : Step) (b : Branch) : (b.past step).left = b.left := rfl

end Branch

def branches (hop : Hop) (v : Value) : List Step → List Branch
  | [] => [⟨[], [], hop, v⟩]
  | step :: rest =>
      match step.advance v with
      | [] => [⟨[], step :: rest, hop, v⟩]
      | next => next.flatMap fun a => (branches a.hop a.value rest).map (.past a.taken)

theorem branches_of_advance_nil {step : Step} {v : Value} (h : step.advance v = []) (hop : Hop)
    (rest : List Step) : branches hop v (step :: rest) = [⟨[], step :: rest, hop, v⟩] := by
  simp [branches, h]

theorem branches_of_advance_ne_nil {step : Step} {v : Value} (h : step.advance v ≠ []) (hop : Hop)
    (rest : List Step) :
    branches hop v (step :: rest) =
      (step.advance v).flatMap fun a => (branches a.hop a.value rest).map (.past a.taken) := by
  rw [branches]
  split
  · contradiction
  · rfl

/-- What makes a branch: it is over, its first step leads nowhere, or it goes on
from where its first step led. -/
inductive IsBranch : Hop → Value → List Step → Branch → Prop where
  | done (hop : Hop) (v : Value) : IsBranch hop v [] ⟨[], [], hop, v⟩
  | stop {hop : Hop} {v : Value} {step : Step} {rest : List Step}
      (nowhere : step.advance v = []) : IsBranch hop v (step :: rest) ⟨[], step :: rest, hop, v⟩
  | past {hop : Hop} {v : Value} {step : Step} {rest : List Step} {a : Advance} {b : Branch}
      (led : a ∈ step.advance v) (onward : IsBranch a.hop a.value rest b) :
      IsBranch hop v (step :: rest) (b.past a.taken)

theorem mem_branches_iff {hop : Hop} {v : Value} {steps : List Step} {b : Branch} :
    b ∈ branches hop v steps ↔ IsBranch hop v steps b := by
  constructor
  · intro h
    induction steps generalizing hop v b with
    | nil =>
        cases List.mem_singleton.mp h
        exact .done hop v
    | cons step rest ih =>
        by_cases hnil : step.advance v = []
        · rw [branches_of_advance_nil hnil] at h
          cases List.mem_singleton.mp h
          exact .stop hnil
        · rw [branches_of_advance_ne_nil hnil] at h
          obtain ⟨a, ha, hb⟩ := List.mem_flatMap.mp h
          obtain ⟨c, hc, rfl⟩ := List.mem_map.mp hb
          exact .past ha (ih hc)
  · intro h
    induction h with
    | done hop v => exact List.mem_singleton.mpr rfl
    | stop nowhere =>
        rw [branches_of_advance_nil nowhere]
        exact List.mem_singleton.mpr rfl
    | @past hop v step rest a b led onward ih =>
        rw [branches_of_advance_ne_nil (List.ne_nil_of_mem led)]
        exact List.mem_flatMap.mpr ⟨a, led, List.mem_map.mpr ⟨b, ih, rfl⟩⟩

/-! ## The order of the branches -/

theorem Step.advance_pairwise (step : Step) (v : Value) :
    (step.advance v).Pairwise fun a b =>
      ∃ i j, a.taken = .item (.bound i) ∧ b.taken = .item (.bound j) ∧ i < j := by
  cases step with
  | key name => cases h : v.get? name <;> simp [advance, h]
  | item index =>
      cases v with
      | sequence items =>
          rw [advance, List.pairwise_map]
          exact (index.select_pairwise items).imp fun hlt => ⟨_, _, rfl, rfl, hlt⟩
      | _ => simp [advance]

/-- What relates branches of different elements, and stays with a step put in front of
both, relates each branch to all after it. -/
theorem branches_pairwise_of {R : Branch → Branch → Prop}
    (past : ∀ (step : Step) {b c : Branch}, R b c → R (b.past step) (c.past step))
    (apart : ∀ {i j : Nat}, i < j → ∀ b c : Branch,
      R (b.past (.item (.bound i))) (c.past (.item (.bound j))))
    (hop : Hop) (v : Value) (steps : List Step) : (branches hop v steps).Pairwise R := by
  induction steps generalizing hop v with
  | nil => simp [branches]
  | cons step rest ih =>
      by_cases hnil : step.advance v = []
      · simp [branches_of_advance_nil hnil]
      rw [branches_of_advance_ne_nil hnil, List.pairwise_flatMap]
      constructor
      · intro a _
        rw [List.pairwise_map]
        exact (ih a.hop a.value).imp (past a.taken)
      · refine (step.advance_pairwise v).imp ?_
        rintro a b ⟨i, j, ha, hb, hlt⟩ x hx y hy
        obtain ⟨x, -, rfl⟩ := List.mem_map.mp hx
        obtain ⟨y, -, rfl⟩ := List.mem_map.mp hy
        rw [ha, hb]
        exact apart hlt x y

theorem branches_pairwise (hop : Hop) (v : Value) (steps : List Step) :
    (branches hop v steps).Pairwise fun a b => a.chosen < b.chosen := by
  refine branches_pairwise_of ?_ (fun hlt _ _ => List.Lex.rel hlt) hop v steps
  intro step b c hlt
  cases h : step.position? with
  | none => simpa [Branch.chosen, List.filterMap_cons, h] using hlt
  | some i => simpa [Branch.chosen, List.filterMap_cons, h] using hlt

theorem branches_ne_nil (hop : Hop) (v : Value) (steps : List Step) :
    branches hop v steps ≠ [] := by
  induction steps generalizing hop v with
  | nil => simp [branches]
  | cons step rest ih =>
      by_cases hnil : step.advance v = []
      · simp [branches_of_advance_nil hnil]
      · obtain ⟨a, next, ha⟩ := List.exists_cons_of_ne_nil hnil
        rw [branches_of_advance_ne_nil hnil, ha]
        simp [ih]

/-! ## The ends of branches -/

/-- The steps can be followed from a value, choosing elements at `positions`, so
that `resolved` of them lead to `reached` and no further step does. -/
inductive Ends : List Step → Value → List Nat → Nat → Value → Prop where
  | done (v : Value) : Ends [] v [] 0 v
  | key {name : String} {rest : List Step} {v w reached : Value} {positions : List Nat}
      {resolved : Nat} (found : v.get? name = some w)
      (ends : Ends rest w positions resolved reached) :
      Ends (.key name :: rest) v positions (resolved + 1) reached
  | item {index : Index} {rest : List Step} {v w reached : Value} {i : Nat}
      {positions : List Nat} {resolved : Nat} (admitted : index.Admits i)
      (found : v.at? i = some w) (ends : Ends rest w positions resolved reached) :
      Ends (.item index :: rest) v (i :: positions) (resolved + 1) reached
  | noKey {name : String} {rest : List Step} {v : Value} (missing : v.get? name = none) :
      Ends (.key name :: rest) v [] 0 v
  | noItem {index : Index} {rest : List Step} {v : Value}
      (missing : ∀ i, index.Admits i → v.at? i = none) : Ends (.item index :: rest) v [] 0 v

theorem Step.mem_advance_key_iff {name : String} {v : Value} {a : Advance} :
    a ∈ (key name).advance v ↔ ∃ w, v.get? name = some w ∧ a = ⟨.key name, .key v name, w⟩ := by
  rw [advance, Option.mem_toList, Option.map_eq_some_iff]
  constructor
  · rintro ⟨w, hw, rfl⟩
    exact ⟨w, hw, rfl⟩
  · rintro ⟨w, hw, rfl⟩
    exact ⟨w, hw, rfl⟩

theorem Step.mem_advance_item_iff {index : Index} {v : Value} {a : Advance} :
    a ∈ (item index).advance v ↔ ∃ i w, index.Admits i ∧ v.at? i = some w ∧
      a = ⟨.item (.bound i), ⟨some v, "", some i⟩, w⟩ := by
  cases v with
  | sequence items =>
      simp only [advance, List.mem_map, Prod.exists, Index.mem_select_iff, Value.at?]
      constructor
      · rintro ⟨w, i, ⟨hi, hw⟩, rfl⟩
        exact ⟨i, w, hi, hw, rfl⟩
      · rintro ⟨i, w, hi, hw, rfl⟩
        exact ⟨w, i, ⟨hi, hw⟩, rfl⟩
  | _ => simp [advance, Value.at?]

theorem Step.advance_key_eq_nil_iff {name : String} {v : Value} :
    (key name).advance v = [] ↔ v.get? name = none := by
  cases h : v.get? name <;> simp [advance, h]

theorem Step.advance_item_eq_nil_iff {index : Index} {v : Value} :
    (item index).advance v = [] ↔ ∀ i, index.Admits i → v.at? i = none := by
  rw [List.eq_nil_iff_forall_not_mem]
  constructor
  · intro h i hi
    cases hv : v.at? i with
    | none => rfl
    | some w => exact absurd (mem_advance_item_iff.mpr ⟨i, w, hi, hv, rfl⟩) (h _)
  · intro h a ha
    obtain ⟨i, w, hi, hv, -⟩ := mem_advance_item_iff.mp ha
    rw [h i hi] at hv
    cases hv

/-- Each branch ends where its own choices lead. -/
theorem IsBranch.ends {hop : Hop} {v : Value} {steps : List Step} {b : Branch}
    (h : IsBranch hop v steps b) : Ends steps v b.chosen b.taken.length b.value := by
  induction h with
  | done hop v => exact .done v
  | @stop hop v step rest nowhere =>
      cases step with
      | key name => exact .noKey (Step.advance_key_eq_nil_iff.mp nowhere)
      | item index => exact .noItem (Step.advance_item_eq_nil_iff.mp nowhere)
  | @past hop v step rest a b led onward ih =>
      cases step with
      | key name =>
          obtain ⟨w, hw, rfl⟩ := Step.mem_advance_key_iff.mp led
          exact .key hw ih
      | item index =>
          obtain ⟨i, w, hi, hw, rfl⟩ := Step.mem_advance_item_iff.mp led
          exact .item hi hw ih

/-- Wherever choices lead, some branch makes them. -/
theorem Ends.exists_branch {steps : List Step} {v reached : Value} {positions : List Nat}
    {resolved : Nat} (h : Ends steps v positions resolved reached) (hop : Hop) :
    ∃ b, IsBranch hop v steps b ∧
      b.chosen = positions ∧ b.taken.length = resolved ∧ b.value = reached := by
  induction h generalizing hop with
  | done v => exact ⟨_, .done hop v, rfl, rfl, rfl⟩
  | @key name rest v w reached positions resolved found ends ih =>
      obtain ⟨b, hb, rfl, rfl, rfl⟩ := ih (.key v name)
      exact ⟨_, .past (Step.mem_advance_key_iff.mpr ⟨w, found, rfl⟩) hb, rfl, rfl, rfl⟩
  | @item index rest v w reached i positions resolved admitted found ends ih =>
      obtain ⟨b, hb, rfl, rfl, rfl⟩ := ih ⟨some v, "", some i⟩
      exact ⟨_, .past (Step.mem_advance_item_iff.mpr ⟨i, w, admitted, found, rfl⟩) hb,
        rfl, rfl, rfl⟩
  | noKey missing =>
      exact ⟨_, .stop (Step.advance_key_eq_nil_iff.mpr missing), rfl, rfl, rfl⟩
  | noItem missing =>
      exact ⟨_, .stop (Step.advance_item_eq_nil_iff.mpr missing), rfl, rfl, rfl⟩

/-! ## The steps of a branch -/

namespace IsBranch

variable {hop : Hop} {v : Value} {steps : List Step} {b : Branch}

/-- The steps left are the last ones, as many as were not taken. -/
theorem exists_append_left (h : IsBranch hop v steps b) :
    ∃ front : List Step, steps = front ++ b.left ∧ front.length = b.taken.length := by
  induction h with
  | done => exact ⟨[], rfl, rfl⟩
  | stop => exact ⟨[], rfl, rfl⟩
  | @past _ _ step _ _ _ _ _ ih =>
      obtain ⟨front, hfront, hlength⟩ := ih
      exact ⟨step :: front, congrArg _ hfront, congrArg (· + 1) hlength⟩

theorem left_eq_nil_iff (h : IsBranch hop v steps b) :
    b.left = [] ↔ b.taken.length = steps.length := by
  obtain ⟨front, hfront, hlength⟩ := h.exists_append_left
  rw [hfront, List.length_append, hlength, ← List.length_eq_zero_iff]
  omega

/-- The step before which a branch ends leads nowhere. -/
theorem advance_eq_nil (h : IsBranch hop v steps b) {step : Step} {left : List Step}
    (hleft : b.left = step :: left) : step.advance b.value = [] := by
  induction h with
  | done => cases hleft
  | stop nowhere =>
      cases hleft
      exact nowhere
  | past _ _ ih => exact ih hleft

/-- The steps taken are those given, with the chosen positions bound. -/
theorem taken_append_left (h : IsBranch hop v steps b) :
    b.taken ++ b.left = Step.withIndices b.chosen steps := by
  induction h with
  | done => rfl
  | stop => rfl
  | @past _ v step rest a b led _ ih =>
      rw [Branch.past_taken, Branch.past_left, List.cons_append, ih]
      cases step with
      | key name =>
          obtain ⟨w, hw, rfl⟩ := Step.mem_advance_key_iff.mp led
          exact (Step.withIndices_key _ name rest).symm
      | item index =>
          obtain ⟨i, w, hi, hw, rfl⟩ := Step.mem_advance_item_iff.mp led
          rfl

/-- Positions are bound in the steps taken. -/
theorem isWildcard_of_mem_taken (h : IsBranch hop v steps b) {index : Index}
    (hitem : .item index ∈ b.taken) : index.isWildcard = false := by
  induction h with
  | done => cases hitem
  | stop => cases hitem
  | @past _ v step _ a b led _ ih =>
      rcases List.mem_cons.mp hitem with hfirst | hrest
      · cases step with
        | key name =>
            obtain ⟨w, hw, rfl⟩ := Step.mem_advance_key_iff.mp led
            cases hfirst
        | item index =>
            obtain ⟨i, w, hi, hw, rfl⟩ := Step.mem_advance_item_iff.mp led
            cases hfirst
            rfl
      · exact ih hrest

end IsBranch

/-! ## Wildcards -/

def Branch.expand (b : Branch) : Branch := { b with left := b.left.map Step.expand }

theorem Step.advance_expand (step : Step) (v : Value) :
    step.expand.advance v = step.advance v := by
  cases step with
  | key name => rfl
  | item index => cases index <;> rfl

/-- Wildcards visit what unbound indices visit. -/
theorem branches_map_expand (hop : Hop) (v : Value) (steps : List Step) :
    branches hop v (steps.map Step.expand) = (branches hop v steps).map Branch.expand := by
  induction steps generalizing hop v with
  | nil => rfl
  | cons step rest ih =>
      rw [List.map_cons]
      by_cases hnil : step.advance v = []
      · rw [branches_of_advance_nil hnil,
          branches_of_advance_nil ((step.advance_expand v).trans hnil)]
        rfl
      · rw [branches_of_advance_ne_nil hnil,
          branches_of_advance_ne_nil (by rwa [step.advance_expand v]), step.advance_expand v]
        simp only [ih, List.map_flatMap, List.map_map]
        rfl

end FieldPath
