import FieldPath.Proofs.Walk.Report
import Mathlib.Data.List.Forall2
import Mathlib.Data.Set.Defs

/-!
# Walks over related documents

A walk learns of a value only what its look-ups tell: whether it is a mapping or a
sequence, what stands under the names of the path, and what the elements are. Over
two documents that these do not tell apart, the walks of any chain go side by side.
-/

namespace FieldPath

/-! ## Relations that look-ups keep -/

namespace Value

/-- Look-ups tell the same of both values: related values under each of the names,
related elements, or that there is nothing to look into. -/
inductive Matches (names : Set String) (R : Value → Value → Prop) : Value → Value → Prop where
  | mapping {entries entries' : List (String × Value)}
      (values : ∀ name ∈ names, Option.Rel R (entries.lookup name) (entries'.lookup name)) :
      Matches names R (.mapping entries) (.mapping entries')
  | sequence {items items' : List Value} (elements : List.Forall₂ R items items') :
      Matches names R (.sequence items) (.sequence items')
  | scalar {v w : Value} (left : v.isContainer = false) (right : w.isContainer = false) :
      Matches names R v w

def IsSimulation (names : Set String) (R : Value → Value → Prop) : Prop :=
  ∀ v w, R v w → v.Matches names R w

end Value

structure Hop.Related (R : Value → Value → Prop) (hop hop' : Hop) : Prop where
  parent : Option.Rel R hop.parent hop'.parent
  name_eq : hop'.name = hop.name
  index_eq : hop'.index = hop.index

/-- The observations tell the same but for the values in them, which are related. -/
structure Observation.Related (R : Value → Value → Prop) (o o' : Observation) : Prop where
  value : Option.Rel R o.value o'.value
  parent : Option.Rel R o.parent o'.parent
  path_eq : o'.path = o.path
  name_eq : o'.name = o.name
  index_eq : o'.index = o.index
  outcome_eq : o'.outcome = o.outcome

namespace Hop.Related

variable {R : Value → Value → Prop} {hop hop' : Hop}

theorem start : Hop.start.Related R .start := ⟨.none, rfl, rfl⟩

theorem key {v w : Value} (h : R v w) (name : String) : (Hop.key v name).Related R (.key w name) :=
  ⟨.some h, rfl, rfl⟩

theorem item {items items' : List Value} (h : R (.sequence items) (.sequence items'))
    (index : Option Nat) : (Hop.item items index).Related R (.item items' index) :=
  ⟨.some h, rfl, rfl⟩

theorem observe (h : hop.Related R hop') (outcome : Outcome) (path : Path) {v w : Option Value}
    (hvw : Option.Rel R v w) :
    (hop.observe outcome v path).Related R (hop'.observe outcome w path) :=
  ⟨hvw, h.parent, rfl, h.name_eq, h.index_eq, rfl⟩

/-- Single observations that found nothing. -/
theorem forall₂_observe (h : hop.Related R hop') (outcome : Outcome) (path : Path) :
    List.Forall₂ (Observation.Related R) [hop.observe outcome none path]
      [hop'.observe outcome none path] :=
  .cons (h.observe outcome path .none) .nil

end Hop.Related

/-! ## Segments -/

inductive Reach.Related (R : Value → Value → Prop) : Reach → Reach → Prop where
  | noMapping : Related R .noMapping .noMapping
  | missing : Related R .missing .missing
  | value {v w : Value} (h : R v w) : Related R (.value v) (.value w)

namespace Segment

variable {names : Set String} {R : Value → Value → Prop} {v w : Value}

theorem hop_related (s : Segment) (h : R v w) {came came' : Hop} (hcame : came.Related R came') :
    (s.hop v came).Related R (s.hop w came') := by
  unfold hop
  cases s.name with
  | none => exact hcame
  | some name => exact .key h name

theorem reach_scalar {name : String} (hv : v.isContainer = false) (kind : SegmentKind) :
    (Segment.mk (some name) kind).reach v = .noMapping := by
  cases v with
  | mapping entries => cases hv
  | _ => rfl

theorem reach_related (hR : Value.IsSimulation names R) {s : Segment}
    (hs : ∀ name ∈ s.name, name ∈ names) (h : R v w) :
    (s.reach v).Related R (s.reach w) := by
  obtain ⟨name, kind⟩ := s
  cases name with
  | none => exact .value h
  | some name =>
      cases hR v w h with
      | @mapping entries entries' values =>
          have hlookup := values name (hs name rfl)
          simp only [reach]
          generalize entries.lookup name = x, entries'.lookup name = y at hlookup
          cases hlookup with
          | none => exact .missing
          | some hxy => exact .value hxy
      | sequence elements => exact .noMapping
      | scalar left right =>
          rw [reach_scalar left, reach_scalar right]
          exact .noMapping

end Segment

namespace Path

theorem LooksUp.of_reach {s : Segment} {current v : Value} (h : s.reach current = .value v)
    (came : Hop) : LooksUp s.name came current (s.hop current came) v :=
  ⟨fun _ => rfl, fun _ => h⟩

section

variable {before : List Segment} {came : Hop} {current : Value} {s : Segment}

/-- An element is what is meant, whatever comes after it. -/
theorem walkFrom_element (hs : s.kind = .element) (next : Path) :
    walkFrom before came current (link s next) =
      [observeEnd (after before (link s next)) (s.hop current came) (s.reach current)] := by
  rw [walkFrom, hs]

/-- Without a value there is no container for what comes next. -/
theorem walkFrom_unreached (hs : s.kind ≠ .element) (hreach : ∀ v, s.reach current ≠ .value v)
    (next : Path) :
    walkFrom before came current (link s next) =
      [(s.hop current came).observe .parentNotFound none (after before (link s next))] := by
  rw [walkFrom]
  cases hkind : s.kind <;> cases hr : s.reach current <;> simp_all

/-- Nothing can be looked up in a scalar. -/
theorem walkFrom_scalar {v : Value} (hs : s.kind ≠ .element) (hreach : s.reach current = .value v)
    (hv : v.isContainer = false) (next : Path) :
    walkFrom before came current (link s next) =
      [(s.hop current came).observe .parentNotFound none (after before (element s.name))] := by
  rw [walkFrom, hreach]
  cases hkind : s.kind with
  | element => exact absurd hkind hs
  | object =>
      cases v with
      | mapping entries => cases hv
      | _ => rfl
  | array index =>
      cases v with
      | sequence items => cases hv
      | _ => cases index <;> rfl

end

/-! ## Walks -/

section

variable {names : Set String} {R : Value → Value → Prop} {hop hop' : Hop}

theorem observeEnd_related (hhop : hop.Related R hop') (path : Path) {x y : Reach}
    (h : x.Related R y) : (observeEnd path hop x).Related R (observeEnd path hop' y) := by
  cases h with
  | noMapping => exact hhop.observe _ _ .none
  | missing => exact hhop.observe _ _ .none
  | value h => exact hhop.observe _ _ (.some h)

theorem observeEmpty_related (hnil : R (.sequence []) (.sequence [])) (before : List Segment)
    (s : Segment) (next : Path) :
    (observeEmpty before s next).Related R (observeEmpty before s next) := by
  have hhop : (Hop.item [] none).Related R (.item [] none) := .item hnil none
  cases next with
  | last t => exact hhop.observe _ _ .none
  | link t rest =>
      by_cases ht : t.kind = .element
      · simpa only [observeEmpty, if_pos ht] using hhop.observe _ _ .none
      · simpa only [observeEmpty, if_neg ht] using hhop.observe _ _ .none

theorem forall₂_zipIdx {items items' : List Value} (h : List.Forall₂ R items items') (start : Nat) :
    List.Forall₂ (fun x y => R x.1 y.1 ∧ y.2 = x.2) (items.zipIdx start) (items'.zipIdx start) := by
  induction h generalizing start with
  | nil => exact .nil
  | cons hxy _ ih => exact .cons ⟨hxy, rfl⟩ (ih (start + 1))

theorem rel_getElem? {items items' : List Value} (h : List.Forall₂ R items items') (i : Nat) :
    Option.Rel R items[i]? items'[i]? := by
  induction h generalizing i with
  | nil => exact .none
  | cons hxy _ ih =>
      cases i with
      | zero => exact .some hxy
      | succ i => exact ih i

def WalksAlike (R : Value → Value → Prop) (p : Path) : Prop :=
  ∀ {v w : Value}, R v w → ∀ {came came' : Hop}, came.Related R came' → ∀ before : List Segment,
    List.Forall₂ (Observation.Related R) (walkFrom before came v p) (walkFrom before came' w p)

/-- Elements with the same position are visited one after the other. -/
theorem walkFrom_items {next : Path} (hnext : WalksAlike R next) {name : Option String}
    {current current' : Value} {items items' : List Value} {came came' : Hop}
    (h : LooksUp name came current hop (.sequence items))
    (h' : LooksUp name came' current' hop' (.sequence items'))
    (hitems : R (.sequence items) (.sequence items')) (elements : List.Forall₂ R items items')
    (before : List Segment) (index : Index) :
    List.Forall₂ (Observation.Related R)
      (walkFrom before came current (link ⟨name, .array index⟩ next))
      (walkFrom before came' current' (link ⟨name, .array index⟩ next)) := by
  have hvisit : List.Forall₂ (Observation.Related R)
      (items.zipIdx.flatMap fun x =>
        walkFrom (before ++ [⟨name, .array (.bound x.2)⟩]) (.item items (some x.2)) x.1 next)
      (items'.zipIdx.flatMap fun x =>
        walkFrom (before ++ [⟨name, .array (.bound x.2)⟩]) (.item items' (some x.2)) x.1 next) := by
    refine List.rel_flatMap (forall₂_zipIdx elements 0) ?_
    rintro ⟨x, _⟩ ⟨y, i⟩ ⟨hxy, rfl⟩
    exact hnext hxy (.item hitems (some i)) _
  rw [walkFrom_array h, walkFrom_array h']
  cases index with
  | bound i =>
      have hitem := rel_getElem? elements i
      simp only
      generalize items[i]? = x, items'[i]? = y at hitem
      cases hitem with
      | none => exact (Hop.Related.item hitems _).forall₂_observe _ _
      | some hxy => exact hnext hxy (.item hitems _) _
  | _ =>
      cases elements with
      | nil => exact .cons (observeEmpty_related hitems _ _ _) .nil
      | cons hxy elements => exact hvisit

theorem walksAlike (hR : Value.IsSimulation names R) {p : Path}
    (hp : ∀ s ∈ p.segments, ∀ name ∈ s.name, name ∈ names) : WalksAlike R p := by
  induction p with
  | last s =>
      intro v w h came came' hcame before
      have hreach := Segment.reach_related hR (hp s (List.mem_singleton_self s)) h
      exact .cons (observeEnd_related (s.hop_related h hcame) _ hreach) .nil
  | link s next ih =>
      intro v w h came came' hcame before
      obtain ⟨hs, hnext⟩ := List.forall_mem_cons.mp hp
      have hhop := s.hop_related h hcame
      have hreach := Segment.reach_related hR hs h
      by_cases hkind : s.kind = .element
      · rw [walkFrom_element hkind, walkFrom_element hkind]
        exact .cons (observeEnd_related hhop _ hreach) .nil
      generalize hv : s.reach v = x, hw : s.reach w = y at hreach
      cases hreach with
      | noMapping =>
          rw [walkFrom_unreached hkind (by simp [hv]), walkFrom_unreached hkind (by simp [hw])]
          exact hhop.forall₂_observe _ _
      | missing =>
          rw [walkFrom_unreached hkind (by simp [hv]), walkFrom_unreached hkind (by simp [hw])]
          exact hhop.forall₂_observe _ _
      | @value x y hxy =>
          have hx := LooksUp.of_reach hv came
          have hy := LooksUp.of_reach hw came'
          cases hR x y hxy with
          | scalar left right =>
              rw [walkFrom_scalar hkind hv left, walkFrom_scalar hkind hw right]
              exact hhop.forall₂_observe _ _
          | mapping values =>
              obtain ⟨name, kind⟩ := s
              cases kind with
              | element => exact absurd rfl hkind
              | object =>
                  rw [walkFrom_object hx, walkFrom_object hy]
                  exact ih hnext hxy hhop _
              | array index =>
                  rw [walkFrom_array hx, walkFrom_array hy]
                  exact hhop.forall₂_observe _ _
          | sequence elements =>
              obtain ⟨name, kind⟩ := s
              cases kind with
              | element => exact absurd rfl hkind
              | object =>
                  rw [walkFrom_object hx, walkFrom_object hy]
                  exact hhop.forall₂_observe _ _
              | array index => exact walkFrom_items (ih hnext) hx hy hxy elements before index

theorem segments_map (f : Segment → Segment) (p : Path) :
    (p.map f).segments = p.segments.map f := by
  induction p with
  | last s => rfl
  | link s next ih => exact congrArg (f s :: ·) ih

/-- Walks of any chain cannot tell related documents apart. -/
theorem walk_related (hR : Value.IsSimulation names R) {p : Path}
    (hp : ∀ s ∈ p.segments, ∀ name ∈ s.name, name ∈ names) {v w : Value} (h : R v w) :
    List.Forall₂ (Observation.Related R) (p.walk v) (p.walk w) := by
  refine walksAlike hR ?_ h .start []
  rw [expand, segments_map, List.forall_mem_map]
  exact hp

end

end Path

end FieldPath
