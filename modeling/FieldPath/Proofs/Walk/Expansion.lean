import FieldPath.Proofs.Path.Shape
import FieldPath.Proofs.Walk.Retrace

/-!
# Wildcards and positions

A wildcard stands for the positions of all elements: the walk of a path is the
walks of the paths that have each position bound for its first wildcard, one after
the other. So nothing below depends on how an element was chosen.
-/

namespace FieldPath

namespace Step

theorem advance_item_bound {items : List Value} {i : Nat} {w : Value} (h : items[i]? = some w) :
    (item (.bound i)).advance (.sequence items) =
      [⟨.item (.bound i), .item items (some i), w⟩] := by
  simp [advance, Index.select, h]

theorem advance_item_eq_flatMap {index : Index} (hopen : index.isWildcard = true)
    (items : List Value) :
    (item index).advance (.sequence items) =
      (List.range items.length).flatMap fun i => (item (.bound i)).advance (.sequence items) := by
  have hrange : List.range items.length = items.zipIdx.map Prod.snd := by
    rw [List.zipIdx_map_snd, List.range_eq_range']
  rw [advance, Index.select_of_isWildcard hopen, hrange, List.flatMap_map, List.map_eq_flatMap]
  apply List.flatMap_congr
  rintro ⟨w, i⟩ hmem
  exact (advance_item_bound (List.mem_zipIdx_iff_getElem?.mp hmem)).symm

theorem taken_of_not_isOpen {step : Step} (h : step.isOpen = false) {v : Value} {a : Advance}
    (led : a ∈ step.advance v) : a.taken = step := by
  cases step with
  | key name =>
      obtain ⟨w, -, rfl⟩ := mem_advance_key_iff.mp led
      rfl
  | item index =>
      obtain ⟨i, w, hadmits, -, rfl⟩ := mem_advance_item_iff.mp led
      cases index with
      | bound j =>
          cases hadmits
          rfl
      | _ => cases h

end Step

/-- The branches through a nonempty sequence are those through each of its elements. -/
theorem branches_item_eq_flatMap {index : Index} (hopen : index.isWildcard = true) (hop : Hop)
    {items : List Value} (hne : items ≠ []) (rest : List Step) :
    branches hop (.sequence items) (.item index :: rest) =
      (List.range items.length).flatMap fun i =>
        branches hop (.sequence items) (.item (.bound i) :: rest) := by
  have hbound (i : Nat) (hi : i ∈ List.range items.length) :
      (Step.item (.bound i)).advance (.sequence items) ≠ [] := by
    have hlt : i < items.length := List.mem_range.mp hi
    rw [Step.advance_item_bound (List.getElem?_eq_getElem hlt)]
    exact List.cons_ne_nil _ _
  have hadvance := Step.advance_item_eq_flatMap hopen items
  have hopened : (Step.item index).advance (.sequence items) ≠ [] := by
    have hzero : 0 ∈ List.range items.length := List.mem_range.mpr (List.length_pos_iff.mpr hne)
    rw [hadvance]
    intro hnil
    exact hbound 0 hzero (List.flatMap_eq_nil_iff.mp hnil 0 hzero)
  rw [branches_of_advance_ne_nil hopened, hadvance, List.flatMap_assoc]
  apply List.flatMap_congr
  intro i hi
  rw [branches_of_advance_ne_nil (hbound i hi)]

theorem IsBranch.taken_eq {hop : Hop} {v : Value} {steps : List Step} {b : Branch}
    (h : IsBranch hop v steps b) (hclosed : ∀ s ∈ steps, s.isOpen = false) (hleft : b.left = []) :
    b.taken = steps := by
  induction h with
  | done => rfl
  | stop => cases hleft
  | @past hop v step rest a b led _ ih =>
      obtain ⟨hstep, hrest⟩ := List.forall_mem_cons.mp hclosed
      rw [Branch.past_taken, Step.taken_of_not_isOpen hstep led, ih hrest hleft]

namespace Path

/-- Where steps lead to a nonempty sequence, a wildcard there stands for all positions. -/
theorem walk_ofSteps_eq_flatMap {name : String} {front rest : List Step} {index : Index}
    (hopen : index.isWildcard = true) (hclosed : ∀ s ∈ front, s.isOpen = false) {d : Value}
    {o : Observation} {items : List Value} (ho : o ∈ (ofSteps (some name) front).walk d)
    (hfound : o.outcome = .found) (hvalue : o.value = some (.sequence items)) (hne : items ≠ []) :
    (ofSteps (some name) (front ++ .item index :: rest)).walk d =
      (List.range items.length).flatMap fun i =>
        (ofSteps (some name) (front ++ .item (.bound i) :: rest)).walk d := by
  rw [walk_ofSteps] at ho
  obtain ⟨b, hmem, rfl⟩ := List.mem_map.mp ho
  have hb : IsBranch .start d (.key name :: front) b := mem_branches_iff.mp hmem
  have hleft : b.left = [] := by
    rw [← List.isEmpty_iff, ← b.isFound_observation, Observation.isFound, hfound]
    rfl
  have hreached : b.value = .sequence items := by
    rw [Branch.observation_of_left_nil hleft] at hvalue
    exact Option.some.inj hvalue
  have htaken : b.taken = .key name :: front :=
    hb.taken_eq (List.forall_mem_cons.mpr ⟨rfl, hclosed⟩) hleft
  -- whatever steps come after, they are taken from where this one branch ended
  have hfrom (more : List Step) : branches .start d (.key name :: (front ++ more)) =
      (branches b.hop (.sequence items) more).map (.after b.taken) := by
    rw [← hreached, ← hb.branches_taken_append, htaken, List.cons_append]
  rw [walk_ofSteps, hfrom, branches_item_eq_flatMap hopen b.hop hne, List.map_flatMap,
    List.map_flatMap]
  apply List.flatMap_congr
  intro i _
  rw [walk_ofSteps, hfrom]

/-- The walk of a chain of canonical shape is the walks of the chains with a position
bound for its first wildcard, if that wildcard is met at a nonempty sequence. -/
theorem walk_eq_flatMap_bound {p q : Path} {k : Nat} {d : Value} {o : Observation}
    {items : List Value} (hp : p.IsShaped)
    (hk : p.segments.findIdx? Segment.isOpen = some k) (hq : p.truncate (k + 1) = some q)
    (ho : o ∈ q.walk d) (hfound : o.outcome = .found) (hvalue : o.value = some (.sequence items))
    (hne : items ≠ []) :
    ∃ bound : Nat → Path,
      (∀ i, p.modify? (·.withKind (.array (.bound i))) k = some (bound i)) ∧
      p.walk d = (List.range items.length).flatMap fun i => (bound i).walk d := by
  obtain ⟨name, steps, rfl⟩ := hp.exists_steps
  obtain ⟨front, index, rest, rfl, rfl, hopen, hclosed⟩ := exists_split_of_findIdx? hk
  rw [truncate_ofSteps] at hq
  cases hq
  refine ⟨fun i => ofSteps (some name) (front ++ .item (.bound i) :: rest), ?_, ?_⟩
  · intro i
    exact modify?_ofSteps_item _ _ _ _ _
  · exact walk_ofSteps_eq_flatMap hopen hclosed ho hfound hvalue hne

/-- The second row under `a` has two cells, and only the first of them has a `b`. -/
theorem walk_eq_flatMap_bound_nested :
    ∃ p q d items, p = arrayAt (some "a") 1 (array none (object none
        (array (some "b") (element none)))) ∧
      q = arrayAt (some "a") 1 (element none) ∧
      d = .mapping [("a", .sequence [.null, .sequence items])] ∧
      items = [.mapping [("b", .sequence [.bool true])], .null] ∧
      p.IsShaped ∧ p.segments.findIdx? Segment.isOpen = some 1 ∧ p.truncate 2 = some q ∧
      (∃ o ∈ q.walk d, o.outcome = .found ∧ o.value = some (.sequence items)) ∧
      ∃ bound : Nat → Path,
        (∀ i, p.modify? (·.withKind (.array (.bound i))) 1 = some (bound i)) ∧
        p.walk d = (List.range 2).flatMap fun i => (bound i).walk d := by
  have hp : (ofSteps (some "a") [.item (.bound 1), .item .unbound, .key "b",
      .item .unbound]).IsShaped := by
    refine isShaped_iff.mpr (.inr ⟨"a", _, ?_, ?_, rfl⟩) <;>
      simp [IsName, Step.IsWritten, Step.unbind, isNameChar]
  have hrow (row : List Value) : ∃ o ∈ (arrayAt (some "a") 1 (element none)).walk
      (.mapping [("a", .sequence [.null, .sequence row])]),
      o.outcome = .found ∧ o.value = some (.sequence row) :=
    ⟨_, List.mem_singleton_self _, rfl, rfl⟩
  refine ⟨_, _, _, _, rfl, rfl, rfl, rfl, hp, rfl, rfl, hrow _, ?_⟩
  obtain ⟨o, ho, hfound, hvalue⟩ := hrow [.mapping [("b", .sequence [.bool true])], .null]
  exact walk_eq_flatMap_bound hp rfl rfl ho hfound hvalue (List.cons_ne_nil _ _)

end Path

end FieldPath
