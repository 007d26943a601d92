import FieldPath.Proofs.Walk.Simulation
import Mathlib.Data.Set.Insert

/-!
# Keys that a path does not name

Entries under keys that a path does not name may be deleted throughout a document:
its walk makes the same observations, with the same entries deleted in what they show.
-/

namespace FieldPath

namespace Value

section

variable (K : Set String) [DecidablePred (· ∈ K)]

mutual

/-- Deletes the entries under the keys in `K` from every mapping, at every depth. -/
def prune : Value → Value
  | sequence items => sequence (pruneItems items)
  | mapping entries => mapping (pruneEntries entries)
  | other => other

def pruneItems : List Value → List Value
  | [] => []
  | v :: rest => prune v :: pruneItems rest

def pruneEntries : List (String × Value) → List (String × Value)
  | [] => []
  | (key, v) :: rest =>
      if key ∈ K then pruneEntries rest else (key, prune v) :: pruneEntries rest

end

theorem prune_sequence (items : List Value) :
    (sequence items).prune K = sequence (items.map (prune K)) := by
  have hitems : pruneItems K items = items.map (prune K) := by
    induction items with
    | nil => rfl
    | cons v rest ih => simp [pruneItems, ih]
  rw [prune, hitems]

theorem prune_mapping (entries : List (String × Value)) :
    (mapping entries).prune K =
      mapping ((entries.filter (·.1 ∉ K)).map fun e => (e.1, e.2.prune K)) := by
  have hentries : pruneEntries K entries =
      (entries.filter (·.1 ∉ K)).map fun e => (e.1, e.2.prune K) := by
    induction entries with
    | nil => rfl
    | cons entry rest ih =>
        obtain ⟨key, v⟩ := entry
        by_cases hkey : key ∈ K <;> simp [pruneEntries, hkey, ih]
  rw [prune, hentries]

/-- What stands under a key that is kept is pruned in its turn. -/
theorem lookup_pruned {key : String} (hkey : key ∉ K) (entries : List (String × Value)) :
    ((entries.filter (·.1 ∉ K)).map fun e => (e.1, e.2.prune K)).lookup key =
      (entries.lookup key).map (prune K) := by
  induction entries with
  | nil => rfl
  | cons entry rest ih =>
      obtain ⟨k, v⟩ := entry
      by_cases hk : k ∈ K
      · have hne : (key == k) = false := beq_false_of_ne (ne_of_mem_of_not_mem hk hkey).symm
        simpa [hk, List.lookup_cons, hne] using ih
      · cases heq : key == k with
        | true => simp [hk, List.lookup_cons, heq]
        | false => simpa [hk, List.lookup_cons, heq] using ih

theorem isSimulation_prune : IsSimulation Kᶜ fun v w => w = v.prune K := by
  rintro v _ rfl
  cases v with
  | sequence items =>
      rw [prune_sequence]
      refine .sequence (List.forall₂_map_right_iff.mpr (List.forall₂_same.mpr ?_))
      intro w _
      rfl
  | mapping entries =>
      rw [prune_mapping]
      refine .mapping fun key hkey => ?_
      rw [lookup_pruned K hkey]
      cases entries.lookup key with
      | none => exact .none
      | some w => exact .some rfl
  | _ => exact .scalar rfl rfl

end

end Value

def Observation.prune (K : Set String) [DecidablePred (· ∈ K)] (o : Observation) : Observation :=
  { o with value := o.value.map (Value.prune K), parent := o.parent.map (Value.prune K) }

theorem Observation.Related.eq_prune {K : Set String} [DecidablePred (· ∈ K)] {o o' : Observation}
    (h : o.Related (fun v w => w = v.prune K) o') : o.prune K = o' := by
  have hmap {v w : Option Value} (hvw : Option.Rel (fun v w => w = v.prune K) v w) :
      v.map (Value.prune K) = w := by
    cases hvw with
    | none => rfl
    | some hvw => exact congrArg some hvw.symm
  obtain ⟨value, parent, path, name, index, outcome⟩ := o
  obtain ⟨value', parent', path', name', index', outcome'⟩ := o'
  obtain ⟨hvalue, hparent, rfl, rfl, rfl, rfl⟩ := h
  simp [prune, hmap hvalue, hmap hparent]

namespace Path

/-- Deleting keys that a path does not name, at every depth of a document, deletes them
from what its walk shows and changes nothing else. -/
theorem walk_prune {p : Path} {K : Set String} [DecidablePred (· ∈ K)]
    (hK : ∀ s ∈ p.segments, ∀ name ∈ s.name, name ∉ K) (d : Value) :
    p.walk (d.prune K) = (p.walk d).map (Observation.prune K) := by
  have hrelated : List.Forall₂ (Observation.Related fun v w => w = v.prune K) (p.walk d)
      (p.walk (d.prune K)) := walk_related (Value.isSimulation_prune K) hK rfl
  have heq : List.Forall₂ (fun o o' => o.prune K = o') (p.walk d) (p.walk (d.prune K)) :=
    hrelated.imp fun _ _ h => h.eq_prune
  rw [← List.forall₂_map_left_iff, List.forall₂_eq_eq_eq] at heq
  exact heq.symm

/-- The cells under `a` have nothing but `z` beside `b`, and one of them is left empty. -/
theorem walk_prune_nested :
    ∃ p d, p = array (some "a") (object none (element (some "b"))) ∧
      d = .mapping [("z", .null), ("a", .sequence [.mapping [("z", .bool true)],
        .mapping [("b", .mapping [("z", .null)])]])] ∧
      (∀ s ∈ p.segments, ∀ name ∈ s.name, name ∉ ({"z"} : Set String)) ∧
      p.walk (d.prune {"z"}) = (p.walk d).map (Observation.prune {"z"}) := by
  have hK : ∀ s ∈ (array (some "a") (object none (element (some "b")))).segments,
      ∀ name ∈ s.name, name ∉ ({"z"} : Set String) := by
    simp [array, object, element, segments]
  exact ⟨_, _, rfl, rfl, hK, walk_prune hK _⟩

end Path

end FieldPath
