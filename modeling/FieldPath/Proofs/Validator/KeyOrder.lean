import FieldPath.Proofs.Validator.Verdict
import FieldPath.Proofs.Value.Keys
import FieldPath.Proofs.Walk.Simulation
import Mathlib.Data.List.Perm.Subperm

/-!
# The order of keys

Documents that are the same but for the order of keys cannot be told apart: their
walks make the same observations, and validators of the built-in rules report the same
violations.
-/

namespace FieldPath

/-! ## Values that are the same -/

namespace Value

variable {entries others : List (String × Value)}

theorem sameItems_iff {items items' : List Value} :
    sameItems items items' = true ↔ List.Forall₂ (fun v w => v.same w = true) items items' := by
  induction items generalizing items' with
  | nil => cases items' <;> simp [sameItems]
  | cons v rest ih => cases items' <;> simp [sameItems, ih]

theorem sameEntries_iff :
    sameEntries entries others = true ↔
      ∀ entry ∈ entries, ∃ w, others.lookup entry.1 = some w ∧ entry.2.same w = true := by
  induction entries with
  | nil => simp [sameEntries]
  | cons entry rest ih =>
      obtain ⟨key, v⟩ := entry
      rw [sameEntries, Bool.and_eq_true, ih, List.forall_mem_cons]
      cases others.lookup key <;> simp

/-- What two values that are the same have in common. Only numbers, and what holds
them, can be the same without being equal. -/
theorem same_cases {v w : Value} (h : v.same w = true) :
    (v = w ∧ v.isContainer = false) ∨
      (∃ n m, v = number n ∧ w = number m ∧ n.same m = true) ∨
      (∃ items items', v = sequence items ∧ w = sequence items' ∧
        List.Forall₂ (fun x y => x.same y = true) items items') ∨
      ∃ entries others, v = mapping entries ∧ w = mapping others ∧
        entries.length = others.length ∧ sameEntries entries others = true := by
  cases v <;> cases w <;> simp_all [same, sameItems_iff, isContainer, isMapping, isSequence]

/-- Entries of the same number, found among each other, are under the same keys. -/
theorem keys_subset_of_sameEntries (distinct : (entries.map Prod.fst).Nodup)
    (hlength : entries.length = others.length) (h : sameEntries entries others = true) :
    others.map Prod.fst ⊆ entries.map Prod.fst := by
  have hsubset : entries.map Prod.fst ⊆ others.map Prod.fst := by
    intro key hkey
    obtain ⟨entry, hentry, rfl⟩ := List.mem_map.mp hkey
    obtain ⟨w, hw, -⟩ := sameEntries_iff.mp h entry hentry
    exact List.mem_map.mpr ⟨_, Entries.mem_of_lookup hw, rfl⟩
  exact ((distinct.subperm hsubset).perm_of_length_le (by simp [hlength])).symm.subset

theorem rel_lookup_of_sameEntries (distinct : (entries.map Prod.fst).Nodup)
    (values : ∀ entry ∈ entries, entry.2.KeysDistinct) (hlength : entries.length = others.length)
    (h : sameEntries entries others = true) (key : String) :
    Option.Rel (fun v w => v.KeysDistinct ∧ v.same w = true) (entries.lookup key)
      (others.lookup key) := by
  cases hlookup : entries.lookup key with
  | none =>
      have habsent : key ∉ entries.map Prod.fst := Entries.lookup_eq_none_iff.mp hlookup
      have hsubset := keys_subset_of_sameEntries distinct hlength h
      rw [Entries.lookup_eq_none_iff.mpr fun hkey => habsent (hsubset hkey)]
      exact .none
  | some v =>
      have hmem := Entries.mem_of_lookup hlookup
      obtain ⟨w, hw, hsame⟩ := sameEntries_iff.mp h _ hmem
      rw [hw]
      exact .some ⟨values _ hmem, hsame⟩

/-- Look-ups do not tell the order of distinct keys. -/
theorem isSimulation_same (names : Set String) :
    IsSimulation names fun v w => v.KeysDistinct ∧ v.same w = true := by
  rintro v w ⟨hdistinct, hsame⟩
  rcases same_cases hsame with ⟨rfl, hscalar⟩ | ⟨n, m, rfl, rfl, -⟩ |
    ⟨items, items', rfl, rfl, helements⟩ | ⟨entries, others, rfl, rfl, hlength, hentries⟩
  · exact .scalar hscalar hscalar
  · exact .scalar rfl rfl
  · cases hdistinct with
    | scalar h => cases h
    | sequence elements =>
        refine .sequence (List.forall₂_iff_zip.mpr ⟨helements.length_eq, fun hmem => ?_⟩)
        exact ⟨elements _ (List.of_mem_zip hmem).1, (List.forall₂_iff_zip.mp helements).2 hmem⟩
  · cases hdistinct with
    | scalar h => cases h
    | mapping keys values =>
        exact .mapping fun name _ => rel_lookup_of_sameEntries keys values hlength hentries name

def sameOption : Option Value → Option Value → Bool
  | none, none => true
  | some v, some w => v.same w
  | _, _ => false

end Value

/-- Equality of observations. The order of entries in what they show does not count. -/
def Observation.same (o o' : Observation) : Bool :=
  Value.sameOption o.value o'.value && Value.sameOption o.parent o'.parent &&
    o.path == o'.path && o.name == o'.name && o.index == o'.index && o.outcome == o'.outcome

/-! ## Verdicts on what is the same -/

section

variable {R : Value → Value → Prop} {o o' : Observation}

theorem Observation.Related.same (hR : ∀ v w, R v w → v.same w = true) (h : o.Related R o') :
    o.same o' = true := by
  have hoption {v w : Option Value} (hvw : Option.Rel R v w) : Value.sameOption v w = true := by
    cases hvw with
    | none => rfl
    | some hvw => exact hR _ _ hvw
  simp [Observation.same, hoption h.value, hoption h.parent, h.path_eq, h.name_eq, h.index_eq,
    h.outcome_eq]

theorem Binary64.isWhole_of_isZero {x : Binary64} (h : x.isZero = true) : x.isWhole = true := by
  have hmagnitude : x.magnitude = 0 := eq_of_beq h
  have hscaled : x.scaled = 0 := by
    simp [scaled, significand, hmagnitude, hiddenBit]
  simp [isWhole, isFinite, hmagnitude, hscaled, infinityWord]

/-- The two zeros are the only equal numbers of different words, and both are whole. -/
theorem Number.isWhole_of_same {n m : Number} (h : n.same m = true) : n.isWhole = m.isWhole := by
  cases n <;> cases m <;> try first | rfl | cases h
  rename_i x y
  simp only [same, Binary64.numericEq, Bool.and_eq_true, Bool.or_eq_true, beq_iff_eq] at h
  obtain ⟨-, hbits | ⟨hx, hy⟩⟩ := h
  · obtain ⟨bits⟩ := x
    cases hbits
    rfl
  · exact (Binary64.isWhole_of_isZero hx).trans (Binary64.isWhole_of_isZero hy).symm

namespace Rule

/-- The built-in rules look at nothing but the value. -/
theorem accepts_congr {rule : Rule} (hrule : rule.IsBuiltIn) (o o' : Observation) (v : Value) :
    rule.accepts o v = rule.accepts o' v := by
  rw [Bool.eq_iff_iff]
  by_cases hne : rule = required
  · subst hne
    rw [required_accepts_iff, required_accepts_iff]
  · rw [accepts_iff_describes hrule hne, accepts_iff_describes hrule hne]

/-- The built-in rules see no difference between values that are the same. -/
theorem accepts_of_same {rule : Rule} (hrule : rule.IsBuiltIn) {v w : Value}
    (h : v.same w = true) : rule.accepts o v = rule.accepts o' w := by
  rcases Value.same_cases h with ⟨rfl, -⟩ | ⟨n, m, rfl, rfl, hnumber⟩ |
    ⟨items, items', rfl, rfl, -⟩ | ⟨entries, others, rfl, rfl, -⟩
  · exact accepts_congr hrule o o' v
  · rcases hrule.cases with rfl | rfl | rfl | rfl
    · rfl
    · rfl
    · rfl
    · rw [integer_accepts_number, integer_accepts_number]
      exact Number.isWhole_of_same hnumber
  · rcases hrule.cases with rfl | rfl | rfl | rfl <;> rfl
  · rcases hrule.cases with rfl | rfl | rfl | rfl <;> rfl

theorem check_of_related {rule : Rule} (hrule : rule.IsBuiltIn)
    (hR : ∀ v w, R v w → v.same w = true) (h : o.Related R o') : rule.check o = rule.check o' := by
  have hvalue := h.value
  unfold check
  rw [h.outcome_eq]
  generalize o.value = x, o'.value = y at hvalue
  cases hvalue with
  | none => cases o.outcome <;> rfl
  | some hvw =>
      cases o.outcome with
      | found => exact accepts_of_same hrule (hR _ _ hvw)
      | _ => rfl

theorem reportedPath_of_related (rule : Rule) (h : o.Related R o') :
    rule.reportedPath o = rule.reportedPath o' := by
  have hempty : o.isEmptySequence = o'.isEmptySequence := by
    rw [Observation.isEmptySequence, Observation.isEmptySequence, h.path_eq, h.index_eq,
      h.outcome_eq]
  rw [reportedPath, reportedPath, hempty, h.path_eq]

end Rule

/-- Fields of built-in rules report the same for walks that go side by side. -/
theorem FieldRules.validate_of_related {f : FieldRules} (hf : ∀ rule ∈ f.rules, rule.IsBuiltIn)
    (hR : ∀ v w, R v w → v.same w = true) {a b : Value}
    (h : List.Forall₂ (Observation.Related R) (f.path.walk a) (f.path.walk b)) :
    f.validate a = f.validate b := by
  rw [← List.forall₂_eq_eq_eq]
  refine List.rel_flatMap h fun o o' ho => ?_
  have hfails : (f.rules.filter fun rule => !rule.check o) =
      f.rules.filter fun rule => !rule.check o' :=
    List.filter_congr fun rule hrule => by rw [Rule.check_of_related (hf rule hrule) hR ho]
  have hviolation : f.violation o = f.violation o' := by
    funext rule
    rw [violation, violation, rule.reportedPath_of_related ho, ho.outcome_eq]
  rw [List.forall₂_eq_eq_eq, hfails, hviolation]

end

namespace Value

/-- The order of keys cannot be observed. Documents that are the same, with one value
under each key, give observations that are the same and, by built-in rules, equal
violations, all in the same order. -/
theorem indistinguishable_of_same {a b : Value} (ha : a.KeysDistinct) (h : a.same b = true) :
    (∀ p : Path, List.Forall₂ (fun o o' => o.same o' = true) (p.walk a) (p.walk b)) ∧
      ∀ v : Validator, (∀ f ∈ v.fields, ∀ rule ∈ f.rules, rule.IsBuiltIn) →
        v.validate a = v.validate b := by
  have hwalk (p : Path) : List.Forall₂
      (Observation.Related fun v w => v.KeysDistinct ∧ v.same w = true) (p.walk a) (p.walk b) :=
    Path.walk_related (isSimulation_same Set.univ) (fun _ _ _ _ => trivial) ⟨ha, h⟩
  constructor
  · intro p
    exact (hwalk p).imp fun _ _ ho => ho.same fun _ _ hvw => hvw.2
  · intro v hv
    exact List.flatMap_congr fun f hf =>
      FieldRules.validate_of_related (hv f hf) (fun _ _ hvw => hvw.2) (hwalk f.path)

/-- Keys change places at both depths, and one of the zeros is negative. -/
theorem indistinguishable_of_same_nested :
    ∃ a b, a = mapping [("x", .number (.float .zero)),
        ("y", .sequence [mapping [("u", .null), ("v", .bool true)]])] ∧
      b = mapping [("y", .sequence [mapping [("v", .bool true), ("u", .null)]]),
        ("x", .number (.float (.ofWord true 0)))] ∧
      a.KeysDistinct ∧ a.same b = true ∧
      (∀ p : Path, List.Forall₂ (fun o o' => o.same o' = true) (p.walk a) (p.walk b)) ∧
        ∀ v : Validator, (∀ f ∈ v.fields, ∀ rule ∈ f.rules, rule.IsBuiltIn) →
          v.validate a = v.validate b := by
  have hrow : (mapping [("u", .null), ("v", .bool true)]).KeysDistinct :=
    .mapping (by decide) (by simp [KeysDistinct.scalar, isContainer, isMapping, isSequence])
  have ha : (mapping [("x", .number (.float .zero)),
      ("y", .sequence [mapping [("u", .null), ("v", .bool true)]])]).KeysDistinct := by
    refine .mapping (by decide) (List.forall_mem_cons.mpr ⟨.scalar rfl, ?_⟩)
    exact List.forall_mem_singleton.mpr (.sequence (List.forall_mem_singleton.mpr hrow))
  have hsame : (mapping [("x", .number (.float .zero)),
      ("y", .sequence [mapping [("u", .null), ("v", .bool true)]])]).same
      (mapping [("y", .sequence [mapping [("v", .bool true), ("u", .null)]]),
        ("x", .number (.float (.ofWord true 0)))]) = true := by
    decide +kernel
  exact ⟨_, _, rfl, rfl, ha, hsame, indistinguishable_of_same ha hsame⟩

end Value

end FieldPath
