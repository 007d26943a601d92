import FieldPath.Proofs.Json.Characters
import FieldPath.Proofs.Json.RoundTrip
import FieldPath.Proofs.Walk.Simulation

/-!
# Lines of observations

The JSON line of an observation has no control characters and reads back as what the
observation tells, its parent left out. So observations with the same line tell the same.
-/

namespace FieldPath

/-! ## Values that walks find -/

namespace Path

theorem observeEnd_value_isSome_iff (path : Path) (hop : Hop) (r : Reach) :
    (observeEnd path hop r).value.isSome = true ↔ (observeEnd path hop r).outcome = .found := by
  cases r <;> simp [observeEnd, Hop.observe]

theorem observeEmpty_value_isSome_iff (before : List Segment) (s : Segment) (next : Path) :
    (observeEmpty before s next).value.isSome = true ↔
      (observeEmpty before s next).outcome = .found := by
  cases next with
  | last t =>
      simp only [observeEmpty, Hop.observe]
      split <;> simp
  | link t rest =>
      simp only [observeEmpty]
      split <;> simp [Hop.observe]

/-- Of any chain: there is a value exactly where one was found. -/
theorem value_isSome_iff_of_mem_walkFrom {p : Path} {before : List Segment} {came : Hop}
    {current : Value} {o : Observation} (h : o ∈ walkFrom before came current p) :
    o.value.isSome = true ↔ o.outcome = .found := by
  induction p generalizing before came current with
  | last s =>
      rw [List.mem_singleton.mp h]
      exact observeEnd_value_isSome_iff _ _ _
  | link s next ih =>
      have hnothing {hop : Hop} {path : Path} {outcome : Outcome}
          (ho : o ∈ [hop.observe outcome none path]) (hmissed : outcome ≠ .found) :
          o.value.isSome = true ↔ o.outcome = .found := by
        rw [List.mem_singleton.mp ho]
        exact iff_of_false Bool.false_ne_true hmissed
      rw [walkFrom] at h
      dsimp only at h
      split at h
      · rw [List.mem_singleton.mp h]
        exact observeEnd_value_isSome_iff _ _ _
      · exact hnothing h (by decide)
      · exact hnothing h (by decide)
      · exact ih h
      · split at h
        · exact ih h
        · exact hnothing h (by decide)
      · rw [List.mem_singleton.mp h]
        exact observeEmpty_value_isSome_iff _ _ _
      · obtain ⟨x, -, hx⟩ := List.mem_flatMap.mp h
        exact ih hx
      · exact hnothing h (by decide)

theorem value_isSome_iff_of_mem_walk {p : Path} {d : Value} {o : Observation} (h : o ∈ p.walk d) :
    o.value.isSome = true ↔ o.outcome = .found :=
  value_isSome_iff_of_mem_walkFrom h

end Path

namespace Value

/-- Whatever look-ups lead to has distinct keys if what they start from has. -/
theorem isSimulation_keysDistinct (names : Set String) :
    IsSimulation names fun v w => v.KeysDistinct ∧ v = w := by
  rintro v w ⟨hdistinct, rfl⟩
  cases hdistinct with
  | scalar h => exact .scalar h h
  | sequence elements =>
      exact .sequence (List.forall₂_same.mpr fun v hv => ⟨elements v hv, rfl⟩)
  | @mapping entries keys values =>
      refine .mapping fun name _ => ?_
      cases hlookup : entries.lookup name with
      | none => exact .none
      | some v =>
          exact .some ⟨values (name, v) (Entries.mem_of_lookup hlookup), rfl⟩

end Value

namespace Path

theorem keysDistinct_of_mem_walk {p : Path} {d : Value} (hd : d.KeysDistinct) {o : Observation}
    (h : o ∈ p.walk d) {v : Value} (hv : o.value = some v) : v.KeysDistinct := by
  have hwalks := walk_related (p := p) (Value.isSimulation_keysDistinct Set.univ)
    (fun _ _ _ _ => trivial) ⟨hd, rfl⟩
  have hvalue := (List.forall₂_same.mp hwalks o h).value
  rw [hv] at hvalue
  cases hvalue with
  | some hrel => exact hrel.1

end Path

/-! ## What a line tells -/

namespace Observation

/-- The value is one that JSON holds in full, and the index fits into a machine word. -/
structure IsExact (o : Observation) : Prop where
  integers : ∀ v ∈ o.value, ∀ n ∈ v.numbers, n.isInteger = true ∧ n.IsCanonical
  nesting : ∀ v ∈ o.value, v.nesting ≤ 126
  index_lt : ∀ i ∈ o.index, i < 2 ^ 64

/-- The entries that tell of an observation, in the order of its line. -/
structure IsToldBy (o : Observation) (entries : List (String × Value)) : Prop where
  keys : entries.map Prod.fst = ["value", "path", "name", "index", "outcome"]
  value : entries.lookup "value" = some (o.value.getD .null)
  path : entries.lookup "path" = some (.string o.path.text)
  name : entries.lookup "name" = some (.string o.name)
  noIndex : o.index = none → entries.lookup "index" = some .null
  index : ∀ i : Nat, o.index = some i →
    ∃ n : Number, entries.lookup "index" = some (.number n) ∧ n.toInt? = some (i : Int)
  outcome : entries.lookup "outcome" = some (.string o.outcome.key)

structure TellsSame (o o' : Observation) : Prop where
  value_eq : o'.value = o.value
  path_eq : o'.path.text = o.path.text
  name_eq : o'.name = o.name
  index_eq : o'.index = o.index
  outcome_eq : o'.outcome = o.outcome

end Observation

theorem Outcome.key_injective {a b : Outcome} (h : a.key = b.key) : a = b := by
  cases a <;> cases b <;> first | rfl | exact absurd h (by decide)

namespace Observation

variable {o o' : Observation} {entries : List (String × Value)}

theorem isExact_toValue (hkeys : ∀ v ∈ o.value, v.KeysDistinct) (h : o.IsExact) :
    o.toValue.IsExact 127 := by
  have hvalue : (o.value.getD .null).IsExact 126 := by
    cases hv : o.value with
    | none => exact Value.isExact_null
    | some v => exact ⟨hkeys v hv, h.integers v hv, h.nesting v hv⟩
  unfold toValue
  refine Value.isExact_mapping
    (by decide : ["value", "path", "name", "index", "outcome"].Nodup) ?_
  simp only [List.forall_mem_cons]
  refine ⟨hvalue, Value.isExact_string _, Value.isExact_string _, ?_, Value.isExact_string _,
    List.forall_mem_nil _⟩
  cases hi : o.index with
  | none => exact Value.isExact_null
  | some i =>
      have hint := Number.toInt?_ofUInt64 (h.index_lt i hi)
      exact Value.isExact_number
        (Number.ofInt?_eq_some_iff.mpr ⟨Number.ofUInt64_isCanonical _, hint⟩)

theorem exists_toValue (h : o.IsExact) :
    ∃ entries, o.toValue = .mapping entries ∧ o.IsToldBy entries := by
  refine ⟨_, rfl, rfl, rfl, rfl, rfl, ?_, ?_, rfl⟩
  · intro hnone
    rw [hnone]
    rfl
  · intro i hi
    rw [hi]
    exact ⟨_, rfl, Number.toInt?_ofUInt64 (h.index_lt i hi)⟩

/-- The entries leave nothing open of what they tell. -/
theorem IsToldBy.tellsSame (h : o.IsToldBy entries) (h' : o'.IsToldBy entries)
    (hfound : o.value.isSome = true ↔ o.outcome = .found)
    (hfound' : o'.value.isSome = true ↔ o'.outcome = .found) : o.TellsSame o' := by
  have houtcome : o'.outcome = o.outcome := by
    have hkey := h'.outcome.symm.trans h.outcome
    exact Outcome.key_injective (by simpa using hkey)
  have hvalue : o'.value.getD .null = o.value.getD .null :=
    Option.some.inj (h'.value.symm.trans h.value)
  refine ⟨?_, by simpa using h'.path.symm.trans h.path, by simpa using h'.name.symm.trans h.name,
    ?_, houtcome⟩
  · rw [houtcome, ← hfound] at hfound'
    cases hv : o.value <;> cases hv' : o'.value <;> simp_all
  · cases hi : o.index with
    | none =>
        cases hi' : o'.index with
        | none => rfl
        | some i' =>
            obtain ⟨n, hn, -⟩ := h'.index i' hi'
            cases hn.symm.trans (h.noIndex hi)
    | some i =>
        obtain ⟨n, hn, hint⟩ := h.index i hi
        cases hi' : o'.index with
        | none => cases hn.symm.trans (h'.noIndex hi')
        | some i' =>
            obtain ⟨n', hn', hint'⟩ := h'.index i' hi'
            cases hn.symm.trans hn'
            exact congrArg some (Int.ofNat_inj.mp (Option.some.inj (hint'.symm.trans hint)))

end Observation

namespace Path

/-- The line of an observation is JSON without control characters, and reading it gives what
the observation tells. Another observation has that line only if it tells the same. -/
theorem read?_jsonLine {p : Path} {d : Value} {o : Observation} (hd : d.KeysDistinct)
    (ho : o ∈ p.walk d) (hexact : o.IsExact) :
    NoControls o.jsonLine.toList ∧
    (∃ entries, Json.read? o.jsonLine = some (.mapping entries) ∧ o.IsToldBy entries) ∧
    ∀ (q : Path) (e : Value) (o' : Observation), e.KeysDistinct → o' ∈ q.walk e → o'.IsExact →
      o'.jsonLine = o.jsonLine → o.TellsSame o' := by
  have hread {q : Path} {e : Value} {o' : Observation} (he : e.KeysDistinct)
      (ho' : o' ∈ q.walk e) (hexact' : o'.IsExact) :
      ∃ entries, Json.read? o'.jsonLine = some (.mapping entries) ∧ o'.IsToldBy entries := by
    obtain ⟨entries, hvalue, htold⟩ := o'.exists_toValue hexact'
    refine ⟨entries, ?_, htold⟩
    rw [← hvalue]
    have hkeys : ∀ v ∈ o'.value, v.KeysDistinct := fun v hv => keysDistinct_of_mem_walk he ho' hv
    exact Json.read?_text (o'.isExact_toValue hkeys hexact')
  obtain ⟨entries, hentries, htold⟩ := hread hd ho hexact
  refine ⟨o.toValue.noControls_text, ⟨entries, hentries, htold⟩, ?_⟩
  intro q e o' he ho' hexact' hline
  obtain ⟨entries', hentries', htold'⟩ := hread he ho' hexact'
  rw [hline, hentries] at hentries'
  cases hentries'
  exact htold.tellsSame htold' (value_isSome_iff_of_mem_walk ho) (value_isSome_iff_of_mem_walk ho')

/-- A line feed and a quote in the name, the largest integer as the value; and the same element
in front of another one, in another document. -/
theorem read?_jsonLine_element :
    ∃ (p : Path) (v d e : Value) (o o' : Observation),
      p = .array (some "a\n\"") (.element none) ∧
      v = .mapping [("k\t", .number (.unsigned 18446744073709551615))] ∧
      d = .mapping [("a\n\"", .sequence [v])] ∧ e = .mapping [("a\n\"", .sequence [v, .null])] ∧
      (d.KeysDistinct ∧ o ∈ p.walk d ∧ o.IsExact) ∧
      (e.KeysDistinct ∧ o' ∈ p.walk e ∧ o'.IsExact ∧ o'.jsonLine = o.jsonLine) ∧
      o.jsonLine = "\x7b\"value\":\x7b\"k\\t\":18446744073709551615\x7d," ++
        "\"path\":\"a\\n\\\"[0]\",\"name\":\"\",\"index\":0,\"outcome\":\"found\"\x7d" ∧
      NoControls o.jsonLine.toList ∧
      (∃ entries, Json.read? o.jsonLine = some (.mapping entries) ∧ o.IsToldBy entries) ∧
      o.TellsSame o' := by
  have hv : (Value.mapping [("k\t", .number (.unsigned 18446744073709551615))]).IsExact 126 :=
    Value.isExact_mapping (by decide) (List.forall_mem_singleton.mpr
      (Value.isExact_number (i := 18446744073709551615) (by decide)))
  have hd : (Value.mapping [("a\n\"", .sequence [.mapping [("k\t",
      .number (.unsigned 18446744073709551615))]])]).KeysDistinct :=
    .mapping (by decide) (List.forall_mem_singleton.mpr
      (.sequence (List.forall_mem_singleton.mpr hv.keys)))
  have he : (Value.mapping [("a\n\"", .sequence [.mapping [("k\t",
      .number (.unsigned 18446744073709551615))], .null])]).KeysDistinct :=
    .mapping (by decide) (List.forall_mem_singleton.mpr
      (.sequence (List.forall_mem_cons.mpr
        ⟨hv.keys, List.forall_mem_singleton.mpr (.scalar rfl)⟩)))
  have hexact (parent : Option Value) (path : Path) :
      (⟨some (.mapping [("k\t", .number (.unsigned 18446744073709551615))]), parent, path, "",
        some 0, .found⟩ : Observation).IsExact :=
    ⟨by rintro _ ⟨⟩; exact hv.integers, by rintro _ ⟨⟩; exact hv.nesting, by rintro _ ⟨⟩; decide⟩
  have hfound := read?_jsonLine (p := .array (some "a\n\"") (.element none)) hd
    List.mem_cons_self (hexact _ _)
  exact ⟨_, _, _, _, _, _, rfl, rfl, rfl, rfl, ⟨hd, List.mem_cons_self, hexact _ _⟩,
    ⟨he, List.mem_cons_self, hexact _ _, rfl⟩, by decide +kernel, hfound.1, hfound.2.1,
    hfound.2.2 (.array (some "a\n\"") (.element none)) _ _ he List.mem_cons_self (hexact _ _) rfl⟩

end Path

end FieldPath
