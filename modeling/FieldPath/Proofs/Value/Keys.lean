import FieldPath.Value.Basic
import Mathlib.Data.List.Induction
import Mathlib.Data.List.Nodup

/-!
# Distinct keys

A mapping has one value under each of its keys. Inserting entries one after the other
keeps to that, and so do all mappings that are made in this way.
-/

namespace FieldPath

namespace Entries

variable {α : Type} {key : String} {value : α}

theorem map_fst_insert (entries : Entries α) :
    (insert key value entries).map Prod.fst =
      if key ∈ entries.map Prod.fst then entries.map Prod.fst
      else entries.map Prod.fst ++ [key] := by
  induction entries with
  | nil => rfl
  | cons entry rest ih =>
      obtain ⟨k, v⟩ := entry
      by_cases hk : k = key
      · simp [insert, hk]
      · have hne : ¬key = k := Ne.symm hk
        rw [insert, if_neg hk, List.map_cons, ih]
        by_cases hmem : key ∈ rest.map Prod.fst <;> simp [hmem, hne]

theorem nodup_insert {entries : Entries α} (h : (entries.map Prod.fst).Nodup) :
    ((insert key value entries).map Prod.fst).Nodup := by
  rw [map_fst_insert]
  split_ifs with hmem
  · exact h
  · exact List.nodup_append_comm.mp (List.nodup_cons.mpr ⟨hmem, h⟩)

theorem insert_of_notMem {entries : Entries α} (h : key ∉ entries.map Prod.fst) :
    insert key value entries = entries ++ [(key, value)] := by
  induction entries with
  | nil => rfl
  | cons entry rest ih =>
      obtain ⟨hfirst, hrest⟩ := List.ne_and_not_mem_of_not_mem_cons h
      rw [insert, if_neg (Ne.symm hfirst), ih hrest, List.cons_append]

theorem lookup_cons (k other : String) (v : α) (entries : Entries α) :
    List.lookup other ((k, v) :: entries) = if other = k then some v else entries.lookup other := by
  rw [List.lookup_cons]
  by_cases hother : other = k
  · rw [if_pos hother, beq_iff_eq.mpr hother]
  · rw [if_neg hother, beq_eq_false_iff_ne.mpr hother]

theorem lookup_eq_none_iff {entries : Entries α} :
    entries.lookup key = none ↔ key ∉ entries.map Prod.fst := by
  rw [List.lookup_eq_none_iff, List.mem_map]
  constructor
  · rintro hne ⟨entry, hentry, rfl⟩
    simpa using hne entry hentry
  · intro hnot entry hentry
    exact bne_iff_ne.mpr fun hkey => hnot ⟨entry, hentry, hkey.symm⟩

theorem lookup_insert (entries : Entries α) (other : String) :
    (insert key value entries).lookup other =
      if other = key then some value else entries.lookup other := by
  induction entries with
  | nil => exact lookup_cons key other value []
  | cons entry rest ih =>
      obtain ⟨k, v⟩ := entry
      by_cases hk : k = key
      · rw [insert, if_pos hk, lookup_cons, lookup_cons, hk]
        split <;> rfl
      · rw [insert, if_neg hk, lookup_cons, lookup_cons, ih]
        by_cases hother : other = k
        · rw [if_pos hother, if_pos hother, if_neg (hother ▸ hk)]
        · rw [if_neg hother, if_neg hother]

theorem mem_of_lookup {entries : Entries α} (h : entries.lookup key = some value) :
    (key, value) ∈ entries := by
  obtain ⟨before, after, rfl, -⟩ := List.lookup_eq_some_iff.mp h
  simp

theorem mem_insert {entries : Entries α} {entry : String × α}
    (h : entry ∈ insert key value entries) : entry = (key, value) ∨ entry ∈ entries := by
  induction entries with
  | nil => exact .inl (List.mem_singleton.mp h)
  | cons first rest ih =>
      obtain ⟨k, v⟩ := first
      by_cases hk : k = key
      · rw [insert, if_pos hk, hk] at h
        exact (List.mem_cons.mp h).imp_right (List.mem_cons_of_mem _)
      · rw [insert, if_neg hk] at h
        rcases List.mem_cons.mp h with rfl | hrest
        · exact .inr List.mem_cons_self
        · exact (ih hrest).imp_right (List.mem_cons_of_mem _)

end Entries

namespace Value

/-- Entries under distinct keys are inserted as they are. -/
theorem ofEntries_of_nodup {entries : List (String × Value)}
    (h : (entries.map Prod.fst).Nodup) : ofEntries entries = mapping entries := by
  suffices ∀ before : List (String × Value), ((before ++ entries).map Prod.fst).Nodup →
      entries.foldl (fun entries pair => Entries.insert pair.1 pair.2 entries) before =
        before ++ entries from congrArg mapping (this [] h)
  clear h
  induction entries with
  | nil => exact fun before _ => (List.append_nil before).symm
  | cons entry rest ih =>
      intro before hnodup
      have hnew : entry.1 ∉ before.map Prod.fst := by
        rw [List.map_append, List.map_cons] at hnodup
        exact fun hmem => List.disjoint_of_nodup_append hnodup hmem List.mem_cons_self
      rw [List.append_cons] at hnodup
      rw [List.foldl_cons, Entries.insert_of_notMem hnew, ih _ hnodup, ← List.append_cons]

/-- Every entry is one of those inserted. -/
theorem exists_ofEntries_eq (pairs : List (String × Value)) :
    ∃ entries, ofEntries pairs = mapping entries ∧ ∀ entry ∈ entries, entry ∈ pairs := by
  suffices ∀ before : List (String × Value),
      ∀ entry ∈ pairs.foldl (fun entries pair => Entries.insert pair.1 pair.2 entries) before,
        entry ∈ before ∨ entry ∈ pairs from
    ⟨_, rfl, fun entry hentry => (this [] entry hentry).resolve_left (List.not_mem_nil)⟩
  induction pairs with
  | nil => exact fun before entry hentry => .inl hentry
  | cons pair rest ih =>
      intro before entry hentry
      rcases ih _ entry hentry with hinsert | hrest
      · rcases Entries.mem_insert hinsert with rfl | hbefore
        · exact .inr List.mem_cons_self
        · exact .inl hbefore
      · exact .inr (List.mem_cons_of_mem _ hrest)

/-- Every key stands where it came first, and what came last under it is there. -/
theorem ofEntries_merges (pairs : List (String × Value)) :
    ∃ entries, ofEntries pairs = mapping entries ∧
      entries.map Prod.fst = (pairs.map Prod.fst).eraseDups ∧
      ∀ key, entries.lookup key = pairs.reverse.lookup key := by
  refine ⟨_, rfl, ?_⟩
  -- from the end, as the entries are inserted one after the other
  induction pairs using List.reverseRec with
  | nil => exact ⟨rfl, fun _ => rfl⟩
  | append_singleton pairs pair ih =>
      obtain ⟨hkeys, hlookup⟩ := ih
      rw [List.foldl_append, List.foldl_cons, List.foldl_nil]
      constructor
      · rw [Entries.map_fst_insert, hkeys, List.map_append, List.eraseDups_append]
        by_cases hmem : pair.1 ∈ pairs.map Prod.fst
        · simp [List.removeAll, hmem]
        · simp [List.removeAll, hmem, List.eraseDups_cons]
      · intro key
        rw [Entries.lookup_insert, hlookup, List.reverse_append]
        exact (Entries.lookup_cons pair.1 key pair.2 pairs.reverse).symm

/-- No mapping has two entries under one key, at any depth. -/
inductive KeysDistinct : Value → Prop where
  | scalar {v : Value} (h : v.isContainer = false) : KeysDistinct v
  | sequence {items : List Value} (elements : ∀ v ∈ items, KeysDistinct v) :
      KeysDistinct (sequence items)
  | mapping {entries : List (String × Value)} (keys : (entries.map Prod.fst).Nodup)
      (values : ∀ entry ∈ entries, KeysDistinct entry.2) : KeysDistinct (mapping entries)

theorem keysDistinct_ofEntries {pairs : List (String × Value)}
    (h : ∀ pair ∈ pairs, pair.2.KeysDistinct) : (ofEntries pairs).KeysDistinct := by
  suffices ∀ entries : List (String × Value), (entries.map Prod.fst).Nodup →
      (∀ entry ∈ entries, entry.2.KeysDistinct) →
      (mapping (pairs.foldl (fun entries pair => Entries.insert pair.1 pair.2 entries)
        entries)).KeysDistinct from this [] List.nodup_nil (by simp)
  induction pairs with
  | nil => exact fun entries keys values => .mapping keys values
  | cons pair rest ih =>
      obtain ⟨hpair, hrest⟩ := List.forall_mem_cons.mp h
      intro entries keys values
      refine ih hrest _ (Entries.nodup_insert keys) fun entry hentry => ?_
      rcases Entries.mem_insert hentry with rfl | hold
      · exact hpair
      · exact values entry hold

end Value

end FieldPath
