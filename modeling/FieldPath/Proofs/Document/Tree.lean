import FieldPath.Proofs.Value.Keys
import FieldPath.Proofs.Value.Numbers
import FieldPath.Value.Key
import Mathlib.Data.List.Forall2

/-!
# Documents before their keys are texts

In the tree of a document any node may be a key and keys may recur. What a tree loads as
is said here apart from the readers: keys become texts, the first of those that are alike
gives the place, the last gives the value, and there is no key for a container.
-/

namespace FieldPath

inductive Tree where
  | scalar (value : Value) (isScalar : value.isContainer = false)
  | sequence (items : List Tree)
  | mapping (entries : List (Tree × Tree))

namespace Tree

def ofString (text : String) : Tree := scalar (.string text) rfl

def isContainer : Tree → Bool
  | scalar _ _ => false
  | _ => true

inductive HasKeyText : Tree → String → Prop where
  | string (text : String) : HasKeyText (scalar (.string text) rfl) text
  | null : HasKeyText (scalar .null rfl) "null"
  | yes : HasKeyText (scalar (.bool true) rfl) "true"
  | no : HasKeyText (scalar (.bool false) rfl) "false"
  | integer {n : Number} {i : Int} (h : n.toInt? = some i) :
      HasKeyText (scalar (.number n) rfl) (Number.intText i)
  | float (x : Binary64) : HasKeyText (scalar (.number (.float x)) rfl) (Number.float x).text

/-- The value that a tree is loaded as. -/
inductive LoadsAs : Tree → Value → Prop where
  | scalar {v : Value} (isScalar : v.isContainer = false) : LoadsAs (scalar v isScalar) v
  | sequence {items : List Tree} {values : List Value}
      (elements : List.Forall₂ LoadsAs items values) : LoadsAs (sequence items) (.sequence values)
  | mapping {entries : List (Tree × Tree)} {pairs loaded : List (String × Value)}
      (keys : List.Forall₂ (fun entry pair => entry.1.HasKeyText pair.1) entries pairs)
      (values : List.Forall₂ (fun entry pair => LoadsAs entry.2 pair.2) entries pairs)
      (firstPlaces : loaded.map Prod.fst = (pairs.map Prod.fst).eraseDups)
      (lastValues : ∀ key, loaded.lookup key = pairs.reverse.lookup key) :
      LoadsAs (mapping entries) (.mapping loaded)

inductive HasContainerKey : Tree → Prop where
  | key {entries : List (Tree × Tree)} {entry : Tree × Tree} (h : entry ∈ entries)
      (container : entry.1.isContainer = true) : HasContainerKey (mapping entries)
  | value {entries : List (Tree × Tree)} {entry : Tree × Tree} (h : entry ∈ entries)
      (inner : HasContainerKey entry.2) : HasContainerKey (mapping entries)
  | item {items : List Tree} {t : Tree} (h : t ∈ items) (inner : HasContainerKey t) :
      HasContainerKey (sequence items)

variable {t : Tree} {v : Value} {key : String}

theorem hasKeyText_scalar_iff (isScalar : v.isContainer = false) :
    (scalar v isScalar).HasKeyText key ↔ v.key? = some key := by
  constructor
  · intro h
    cases h with
    | string text => rfl
    | null => rfl
    | yes => rfl
    | no => rfl
    | integer h => exact congrArg some (Number.text_of_toInt? h)
    | float x => rfl
  · intro h
    cases v with
    | null =>
        cases h
        exact .null
    | bool b =>
        cases b with
        | true =>
            cases h
            exact .yes
        | false =>
            cases h
            exact .no
    | number n =>
        cases h
        cases n with
        | float x => exact .float x
        | integer value =>
            rw [Number.text_of_toInt? (n := .integer value) rfl]
            exact .integer rfl
        | unsigned value =>
            rw [Number.text_of_toInt? (n := .unsigned value) rfl]
            exact .integer rfl
    | string text =>
        cases h
        exact .string _
    | sequence items => cases isScalar
    | mapping entries => cases isScalar

theorem isContainer_of_hasKeyText (h : t.HasKeyText key) : t.isContainer = false := by
  cases h <;> rfl

/-- Inserting the pairs one after the other merges them. -/
theorem loadsAs_ofEntries {entries : List (Tree × Tree)} {pairs : List (String × Value)}
    (keys : List.Forall₂ (fun entry pair => entry.1.HasKeyText pair.1) entries pairs)
    (values : List.Forall₂ (fun entry pair => entry.2.LoadsAs pair.2) entries pairs) :
    (mapping entries).LoadsAs (.ofEntries pairs) := by
  obtain ⟨loaded, heq, hplaces, hvalues⟩ := Value.ofEntries_merges pairs
  rw [heq]
  exact .mapping keys values hplaces hvalues

theorem exists_of_mem_forall₂ {α β : Type} {R : α → β → Prop} {as : List α} {bs : List β}
    (h : List.Forall₂ R as bs) {a : α} (ha : a ∈ as) : ∃ b, R a b := by
  induction h with
  | nil => cases ha
  | cons hab _ ih =>
      rcases List.mem_cons.mp ha with rfl | hrest
      · exact ⟨_, hab⟩
      · exact ih hrest

/-- With a container as a key, at whatever depth, a tree loads as nothing. -/
theorem HasContainerKey.not_loadsAs (h : t.HasContainerKey) : ¬t.LoadsAs v := by
  induction h generalizing v with
  | key h container =>
      intro hloads
      cases hloads with
      | mapping keys values firstPlaces lastValues =>
          obtain ⟨pair, hpair⟩ := exists_of_mem_forall₂ keys h
          exact Bool.false_ne_true ((isContainer_of_hasKeyText hpair).symm.trans container)
  | value h _ ih =>
      intro hloads
      cases hloads with
      | mapping keys values firstPlaces lastValues =>
          obtain ⟨pair, hpair⟩ := exists_of_mem_forall₂ values h
          exact ih hpair
  | item h _ ih =>
      intro hloads
      cases hloads with
      | sequence elements =>
          obtain ⟨w, hw⟩ := exists_of_mem_forall₂ elements h
          exact ih hw

end Tree

end FieldPath
