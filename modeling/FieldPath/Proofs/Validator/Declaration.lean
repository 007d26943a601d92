import FieldPath.Validator
import Mathlib.Data.List.Forall2
import Mathlib.Tactic.SplitIfs

/-!
# Declared fields

A field is declared by the text of its path and the names of its rules. Declarations can be added
to a validator one after the other, unless a text is not well formed or a name stands for no rule.
-/

namespace FieldPath

/-! ## Results that may be missing -/

section

variable {ε α β : Type}

theorem toOption_eq_some_iff {x : Except ε α} {a : α} : x.toOption = some a ↔ x = .ok a := by
  cases x <;> simp [Except.toOption]

theorem exists_error_of_toOption {x : Except ε α} (h : x.toOption = none) :
    ∃ e, x = .error e := by
  cases x with
  | error e => exact ⟨e, rfl⟩
  | ok a => cases h

theorem toOption_mapM (f : α → Except ε β) (xs : List α) :
    (xs.mapM f).toOption = xs.mapM fun x => (f x).toOption := by
  induction xs with
  | nil => rfl
  | cons x xs ih =>
      rw [List.mapM_cons, List.mapM_cons, ← ih]
      cases f x with
      | error e => rfl
      | ok y => cases xs.mapM f <;> rfl

theorem mapM_eq_some_iff {f : α → Option β} {xs : List α} {ys : List β} :
    xs.mapM f = some ys ↔ List.Forall₂ (fun x y => f x = some y) xs ys := by
  induction xs generalizing ys with
  | nil => cases ys <;> simp
  | cons x xs ih =>
      cases ys with
      | nil => cases hx : f x <;> cases hxs : xs.mapM f <;> simp [List.mapM_cons, hx, hxs]
      | cons y ys =>
          rw [List.forall₂_cons, ← ih]
          cases hx : f x <;> cases hxs : xs.mapM f <;> simp [List.mapM_cons, hx, hxs]

theorem mapM_congr {γ : Type} {f : α → Option γ} {g : β → Option γ} {xs : List α} {ys : List β}
    (h : List.Forall₂ (fun x y => f x = g y) xs ys) : xs.mapM f = ys.mapM g := by
  induction h with
  | nil => rfl
  | cons hxy _ ih => rw [List.mapM_cons, List.mapM_cons, hxy, ih]

theorem isSome_mapM_iff {f : α → Option β} {xs : List α} :
    (xs.mapM f).isSome = true ↔ ∀ x ∈ xs, (f x).isSome = true := by
  induction xs with
  | nil => simp
  | cons x xs ih =>
      rw [List.forall_mem_cons, ← ih]
      cases hx : f x <;> cases hxs : xs.mapM f <;> simp [List.mapM_cons, hx, hxs]

end

/-! ## Rules by their names -/

namespace Rule

def builtInNames : List String := ["required", "string", "numeric", "integer"]

theorem isSome_ofName?_iff {name : String} :
    (ofName? name).isSome = true ↔ name ∈ builtInNames := by
  unfold ofName? builtInNames
  split_ifs <;> simp_all

theorem name_of_ofName? {name : String} {rule : Rule} (h : ofName? name = some rule) :
    rule.name = name := by
  unfold ofName? at h
  split_ifs at h <;> cases h <;> simp_all [Rule.name]

/-- The names of rules read back are the names that the rules were found by. -/
theorem map_name_of_mapM {names : List String} {rules : List Rule}
    (h : names.mapM ofName? = some rules) : rules.map name = names := by
  have hpairs := mapM_eq_some_iff.mp h
  clear h
  induction hpairs with
  | nil => rfl
  | cons hrule _ ih => rw [List.map_cons, name_of_ofName? hrule, ih]

end Rule

/-- A field as it is declared, by the text of its path and the names of its rules. -/
structure Declaration where
  text : String
  names : List String

namespace Declaration

def IsPath (d : Declaration) : Prop := ∃ path, Path.parse d.text = .ok path

def IsKnown (d : Declaration) : Prop := ∀ name ∈ d.names, name ∈ Rule.builtInNames

structure Becomes (d : Declaration) (f : FieldRules) : Prop where
  path : Path.parse d.text = .ok f.path
  rules : d.names.mapM Rule.ofName? = some f.rules

/-- The first name that no rule has, and the text of the path that it is declared for. Fields
count before the names in them. -/
inductive FirstUnknown : List Declaration → String → String → Prop where
  | here {d : Declaration} {ds : List Declaration} {known rest : List String} {name : String}
      (names : d.names = known ++ name :: rest) (front : ∀ n ∈ known, n ∈ Rule.builtInNames)
      (unknown : name ∉ Rule.builtInNames) : FirstUnknown (d :: ds) name d.text
  | later {d : Declaration} {ds : List Declaration} {name text : String} (known : d.IsKnown)
      (first : FirstUnknown ds name text) : FirstUnknown (d :: ds) name text

theorem exists_firstUnknown {ds : List Declaration} (h : ∃ d ∈ ds, ¬d.IsKnown) :
    ∃ name text, FirstUnknown ds name text := by
  induction ds with
  | nil => simp at h
  | cons d ds ih =>
      by_cases hd : d.IsKnown
      · obtain ⟨name, text, hfirst⟩ := ih (by simpa [hd] using h)
        exact ⟨name, text, .later hd hfirst⟩
      · have hsome : (d.names.find? (· ∉ Rule.builtInNames)).isSome = true := by
          simpa [IsKnown] using hd
        obtain ⟨name, hname⟩ := Option.isSome_iff_exists.mp hsome
        obtain ⟨hunknown, known, rest, hnames, hknown⟩ := List.find?_eq_some_iff_append.mp hname
        exact ⟨name, d.text, .here hnames (by simpa using hknown) (by simpa using hunknown)⟩

theorem isSome_mapM_iff_isKnown {d : Declaration} :
    (d.names.mapM Rule.ofName?).isSome = true ↔ d.IsKnown := by
  simp only [isSome_mapM_iff, Rule.isSome_ofName?_iff, IsKnown]

theorem isSome_parse_iff {d : Declaration} :
    (Path.parse d.text).toOption.isSome = true ↔ d.IsPath := by
  simp only [Option.isSome_iff_exists, toOption_eq_some_iff, IsPath]

end Declaration

/-! ## Fields added one by one -/

namespace Validator

/-- Adds declared fields one after the other, each by the text of its path and the rules that
its names stand for. -/
def declare? (v : Validator) (ds : List Declaration) : Option Validator :=
  ds.foldlM (fun v d => do (v.field d.text (← d.names.mapM Rule.ofName?)).toOption) v

theorem declare?_cons (v : Validator) (d : Declaration) (ds : List Declaration) :
    v.declare? (d :: ds) =
      (d.names.mapM Rule.ofName?).bind fun rules =>
        (Path.parse d.text).toOption.bind fun path => (v.withPath path rules).declare? ds := by
  rw [declare?, List.foldlM_cons]
  cases d.names.mapM Rule.ofName? with
  | none => rfl
  | some rules =>
      cases hparse : Path.parse d.text <;>
        simp [field, hparse, Except.map, Except.toOption, declare?]

theorem isSome_declare?_iff {v : Validator} {ds : List Declaration} :
    (v.declare? ds).isSome = true ↔ (∀ d ∈ ds, d.IsPath) ∧ ∀ d ∈ ds, d.IsKnown := by
  induction ds generalizing v with
  | nil => simp [declare?]
  | cons d ds ih =>
      rw [declare?_cons, List.forall_mem_cons, List.forall_mem_cons,
        ← Declaration.isSome_parse_iff, ← Declaration.isSome_mapM_iff_isKnown]
      cases d.names.mapM Rule.ofName? with
      | none => simp
      | some rules =>
          cases (Path.parse d.text).toOption with
          | none => simp
          | some path => simp [ih]

theorem declare?_eq_some_iff {v w : Validator} {ds : List Declaration} :
    v.declare? ds = some w ↔
      ∃ fields, List.Forall₂ Declaration.Becomes ds fields ∧ w = ⟨v.fields ++ fields⟩ := by
  induction ds generalizing v with
  | nil => simp [declare?, eq_comm]
  | cons d ds ih =>
      rw [declare?_cons]
      constructor
      · intro h
        obtain ⟨rules, hrules, h⟩ := Option.bind_eq_some_iff.mp h
        obtain ⟨path, hpath, h⟩ := Option.bind_eq_some_iff.mp h
        obtain ⟨fields, hfields, rfl⟩ := ih.mp h
        refine ⟨⟨path, rules⟩ :: fields, .cons ⟨toOption_eq_some_iff.mp hpath, hrules⟩ hfields, ?_⟩
        simp [withPath]
      · rintro ⟨fields, hfields, rfl⟩
        cases hfields with
        | @cons _ f _ fields hf hfields =>
            rw [hf.rules, hf.path]
            exact ih.mpr ⟨fields, hfields, by simp [withPath]⟩

end Validator

end FieldPath
