import FieldPath.Proofs.Path.Canonical
import FieldPath.Proofs.Validator.Declaration
import FieldPath.Proofs.Value.Keys
import FieldPath.Schema

/-!
# Validators from schemas

Fields can be declared in a schema, or added to a validator one after the other. Either way
gives the same validator, or none at all: there is none if the text of some path is not well
formed, or if some rule is not known, and then a schema names the first such rule.
-/

namespace FieldPath

/-! ## From schemas to validators -/

/-- The field that a declaration becomes in a schema, where its rules are still names. -/
structure Declaration.Specifies (d : Declaration) (f : FieldSpec) : Prop where
  path : Path.parse d.text = .ok f.path
  rules : f.rules = d.names

namespace Schema

theorem toOption_rulesOf (f : FieldSpec) :
    (rulesOf f).toOption = f.rules.mapM Rule.ofName? := by
  rw [rulesOf, toOption_mapM]
  congr
  funext name
  cases Rule.ofName? name <;> rfl

/-- A schema becomes the validator that its declarations give one by one, or none. -/
theorem toOption_toValidator {ds : List Declaration} {s : Schema}
    (h : List.Forall₂ Declaration.Specifies ds s.fields) :
    s.toValidator.toOption = Validator.empty.declare? ds := by
  rw [toValidator]
  generalize Validator.empty = v
  generalize s.fields = fields at h
  induction h generalizing v with
  | nil => rfl
  | @cons d f ds fields hf _ ih =>
      have hrules := toOption_rulesOf f
      rw [List.foldlM_cons, Validator.declare?_cons, hf.path, ← hf.rules, ← hrules]
      cases rulesOf f with
      | error e => rfl
      | ok rules => exact ih (v.withPath f.path rules)

theorem rulesOf_eq_error {f : FieldSpec} {known rest : List String} {name : String}
    (hnames : f.rules = known ++ name :: rest) (hknown : ∀ n ∈ known, n ∈ Rule.builtInNames)
    (hname : name ∉ Rule.builtInNames) : rulesOf f = .error (.unknownRule name f.path) := by
  have hnone : Rule.ofName? name = none := by
    rwa [← Rule.isSome_ofName?_iff, Bool.not_eq_true, Option.isSome_eq_false_iff,
      Option.isNone_iff_eq_none] at hname
  rw [rulesOf, hnames]
  clear hnames
  induction known with
  | nil =>
      rw [List.nil_append, List.mapM_cons, hnone]
      rfl
  | cons n known ih =>
      obtain ⟨hn, hrest⟩ := List.forall_mem_cons.mp hknown
      obtain ⟨rule, hrule⟩ := Option.isSome_iff_exists.mp (Rule.isSome_ofName?_iff.mpr hn)
      rw [List.cons_append, List.mapM_cons, hrule, ih hrest]
      rfl

/-- The first unknown name is the one reported, for the path of its own field. -/
theorem toValidator_eq_error {ds : List Declaration} {s : Schema} {name text : String}
    (h : List.Forall₂ Declaration.Specifies ds s.fields)
    (hfirst : Declaration.FirstUnknown ds name text) :
    ∃ path, Path.parse text = .ok path ∧ s.toValidator = .error (.unknownRule name path) := by
  rw [toValidator]
  generalize Validator.empty = v
  generalize s.fields = fields at h
  induction hfirst generalizing v fields with
  | here hnames hfront hunknown =>
      cases h with
      | @cons _ f _ _ hf _ =>
          refine ⟨f.path, hf.path, ?_⟩
          rw [List.foldlM_cons, rulesOf_eq_error (hf.rules.trans hnames) hfront hunknown]
          rfl
  | later hknown _ ih =>
      cases h with
      | @cons _ f _ fields hf hfields =>
          obtain ⟨rules, hrules⟩ := Option.isSome_iff_exists.mp
            (Declaration.isSome_mapM_iff_isKnown.mpr hknown)
          rw [← hf.rules, ← toOption_rulesOf, toOption_eq_some_iff] at hrules
          obtain ⟨path, hpath, hrest⟩ := ih (v.withPath f.path rules) fields hfields
          refine ⟨path, hpath, ?_⟩
          rw [List.foldlM_cons, hrules]
          exact hrest

end Schema

/-! ## Schemas in TOML -/

namespace Declaration

/-- A table with a declaration in it. Other keys may be there too. -/
structure InTable (d : Declaration) (t : Toml.Table) : Prop where
  keys : (t.map Prod.fst).Nodup
  path : t.lookup "path" = some (.string d.text)
  rules : t.lookup "rules" = some (.array (d.names.map .string)) ∨
    t.lookup "rules" = none ∧ d.names = []

inductive InValue (d : Declaration) : Toml.Value → Prop where
  | table {origin : Toml.Origin} {t : Toml.Table} (h : d.InTable t) : InValue d (.table origin t)
  | items (more : List Toml.Value) :
      InValue d (.array (.string d.text :: .array (d.names.map .string) :: more))
  | path (unruled : d.names = []) : InValue d (.array [.string d.text])

def spec? (d : Declaration) : Option FieldSpec :=
  (Path.parse d.text).toOption.map fun path => ⟨path, d.names⟩

theorem spec?_eq_some_iff {d : Declaration} {f : FieldSpec} :
    d.spec? = some f ↔ d.Specifies f := by
  rw [spec?, Option.map_eq_some_iff]
  constructor
  · rintro ⟨path, hpath, rfl⟩
    exact ⟨toOption_eq_some_iff.mp hpath, rfl⟩
  · rintro ⟨hpath, hrules⟩
    exact ⟨f.path, toOption_eq_some_iff.mpr hpath, by rw [← hrules]⟩

end Declaration

namespace FieldSpec

theorem toOption_path? (text : String) :
    (path? (.string text)).toOption = (Path.parse text).toOption := by
  cases h : Path.parse text <;>
    simp [path?, string?, h, Except.mapError, Except.toOption, bind, Except.bind]

theorem rules?_strings (names : List String) : rules? (.array (names.map .string)) = .ok names := by
  induction names with
  | nil => rfl
  | cons name names ih =>
      rw [rules?] at ih ⊢
      rw [List.map_cons, List.mapM_cons, ih]
      rfl

/-- Reading a table goes by what is under its two keys, wherever they stand. -/
theorem foldlM_read {t : Toml.Table} (hkeys : (t.map Prod.fst).Nodup) {names : List String}
    (hrules : ∀ v ∈ t.lookup "rules", rules? v = .ok names) (parts : Parts) :
    t.foldlM (fun parts entry => parts.read entry.1 entry.2) parts =
      (match t.lookup "path" with
        | some v => (path? v).map some
        | none => .ok parts.path).map
        fun path => ⟨path, if (t.lookup "rules").isSome then names else parts.rules⟩ := by
  induction t generalizing parts with
  | nil => rfl
  | cons entry rest ih =>
      obtain ⟨key, v⟩ := entry
      obtain ⟨hkey, hrest⟩ := List.nodup_cons.mp hkeys
      have hmissing : rest.lookup key = none := Entries.lookup_eq_none_iff.mpr hkey
      rw [List.foldlM_cons]
      simp only [Entries.lookup_cons] at hrules ⊢
      by_cases hpath : key = "path"
      · subst hpath
        have hread := ih hrest (by simpa using hrules)
        rw [hmissing] at hread
        cases hv : path? v with
        | error e => simp [Parts.read, hv, Except.map, bind, Except.bind]
        | ok path =>
            simpa [Parts.read, hv, Except.map, bind, Except.bind] using
              hread ⟨some path, parts.rules⟩
      by_cases hname : key = "rules"
      · subst hname
        have hv : rules? v = .ok names := hrules v (by simp)
        have hread := ih hrest (by simp [hmissing]) ⟨parts.path, names⟩
        rw [hmissing] at hread
        simpa [Parts.read, hv, Except.map, bind, Except.bind] using hread
      · simp only [if_neg (Ne.symm hpath), if_neg (Ne.symm hname)] at hrules ⊢
        rw [Parts.read, if_neg hpath, if_neg hname]
        exact ih hrest hrules parts

theorem toOption_ofTable {d : Declaration} {t : Toml.Table} (h : d.InTable t) :
    (ofTable t).toOption = d.spec? := by
  have hrules : ∀ v ∈ t.lookup "rules", rules? v = .ok d.names := by
    intro v hv
    rcases h.rules with hsome | ⟨hnone, -⟩
    · cases hsome.symm.trans hv
      exact rules?_strings d.names
    · cases hnone.symm.trans hv
  have hnames : (if (t.lookup "rules").isSome then d.names else []) = d.names := by
    rcases h.rules with hsome | ⟨hnone, hempty⟩
    · simp [hsome]
    · simp [hempty]
  have hpath := toOption_path? d.text
  rw [ofTable, foldlM_read h.keys hrules, h.path, hnames, Declaration.spec?, ← hpath]
  cases hp : path? (.string d.text) <;>
    simp [hp, Except.toOption, Except.map, bind, Except.bind]

theorem toOption_ofToml {d : Declaration} {v : Toml.Value} (h : d.InValue v) :
    (ofToml v).toOption = d.spec? := by
  have hpath := toOption_path? d.text
  cases h with
  | table h => exact toOption_ofTable h
  | items more =>
      have hrules := rules?_strings d.names
      rw [ofToml, Declaration.spec?, ← hpath]
      cases hp : path? (.string d.text) <;>
        simp [ofItems, hp, hrules, Except.toOption, bind, Except.bind, pure, Except.pure]
  | path unruled =>
      rw [ofToml, Declaration.spec?, ← hpath, unruled]
      cases hp : path? (.string d.text) <;>
        simp [ofItems, hp, Except.toOption, bind, Except.bind, pure, Except.pure]

end FieldSpec

namespace Schema

/-- The declarations in a document: one table after the other, or all in one array, or none. -/
inductive Declares : Toml.Table → List Declaration → Prop where
  | headers {t : Toml.Table} {elements : List Toml.Table} {ds : List Declaration}
      (found : t.lookup "field" = some (.tables elements))
      (fields : List.Forall₂ Declaration.InTable ds elements) : Declares t ds
  | array {t : Toml.Table} {items : List Toml.Value} {ds : List Declaration}
      (found : t.lookup "field" = some (.array items))
      (fields : List.Forall₂ Declaration.InValue ds items) : Declares t ds
  | none {t : Toml.Table} (missing : t.lookup "field" = none) : Declares t []

/-- All declarations can be written in a schema. -/
theorem exists_declares (ds : List Declaration) : ∃ t, Declares t ds := by
  refine ⟨[("field", .tables (ds.map fun d =>
    [("path", .string d.text), ("rules", .array (d.names.map .string))]))], .headers rfl ?_⟩
  rw [List.forall₂_map_right_iff, List.forall₂_same]
  exact fun d _ => ⟨by simp, rfl, .inl rfl⟩

theorem toOption_ofTable {t : Toml.Table} {ds : List Declaration} (h : Declares t ds) :
    (ofTable t).toOption = (ds.mapM Declaration.spec?).map Schema.mk := by
  cases h with
  | headers found fields =>
      have hfields := mapM_congr (fields.imp fun _ _ hd => (FieldSpec.toOption_ofTable hd).symm)
      simp only [ofTable, found, fieldsOf, hfields, ← toOption_mapM]
      cases List.mapM FieldSpec.ofTable _ <;> rfl
  | array found fields =>
      have hfields := mapM_congr (fields.imp fun _ _ hd => (FieldSpec.toOption_ofToml hd).symm)
      simp only [ofTable, found, fieldsOf, hfields, ← toOption_mapM]
      cases List.mapM FieldSpec.ofToml _ <;> rfl
  | none missing =>
      rw [ofTable, missing]
      rfl

theorem exists_ofTable_eq {t : Toml.Table} {ds : List Declaration} (h : Declares t ds)
    (hpaths : ∀ d ∈ ds, d.IsPath) :
    ∃ s, ofTable t = .ok s ∧ List.Forall₂ Declaration.Specifies ds s.fields := by
  have hsome : (ds.mapM Declaration.spec?).isSome = true := by
    simpa [isSome_mapM_iff, Declaration.spec?, Declaration.isSome_parse_iff] using hpaths
  obtain ⟨specs, hspecs⟩ := Option.isSome_iff_exists.mp hsome
  refine ⟨⟨specs⟩, toOption_eq_some_iff.mp (by rw [toOption_ofTable h, hspecs]; rfl), ?_⟩
  exact (mapM_eq_some_iff.mp hspecs).imp fun _ _ => Declaration.spec?_eq_some_iff.mp

theorem ofTable_eq_error {t : Toml.Table} {ds : List Declaration} (h : Declares t ds)
    (hpaths : ¬∀ d ∈ ds, d.IsPath) : ∃ cause, ofTable t = .error cause := by
  refine exists_error_of_toOption ?_
  have hnone : ¬(ds.mapM Declaration.spec?).isSome = true := by
    simpa [isSome_mapM_iff, Declaration.spec?, Declaration.isSome_parse_iff] using hpaths
  rw [toOption_ofTable h, Option.not_isSome_iff_eq_none.mp hnone, Option.map_none]

structure ConvertsAs (t : Toml.Table) (ds : List Declaration) : Prop where
  /-- If all paths are well formed and all rules known, both give one validator, and the
  declarations can be read back from it. -/
  converts : (∀ d ∈ ds, d.IsPath) → (∀ d ∈ ds, d.IsKnown) →
    ∃ s v, ofTable t = .ok s ∧ s.toValidator = .ok v ∧ Validator.empty.declare? ds = some v ∧
      List.Forall₂ Declaration.Becomes ds v.fields ∧
      v.fields.map (fun f => ⟨f.path.text, f.rules.map Rule.name⟩) = ds
  /-- If the paths are well formed, but some rule is unknown, the first one is reported. -/
  reports : (∀ d ∈ ds, d.IsPath) → (∃ d ∈ ds, ¬d.IsKnown) →
    ∃ s name text e, ofTable t = .ok s ∧ Declaration.FirstUnknown ds name text ∧
      s.toValidator = .error e ∧
      e.messages = ["Unknown rule '" ++ name ++ "' for field '" ++ text ++ "'"] ∧
      Validator.empty.declare? ds = none
  /-- If some path is not well formed, there is no schema and no validator. -/
  builds_nothing : (∃ d ∈ ds, ¬d.IsPath) →
    (∃ cause, ofTable t = .error cause) ∧ Validator.empty.declare? ds = none
  /-- The text of a schema is no more than its document. -/
  ofText_eq : ∀ text, Toml.read? text = some t →
    ofText text = (ofTable t).mapError SchemaError.malformed

theorem eq_of_becomes {ds : List Declaration} {fields : List FieldRules}
    (h : List.Forall₂ Declaration.Becomes ds fields) :
    fields.map (fun f => ⟨f.path.text, f.rules.map Rule.name⟩) = ds := by
  induction h with
  | nil => rfl
  | @cons d f _ _ hf _ ih =>
      rw [List.map_cons, ih, (Path.parse_eq_ok_iff_text.mp hf.path).2,
        Rule.map_name_of_mapM hf.rules]

/-- Every list of declarations can be written in a schema, and a schema with them becomes the
same validator as they do when they are added one by one, or fails where they do. -/
theorem converts_as_declared (ds : List Declaration) :
    (∃ t, Declares t ds) ∧ ∀ t, Declares t ds → ConvertsAs t ds := by
  refine ⟨exists_declares ds, fun t h => ⟨?_, ?_, ?_, ?_⟩⟩
  · intro hpaths hknown
    obtain ⟨s, hs, hfields⟩ := exists_ofTable_eq h hpaths
    obtain ⟨v, hv⟩ := Option.isSome_iff_exists.mp
      (Validator.isSome_declare?_iff.mpr ⟨hpaths, hknown⟩)
    obtain ⟨fields, hbecome, rfl⟩ := Validator.declare?_eq_some_iff.mp hv
    have hvalidator := (toOption_toValidator hfields).trans hv
    exact ⟨s, _, hs, toOption_eq_some_iff.mp hvalidator, hv, hbecome, eq_of_becomes hbecome⟩
  · intro hpaths hunknown
    obtain ⟨s, hs, hfields⟩ := exists_ofTable_eq h hpaths
    obtain ⟨name, text, hfirst⟩ := Declaration.exists_firstUnknown hunknown
    obtain ⟨path, hpath, herror⟩ := toValidator_eq_error hfields hfirst
    refine ⟨s, name, text, _, hs, hfirst, herror, ?_, ?_⟩
    · rw [SchemaError.messages, (Path.parse_eq_ok_iff_text.mp hpath).2]
    · rw [← Option.not_isSome_iff_eq_none, Validator.isSome_declare?_iff]
      simpa using fun _ => hunknown
  · intro hpaths
    have hnot : ¬∀ d ∈ ds, d.IsPath := by simpa using hpaths
    refine ⟨ofTable_eq_error h hnot, ?_⟩
    rw [← Option.not_isSome_iff_eq_none, Validator.isSome_declare?_iff]
    exact fun hall => hnot hall.1
  · intro text htext
    rw [ofText, Schema.read, htext]

/-- Two fields under headers, one of them without rules. The keys stand in any order, and one
that means nothing is among them. -/
theorem converts_as_declared_headers :
    ∃ text t ds, text = "[[field]]\nrules = [\"required\", \"integer\"]\nnote = 1\n" ++
        "path = \"a[].b\"\n\n[[field]]\npath = \"c\"\n" ∧
      ds = [⟨"a[].b", ["required", "integer"]⟩, ⟨"c", []⟩] ∧
      Toml.read? text = some t ∧ Declares t ds ∧ ConvertsAs t ds := by
  have hread : Toml.read? ("[[field]]\nrules = [\"required\", \"integer\"]\nnote = 1\n" ++
      "path = \"a[].b\"\n\n[[field]]\npath = \"c\"\n") =
        some [("field", .tables [[("rules", .array [.string "required", .string "integer"]),
          ("note", .integer 1), ("path", .string "a[].b")], [("path", .string "c")]])] := by
    rfl
  have hdeclares : Declares [("field", .tables [[("rules", .array [.string "required",
      .string "integer"]), ("note", .integer 1), ("path", .string "a[].b")],
        [("path", .string "c")]])] [⟨"a[].b", ["required", "integer"]⟩, ⟨"c", []⟩] :=
    .headers rfl (.cons ⟨by decide, rfl, .inl rfl⟩
      (.cons ⟨by decide, rfl, .inr ⟨rfl, rfl⟩⟩ .nil))
  exact ⟨_, _, _, rfl, rfl, hread, hdeclares, (converts_as_declared _).2 _ hdeclares⟩

end Schema

end FieldPath
