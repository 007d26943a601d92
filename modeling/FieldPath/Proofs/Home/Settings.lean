import FieldPath.Home
import FieldPath.Proofs.Document.Compressed
import FieldPath.Proofs.Value.Keys

/-!
# The settings that a home holds

The file of settings holds settings if all of it can be read: its bytes are a text, the text is a
table, and the table has each of the settings under its key, or nothing under that key if the
setting is the default. A file that is saved holds what was saved.
-/

namespace FieldPath

/-! ## Choices in tables -/

namespace Toml.Value

inductive IsEmptyContainer : Value → Prop where
  | array : IsEmptyContainer (.array [])
  | table (origin : Origin) : IsEmptyContainer (.table origin [])

/-- A value names something by a string, or by the only key of a table, with nothing under it. -/
inductive Names (name : String) : Value → Prop where
  | string : Names name (.string name)
  | key (origin : Origin) {v : Value} (hv : v.IsEmptyContainer) :
      Names name (.table origin [(name, v)])

end Toml.Value

theorem OutputFormat.ofName?_eq_some_iff (name : String) (f : OutputFormat) :
    ofName? name = some f ↔ name = f.name := by
  unfold ofName? OutputFormat.name
  split_ifs with htext hjson <;> cases f <;> simp_all

theorem Format.ofName?_eq_some_iff (name : String) (f : Format) :
    ofName? name = some f ↔ name = f.name := by
  unfold ofName? Format.name
  split_ifs with hauto hjson hyaml <;> cases f <;> simp_all

namespace Settings

variable {α : Type} {t : Toml.Table} {s : Settings}

theorem isEmptyContainer_iff {v : Toml.Value} :
    isEmptyContainer v = true ↔ v.IsEmptyContainer := by
  constructor
  · intro h
    cases v with
    | array items =>
        cases List.isEmpty_iff.mp h
        exact .array
    | table origin t =>
        cases List.isEmpty_iff.mp h
        exact .table origin
    | _ => cases h
  · rintro (_ | _) <;> rfl

theorem choice?_eq_some_iff {ofName? : String → Option α} {name : α → String}
    (hname : ∀ n a, ofName? n = some a ↔ n = name a) (v : Toml.Value) (a : α) :
    choice? ofName? v = some a ↔ v.Names (name a) := by
  constructor
  · intro h
    unfold choice? at h
    split at h
    · cases (hname _ _).mp h
      exact .string
    · split_ifs at h with hempty
      cases (hname _ _).mp h
      exact .key _ (isEmptyContainer_iff.mp hempty)
    · cases h
  · rintro (_ | ⟨origin, hv⟩)
    · exact (hname _ _).mpr rfl
    · rw [choice?, if_pos (isEmptyContainer_iff.mpr hv)]
      exact (hname _ _).mpr rfl

theorem flag?_eq_some_iff (v : Toml.Value) (b : Bool) : flag? v = some b ↔ v = .boolean b := by
  cases v <;> simp [flag?]

/-! ## Settings in tables -/

/-- The setting that a table has under a key: what the value there says, or the default. -/
inductive IsUnder (t : Toml.Table) (key : String) (means : Toml.Value → α → Prop) (default : α) :
    α → Prop where
  | said {v : Toml.Value} {a : α} (hv : t.lookup key = some v) (ha : means v a) :
      IsUnder t key means default a
  | absent (hkey : key ∉ t.map Prod.fst) : IsUnder t key means default default

/-- Settings that a table has under their keys. Nothing is said of any other keys. -/
structure AreIn (t : Toml.Table) (s : Settings) : Prop where
  outputFormat :
    IsUnder t "output_format" (fun v f => v.Names f.name) OutputFormat.text s.outputFormat
  showMissing : IsUnder t "show_missing" (fun v b => v = .boolean b) false s.showMissing
  inputFormat : IsUnder t "input_format" (fun v f => v.Names f.name) Format.auto s.inputFormat

theorem setting?_eq_some_iff {key : String} {read : Toml.Value → Option α}
    {means : Toml.Value → α → Prop} (hread : ∀ v a, read v = some a ↔ means v a) {default a : α} :
    setting? t key read default = some a ↔ IsUnder t key means default a := by
  constructor
  · intro h
    unfold setting? at h
    split at h
    · exact .said ‹_› ((hread _ _).mp h)
    · cases h
      exact .absent (Entries.lookup_eq_none_iff.mp ‹_›)
  · rintro (⟨hv, ha⟩ | hkey)
    · rw [setting?, hv]
      exact (hread _ _).mpr ha
    · rw [setting?, Entries.lookup_eq_none_iff.mpr hkey]

theorem ofTable?_eq_some_iff : ofTable? t = some s ↔ s.AreIn t := by
  have houtput := choice?_eq_some_iff OutputFormat.ofName?_eq_some_iff
  have hinput := choice?_eq_some_iff Format.ofName?_eq_some_iff
  obtain ⟨output, missing, input⟩ := s
  simp only [ofTable?, Option.bind_eq_bind, Option.bind_eq_some_iff, Option.some.injEq,
    setting?_eq_some_iff houtput, setting?_eq_some_iff flag?_eq_some_iff,
    setting?_eq_some_iff hinput]
  constructor
  · rintro ⟨_, houtput, _, hmissing, _, hinput, ⟨⟩⟩
    exact ⟨houtput, hmissing, hinput⟩
  · rintro ⟨houtput, hmissing, hinput⟩
    exact ⟨_, houtput, _, hmissing, _, hinput, rfl⟩

/-- Settings are read back from their text. -/
theorem ofText?_text (s : Settings) : ofText? s.text = some s := by
  rcases s with ⟨_ | _, _ | _, _ | _ | _⟩ <;> decide +kernel

def AreWritten (content : Bytes) (s : Settings) : Prop :=
  ∃ text t, textOfBytes? content = some text ∧ Toml.read? text = some t ∧ s.AreIn t

theorem areWritten_iff {content : Bytes} :
    s.AreWritten content ↔ (textOfBytes? content).bind ofText? = some s := by
  simp only [AreWritten, Option.bind_eq_some_iff, ofText?, ofTable?_eq_some_iff,
    exists_and_left]

end Settings

/-! ## Settings in homes -/

namespace Home

variable {h : Home} {s : Settings}

def Holds (h : Home) (s : Settings) : Prop := ∃ content, h = .file content ∧ s.AreWritten content

theorem holds_iff : h.Holds s ↔ h.text?.bind Settings.ofText? = some s := by
  cases h with
  | file content =>
      rw [text?, ← Settings.areWritten_iff]
      exact ⟨fun ⟨_, rfl, hs⟩ => hs, fun hs => ⟨content, rfl, hs⟩⟩
  | _ => exact ⟨nofun, nofun⟩

/-- Loading gives what is held, or the default if nothing is. -/
theorem load_cases (h : Home) : h.Holds h.load ∨ (∀ s, ¬h.Holds s) ∧ h.load = .default := by
  simp only [holds_iff, load]
  cases h.text?.bind Settings.ofText? with
  | some s => exact .inl rfl
  | none => exact .inr ⟨nofun, rfl⟩

/-- A number names no format, and so nothing of the file counts. -/
example : (file "show_missing = true\ninput_format = 1\n".toUTF8.data.toList).load = .default := by
  decide +kernel

/-! ## Saving -/

variable {h' : Home}

theorem eq_file_of_save? (hsave : h.save? s = some h') :
    h' = .file s.text.toUTF8.data.toList := by
  unfold save? write? put? at hsave
  split at hsave <;> cases hsave <;> rfl

theorem text?_of_save? (hsave : h.save? s = some h') : h'.text? = some s.text := by
  rw [eq_file_of_save? hsave, text?, textOfBytes?_toUTF8]

theorem load_of_save? (hsave : h.save? s = some h') : h'.load = s := by
  rw [load, text?_of_save? hsave, Option.bind_some, Settings.ofText?_text, Option.getD_some]

/-- Where settings cannot be saved, no directories are made either. -/
theorem prepared_of_save?_eq_none (hsave : h.save? s = none) : h.prepared = h := by
  cases h with
  | absent => cases hsave
  | _ => rfl

end Home

end FieldPath
