import FieldPath.CommandLine.Execution
import FieldPath.Proofs.Document.Compressed
import FieldPath.Proofs.Walk.Outcome

/-!
# What queries show

A query prints a line for each observation of its path, or for those alone that found a value.
Its status is the same for both: it succeeds exactly if the steps of the path can be followed
in the document to some value, whatever is shown and however it is printed.
-/

namespace FieldPath

/-! ## What can be resolved -/

/-- A walk finds something exactly if its steps lead to a value. -/
theorem Path.any_isFound_walk_iff {text : String} {p : Path} (h : parse text = .ok p)
    (d : Value) : (p.walk d).any (·.isFound) = true ↔
      ∃ positions v, Step.follow p.steps positions d = some v := by
  simp only [Step.follow_eq_some_iff (position?_of_mem_steps h), walk_eq_map_branches h,
    List.any_map, List.any_eq_true, Function.comp_apply, Branch.isFound_observation,
    List.isEmpty_iff, mem_branches_iff]
  constructor
  · rintro ⟨b, hb, hleft⟩
    have hends := hb.ends
    rw [hb.left_eq_nil_iff.mp hleft] at hends
    exact ⟨b.chosen, b.value, hends⟩
  · rintro ⟨positions, v, hends⟩
    obtain ⟨b, hb, -, hlength, -⟩ := hends.exists_branch .start
    exact ⟨b, hb, hb.left_eq_nil_iff.mpr hlength⟩

namespace CommandLine

/-! ## Queries -/

/-- A query that comes to be carried out: arguments that ask for it, the path that its text
is, and the document that its sources hold. -/
structure Query where
  arguments : List String
  sources : Sources
  inputOption : Option Format
  outputOption : Option OutputFormat
  text : String
  file : Option String
  all : Bool
  path : Path
  document : Value
  isRead : read arguments = .ok ⟨inputOption, outputOption, .query text file all⟩
  isPath : Path.parse text = .ok path
  isLoaded : sources.document file (inputOption.getD sources.settings.inputFormat) = .ok document

namespace Query

def showsMissing (q : Query) : Bool := q.all || q.sources.settings.showMissing

def outputFormat (q : Query) : OutputFormat :=
  q.outputOption.getD q.sources.settings.outputFormat

def line (q : Query) (o : Observation) : String := Response.observationLine o q.outputFormat

def response (q : Query) : Response := respond q.arguments q.sources

theorem response_eq (q : Query) :
    q.response = Response.query q.path q.document q.showsMissing q.outputFormat := by
  simp only [response, respond, q.isRead, Invocation.run, q.isPath, q.isLoaded, showsMissing,
    outputFormat]

theorem output_of_showsMissing {q : Query} (h : q.showsMissing = true) :
    q.response.output = (q.path.walk q.document).map q.line := by
  simp [response_eq, Response.query, h, line]

theorem output_of_not_showsMissing {q : Query} (h : q.showsMissing = false) :
    q.response.output = ((q.path.walk q.document).filter (·.isFound)).map q.line := by
  simp [response_eq, Response.query, h, line]

theorem response_status (q : Query) :
    q.response.status =
      if (q.path.walk q.document).any (·.isFound) then .success else .failure := by
  rw [response_eq, Response.query]

/-- Of the lines that a query prints with what is missing, the same query prints those of
found values without it, in the same order. Both succeed if some choice of positions leads to
a value, and otherwise both fail. -/
theorem selects_found {quiet full : Query} (hpath : quiet.path = full.path)
    (hdocument : quiet.document = full.document)
    (hformat : quiet.outputFormat = full.outputFormat)
    (hquiet : quiet.showsMissing = false) (hfull : full.showsMissing = true) :
    full.response.output = (full.path.walk full.document).map full.line ∧
      quiet.response.output =
        (((full.path.walk full.document).zip full.response.output).filter (·.1.isFound)).map
          (·.2) ∧
      ∀ q : Query, q.path = full.path → q.document = full.document →
        (q.response.status = .success ↔
          ∃ positions v, Step.follow full.path.steps positions full.document = some v) ∧
        (q.response.status = .failure ↔
          ¬∃ positions v, Step.follow full.path.steps positions full.document = some v) := by
  refine ⟨output_of_showsMissing hfull, ?_, ?_⟩
  · have hline : quiet.line = full.line := by
      funext o
      rw [line, line, hformat]
    rw [output_of_not_showsMissing hquiet, output_of_showsMissing hfull, hpath, hdocument, hline,
      ← List.map_prod_left_eq_zip, List.filter_map, List.map_map]
    rfl
  · intro q hqpath hqdocument
    rw [← Path.any_isFound_walk_iff full.isPath, response_status, hqpath, hqdocument]
    cases (full.path.walk full.document).any (·.isFound) <;> simp

/-- What is missing is shown in the settings alone, and one of the two elements has nothing
but null to be found. -/
theorem selects_found_null :
    ∃ quiet full : Query, quiet.arguments = ["query", "-ojson", "a[].b"] ∧
      full.arguments = ["query", "a[].b"] ∧ full.sources.settings = ⟨.json, true, .auto⟩ ∧
      quiet.path = full.path ∧ quiet.document = full.document ∧
      quiet.outputFormat = full.outputFormat ∧
      quiet.showsMissing = false ∧ full.showsMissing = true ∧
      full.response.output = (full.path.walk full.document).map full.line ∧
      quiet.response.output =
        (((full.path.walk full.document).zip full.response.output).filter (·.1.isFound)).map
          (·.2) ∧
      ∀ q : Query, q.path = full.path → q.document = full.document →
        (q.response.status = .success ↔
          ∃ positions v, Step.follow full.path.steps positions full.document = some v) ∧
        (q.response.status = .failure ↔
          ¬∃ positions v, Step.follow full.path.steps positions full.document = some v) := by
  have hgrammar : Path.IsPathText "a[].b" "a" [.item .unbound, .key "b"] := by
    simp [Path.IsPathText, IsName, Step.IsWritten, Step.chars, Path.isNameChar, Index.text]
  have hparse := Path.parse_of_isPathText hgrammar
  let content := "\x7b\"a\":[\x7b\"b\":null\x7d,\x7b\x7d]\x7d".toUTF8.data.toList
  have htext : textOfBytes? content = some "\x7b\"a\":[\x7b\"b\":null\x7d,\x7b\x7d]\x7d" :=
    textOfBytes?_toUTF8 _
  have hjson : Json.read? "\x7b\"a\":[\x7b\"b\":null\x7d,\x7b\x7d]\x7d" =
      some (.mapping [("a", .sequence [.mapping [("b", .null)], .mapping []])]) := rfl
  have hload (settings : Settings) : (Sources.mk (fun _ => .missing) content settings).document
      none .auto = .ok (.mapping [("a", .sequence [.mapping [("b", .null)], .mapping []])]) := by
    simp only [Sources.document, Document.ofInput, Document.textOfInput_of_text htext,
      Document.ofText, hjson]
    rfl
  let quiet : Query := ⟨["query", "-ojson", "a[].b"], ⟨_, _, .default⟩, none, some .json,
    "a[].b", none, false, _, _, rfl, hparse, hload .default⟩
  let full : Query := ⟨["query", "a[].b"], ⟨_, _, ⟨.json, true, .auto⟩⟩, none, none,
    "a[].b", none, false, _, _, rfl, hparse, hload ⟨.json, true, .auto⟩⟩
  exact ⟨quiet, full, rfl, rfl, rfl, rfl, rfl, rfl, rfl, rfl,
    @selects_found quiet full rfl rfl rfl rfl rfl⟩

end Query

end CommandLine

end FieldPath
