import FieldPath.CommandLine.Execution
import FieldPath.Proofs.Json.Characters
import FieldPath.Proofs.Validator.Location

/-!
# Lines of responses

The lines of a response are printed one after the other with a newline behind each, so
they can be told apart exactly if none of them has a newline inside. JSON has none. A line
of text has one wherever the path that it starts with does, and a path may, as names are
not escaped.
-/

namespace FieldPath

namespace CommandLine

/-! ## Lines of a text -/

/-- The lines of a text, each of which a newline ends. -/
def lines (text : String) : List String :=
  ((text.toList.splitOn '\n').dropLast).map String.ofList

def pieces (line : String) : List String := (line.toList.splitOn '\n').map String.ofList

theorem lines_unlines (ls : List String) : lines (unlines ls) = ls.flatMap pieces := by
  induction ls with
  | nil => rfl
  | cons l ls ih =>
      have htext : (unlines (l :: ls)).toList = l.toList ++ '\n' :: (unlines ls).toList := by
        simp [unlines, String.toList_join]
      rw [lines, htext, List.splitOn_append_cons_self,
        List.dropLast_append_of_ne_nil (List.splitOn_ne_nil _ _), List.map_append,
        List.flatMap_cons, ← ih]
      rfl

theorem pieces_of_notMem {line : String} (h : '\n' ∉ line.toList) : pieces line = [line] := by
  rw [pieces, List.splitOn_eq_singleton h, List.map_singleton, String.ofList_toList]

theorem length_pieces_pos (line : String) : 0 < (pieces line).length := by
  rw [pieces, List.length_map, List.length_pos_iff]
  exact List.splitOn_ne_nil _ _

/-- A newline inside makes two lines of one, or more. -/
theorem one_lt_length_pieces {line : String} (h : '\n' ∈ line.toList) :
    1 < (pieces line).length := by
  obtain ⟨before, after, hline⟩ := List.append_of_mem h
  have hbefore := List.length_pos_iff.mpr (List.splitOn_ne_nil '\n' before)
  have hafter := List.length_pos_iff.mpr (List.splitOn_ne_nil '\n' after)
  rw [pieces, hline, List.splitOn_append_cons_self, List.length_map, List.length_append]
  omega

theorem length_le_length_flatMap_pieces (ls : List String) :
    ls.length ≤ (ls.flatMap pieces).length := by
  induction ls with
  | nil => exact Nat.le_refl 0
  | cons l ls ih =>
      have hpos := length_pieces_pos l
      rw [List.flatMap_cons, List.length_append, List.length_cons]
      omega

theorem notMem_of_length_flatMap_pieces {ls : List String}
    (h : (ls.flatMap pieces).length ≤ ls.length) : ∀ l ∈ ls, '\n' ∉ l.toList := by
  induction ls with
  | nil => exact List.forall_mem_nil _
  | cons l ls ih =>
      have hrest := length_le_length_flatMap_pieces ls
      have hpos := length_pieces_pos l
      rw [List.flatMap_cons, List.length_append, List.length_cons] at h
      refine List.forall_mem_cons.mpr ⟨fun hmem => ?_, ih (by omega)⟩
      have hmany := one_lt_length_pieces hmem
      omega

theorem lines_unlines_eq_iff {ls : List String} :
    lines (unlines ls) = ls ↔ ∀ l ∈ ls, '\n' ∉ l.toList := by
  rw [lines_unlines]
  constructor
  · intro h
    exact notMem_of_length_flatMap_pieces (Nat.le_of_eq (congrArg List.length h))
  · intro h
    induction ls with
    | nil => rfl
    | cons l ls ih =>
        obtain ⟨hl, hls⟩ := List.forall_mem_cons.mp h
        rw [List.flatMap_cons, pieces_of_notMem hl, ih hls, List.singleton_append]

end CommandLine

/-! ## Newlines in what is printed -/

theorem Outcome.noControls_text (outcome : Outcome) : NoControls outcome.text.toList := by
  cases outcome <;> decide

theorem Observation.newline_mem_textLine_iff {o : Observation} :
    '\n' ∈ o.textLine.toList ↔ '\n' ∈ o.path.text.toList := by
  have houtcome := o.outcome.noControls_text.newline_notMem
  have htab : '\n' ∉ ("\t").toList := by decide
  unfold textLine
  cases o.value with
  | some v =>
      have hvalue := (Value.noControls_text v).newline_notMem
      simp only [String.toList_append, List.mem_append, houtcome, htab, hvalue, or_false]
  | none =>
      have hvalue : '\n' ∉ ("-").toList := by decide
      simp only [String.toList_append, List.mem_append, houtcome, htab, hvalue, or_false]

theorem Violation.newline_mem_text_iff {v : Violation} :
    '\n' ∈ v.text.toList ↔ '\n' ∈ v.path.toList ∨ '\n' ∈ v.rule.toList := by
  have houtcome := v.outcome.noControls_text.newline_notMem
  have hfailed : '\n' ∉ (": failed '").toList := by decide
  have hopen : '\n' ∉ ("' (").toList := by decide
  have hclose : '\n' ∉ (")").toList := by decide
  simp only [text, String.toList_append, List.mem_append, houtcome, hfailed, hopen, hclose,
    or_false]

theorem CommandLine.Response.newline_mem_observationLine_iff {o : Observation}
    {format : OutputFormat} : '\n' ∈ (observationLine o format).toList ↔
      format = .text ∧ '\n' ∈ o.path.text.toList := by
  cases format with
  | text => simp [observationLine, o.newline_mem_textLine_iff]
  | json => simp [observationLine, Observation.jsonLine, (Value.noControls_text _).newline_notMem]

theorem CommandLine.Response.newline_mem_violationLine_iff {v : Violation}
    {format : OutputFormat} : '\n' ∈ (violationLine v format).toList ↔
      format = .text ∧ ('\n' ∈ v.path.toList ∨ '\n' ∈ v.rule.toList) := by
  cases format with
  | text => simp [violationLine, v.newline_mem_text_iff]
  | json => simp [violationLine, Violation.jsonLine, (Value.noControls_text _).newline_notMem]

/-! ## Newlines in reported paths -/

namespace Step

theorem newline_mem_chars_iff {step : Step} :
    '\n' ∈ step.chars ↔ ∃ name, step = .key name ∧ '\n' ∈ name.toList := by
  cases step with
  | key name => simp [chars]
  | item index =>
      have htext : NoControls index.text.toList := by
        cases index with
        | bound i =>
            simp only [Index.text, String.toList_append]
            exact .append (.append (by decide) (noControls_repr i)) (by decide)
        | _ => decide
      simp [chars, htext.newline_notMem]

theorem newline_mem_flatMap_chars_iff {steps : List Step} :
    '\n' ∈ steps.flatMap chars ↔ ∃ name, .key name ∈ steps ∧ '\n' ∈ name.toList := by
  simp only [List.mem_flatMap, newline_mem_chars_iff]
  constructor
  · rintro ⟨step, hstep, name, rfl, hname⟩
    exact ⟨name, hstep, hname⟩
  · rintro ⟨name, hstep, hname⟩
    exact ⟨_, hstep, name, rfl, hname⟩

theorem key_mem_map_unbind_iff {name : String} {steps : List Step} :
    .key name ∈ steps.map unbind ↔ .key name ∈ steps := by
  have hunbind (step : Step) : step.unbind = .key name ↔ step = .key name := by
    cases step <;> simp [unbind]
  simp [List.mem_map, hunbind]

end Step

namespace Path

variable {text : String} {p : Path} {d : Value} {o : Observation}

/-- Names are kept as they are in the places reported, and nothing else has a newline. -/
theorem newline_mem_of_reportedPath (h : parse text = .ok p) (ho : o ∈ p.walk d) (rule : Rule)
    (hmem : '\n' ∈ (rule.reportedPath o).text.toList) : '\n' ∈ text.toList := by
  have htext : p.text = text := (parse_eq_ok_iff_text.mp h).2
  obtain ⟨name, steps, -, rfl⟩ := exists_steps_of_parse h
  rw [walk_ofSteps] at ho
  obtain ⟨b, hb, rfl⟩ := List.mem_map.mp ho
  obtain ⟨rest, hpath, hfirst⟩ := (mem_branches_iff.mp hb).exists_reportedPath_isPrefix rule
  rw [← htext, text_ofSteps, List.mem_append, Step.newline_mem_flatMap_chars_iff]
  rw [hpath, text_ofSteps, List.mem_append, Step.newline_mem_flatMap_chars_iff] at hmem
  refine hmem.imp_right fun ⟨key, hkey, hnewline⟩ => ⟨key, ?_, hnewline⟩
  exact Step.key_mem_map_unbind_iff.mp
    (hfirst.subset (Step.key_mem_map_unbind_iff.mpr hkey))

/-- A document that is no mapping is reported with the whole path. -/
theorem walk_noMapping (h : parse text = .ok p) (hd : d.isMapping = false) :
    ∃ o, p.walk d = [o] ∧ o.path = p.expand := by
  obtain ⟨name, steps, -, rfl⟩ := exists_steps_of_parse h
  rw [walk, expand_ofSteps, walkFrom_noMapping _ hd]
  exact ⟨_, rfl, rfl⟩

theorem text_expand (p : Path) : p.expand.text = p.text := by
  have hkind (kind : SegmentKind) : kind.expand.text = kind.text := by
    rcases kind with _ | (_ | _ | _) | _ <;> rfl
  have hsegment (s : Segment) : s.expand.text = s.text := by
    rw [Segment.text, Segment.text]
    exact congrArg _ (hkind s.kind)
  have hafter (p : Path) : (p.map Segment.expand).textAfter = p.textAfter := by
    induction p with
    | last s => exact hsegment s
    | link s next ih => rw [map, textAfter, textAfter, hsegment, ih]
  have hfirst (s : Segment) : s.expand.firstText = s.firstText := by
    rw [Segment.firstText, Segment.firstText]
    exact congrArg _ (hkind s.kind)
  cases p with
  | last s => exact hfirst s
  | link s next => rw [expand, map, text, text, hfirst, hafter]

end Path

/-! ## Responses -/

namespace CommandLine.Response

def KeepsLines (r : Response) : Prop := lines (unlines r.output) = r.output

instance (r : Response) : Decidable r.KeepsLines :=
  inferInstanceAs (Decidable (lines (unlines r.output) = r.output))

variable {document : Value} {format : OutputFormat}

theorem query_keepsLines_iff {path : Path} {showMissing : Bool} :
    (query path document showMissing format).KeepsLines ↔
      format = .json ∨ ∀ o ∈ path.walk document, (o.isFound || showMissing) = true →
        '\n' ∉ o.path.text.toList := by
  rw [KeepsLines, lines_unlines_eq_iff, query, List.forall_mem_map]
  simp only [newline_mem_observationLine_iff, List.mem_filter]
  cases format <;> simp

theorem validate_keepsLines_iff {validator : Validator} :
    (validate validator document format).KeepsLines ↔
      format = .json ∨ ∀ v ∈ validator.validate document,
        '\n' ∉ v.path.toList ∧ '\n' ∉ v.rule.toList := by
  rw [KeepsLines, lines_unlines_eq_iff, validate, List.forall_mem_map]
  simp only [newline_mem_violationLine_iff]
  cases format <;> simp

theorem forall_query_keepsLines_iff {text : String} {path : Path}
    (h : Path.parse text = .ok path) :
    (∀ document showMissing format, (query path document showMissing format).KeepsLines) ↔
      '\n' ∉ text.toList := by
  constructor
  · intro hall hmem
    obtain ⟨o, hwalk, hpath⟩ := Path.walk_noMapping h (d := .null) rfl
    rcases query_keepsLines_iff.mp (hall .null true .text) with hjson | hclean
    · cases hjson
    · rw [hwalk, List.forall_mem_singleton, hpath, Path.text_expand] at hclean
      exact hclean (Bool.or_true _) ((Path.parse_eq_ok_iff_text.mp h).2 ▸ hmem)
  · intro hclean document showMissing format
    refine query_keepsLines_iff.mpr (.inr fun o ho _ hmem => hclean ?_)
    -- a rule that is not required reports the path of the observation
    exact Path.newline_mem_of_reportedPath h ho .string hmem

/-- When responses keep their lines: in JSON always, and in text as long as they report no
path with a newline. A query does so for every document exactly if its text has no newline. -/
theorem keepsLines_iff (path : Path) (validator : Validator) (document : Value)
    (showMissing : Bool) (format : OutputFormat) :
    ((query path document showMissing format).KeepsLines ↔
      format = .json ∨ ∀ o ∈ path.walk document, (o.isFound || showMissing) = true →
        '\n' ∉ o.path.text.toList) ∧
    ((validate validator document format).KeepsLines ↔
      format = .json ∨ ∀ v ∈ validator.validate document,
        '\n' ∉ v.path.toList ∧ '\n' ∉ v.rule.toList) ∧
    ∀ text, Path.parse text = .ok path →
      ((∀ document showMissing format, (query path document showMissing format).KeepsLines) ↔
        '\n' ∉ text.toList) :=
  ⟨query_keepsLines_iff, validate_keepsLines_iff, fun _ => forall_query_keepsLines_iff⟩

/-- A key with a newline is found, and its one observation is printed on two lines. -/
theorem not_keepsLines_of_newline_in_name :
    ∃ s : Sources, s = ⟨fun _ => .missing, "\x7b\"a\\nb\": 1\x7d".toUTF8.data.toList, .default⟩ ∧
      (respond ["query", "a\nb"] s).output = ["a\nb\tfound\t1"] ∧
      lines (unlines (respond ["query", "a\nb"] s).output) = ["a", "b\tfound\t1"] ∧
      ¬(respond ["query", "a\nb"] s).KeepsLines :=
  ⟨_, rfl, by decide +kernel, by decide +kernel, by decide +kernel⟩

end CommandLine.Response

end FieldPath
