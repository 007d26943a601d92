import FieldPath.CommandLine.Response
import FieldPath.Proofs.Path.Grammar
import FieldPath.Proofs.Path.Shape
import Mathlib.Data.List.Infix

/-!
# Checked texts

Checking goes through all texts, whatever is wrong with some of them. A text that is a path
comes back as it was given, and its depth and whether it has an array can be read off its
characters: a dot and a pair of brackets are one step each. Every other text gets an error.
-/

namespace FieldPath

namespace Path

def IsAddress (text : String) : Prop := text = "" ∨ text.toList ∈ pathTexts

theorem isOk_parse_iff {text : String} : (parse text).isOk = true ↔ IsAddress text := by
  rw [IsAddress, mem_pathTexts_iff]
  constructor
  · intro h
    cases hparse : parse text with
    | error e => simp [hparse, Except.isOk, Except.toBool] at h
    | ok p =>
        rcases parse_eq_ok_iff.mp hparse with ⟨hempty, -⟩ | ⟨name, steps, htext, -⟩
        · exact .inl hempty
        · exact .inr ⟨name, steps, htext⟩
  · intro h
    rcases h with rfl | ⟨name, steps, htext⟩
    · rfl
    · rw [parse_of_isPathText htext]
      rfl

theorem isAddress_of_parse {text : String} {p : Path} (h : parse text = .ok p) :
    IsAddress text := by
  rw [← isOk_parse_iff, h]
  rfl

theorem not_isAddress_of_parse {text : String} {e : GrammarError} (h : parse text = .error e) :
    ¬IsAddress text := by
  rw [← isOk_parse_iff, h]
  exact Bool.false_ne_true

instance : DecidablePred IsAddress := fun _ => decidable_of_iff _ isOk_parse_iff

/-! ## Counting on the text -/

/-- How often an opening bracket stands right before a closing one. -/
def bracketPairs (cs : List Char) : Nat := cs.tails.countP (['[', ']'].isPrefixOf ·)

theorem bracketPairs_cons (c : Char) (cs : List Char) :
    bracketPairs (c :: cs) =
      bracketPairs cs + if ['[', ']'].isPrefixOf (c :: cs) then 1 else 0 := by
  simp [bracketPairs, List.countP_cons]

theorem bracketPairs_append_of_notMem {front : List Char} (h : '[' ∉ front) (cs : List Char) :
    bracketPairs (front ++ cs) = bracketPairs cs := by
  induction front with
  | nil => rfl
  | cons c front ih =>
      obtain ⟨hc, hfront⟩ := not_or.mp (List.mem_cons.not.mp h)
      simp [bracketPairs_cons, ih hfront, hc]

theorem bracketPairs_brackets (cs : List Char) :
    bracketPairs ('[' :: ']' :: cs) = bracketPairs cs + 1 := by
  simp [bracketPairs_cons]

end Path

namespace IsName

variable {name : String}

theorem dot_notMem (h : IsName name) : '.' ∉ name.toList :=
  fun hmem => (Path.isNameChar_iff.mp (h.2 _ hmem)).1 rfl

theorem open_notMem (h : IsName name) : '[' ∉ name.toList :=
  fun hmem => (Path.isNameChar_iff.mp (h.2 _ hmem)).2.1 rfl

end IsName

namespace Step

/-- Each step shows in the text by one dot or by one pair of brackets. -/
theorem count_dot_add_bracketPairs {steps : List Step} (hw : ∀ s ∈ steps, s.IsWritten) :
    (steps.flatMap chars).count '.' + Path.bracketPairs (steps.flatMap chars) =
      steps.length := by
  induction steps with
  | nil => rfl
  | cons step rest ih =>
      obtain ⟨hs, hrest⟩ := List.forall_mem_cons.mp hw
      have hcount := ih hrest
      rw [List.flatMap_cons, List.length_cons]
      cases step with
      | key name =>
          have hopen : '[' ∉ '.' :: name.toList := by simpa using hs.open_notMem
          rw [chars, Path.bracketPairs_append_of_notMem hopen, List.count_append,
            List.count_cons_self, List.count_eq_zero.mpr hs.dot_notMem]
          omega
      | item index =>
          cases hs
          have hbrackets := Path.bracketPairs_brackets (rest.flatMap chars)
          simp [chars, Index.text, hbrackets]
          omega

theorem open_mem_flatMap_chars_iff {steps : List Step} (hw : ∀ s ∈ steps, s.IsWritten) :
    '[' ∈ steps.flatMap chars ↔ ∃ index, .item index ∈ steps := by
  rw [List.mem_flatMap]
  constructor
  · rintro ⟨step, hstep, hopen⟩
    cases step with
    | key name => simp [chars, (hw _ hstep : IsName name).open_notMem] at hopen
    | item index => exact ⟨index, hstep⟩
  · rintro ⟨index, hstep⟩
    have hindex : index = .unbound := hw _ hstep
    exact ⟨_, hstep, by simp [chars, Index.text, hindex]⟩

end Step

namespace Path

variable {text : String} {p : Path}

theorem depth_of_parse (h : parse text = .ok p) :
    p.depth = 1 + text.toList.count '.' + bracketPairs text.toList := by
  rcases parse_eq_ok_iff.mp h with ⟨rfl, rfl⟩ | ⟨name, steps, ⟨hname, hw, htext⟩, rfl⟩
  · rfl
  · have hcount := Step.count_dot_add_bracketPairs hw
    rw [depth_ofSteps, htext, List.count_append, List.count_eq_zero.mpr hname.dot_notMem,
      bracketPairs_append_of_notMem hname.open_notMem]
    omega

theorem hasArray_of_parse (h : parse text = .ok p) :
    p.hasArray = true ↔ '[' ∈ text.toList := by
  rcases parse_eq_ok_iff.mp h with ⟨rfl, rfl⟩ | ⟨name, steps, ⟨hname, hw, htext⟩, rfl⟩
  · decide
  · rw [hasArray_ofSteps_iff, htext, List.mem_append, Step.open_mem_flatMap_chars_iff hw]
    simp [hname.open_notMem]

end Path

/-! ## Responses to checks -/

namespace CommandLine.Response

/-- What is printed for a text that is a path, by its characters alone. -/
def measured (text : String) : String :=
  text ++ "\tdepth=" ++ Nat.repr (1 + text.toList.count '.' + Path.bracketPairs text.toList)
    ++ "\tarray=" ++ (if '[' ∈ text.toList then "true" else "false")

theorem checkedLine_of_parse {text : String} {p : Path} (h : Path.parse text = .ok p) :
    checkedLine p = measured text := by
  rw [checkedLine, measured, (Path.parse_eq_ok_iff_text.mp h).2, Path.depth_of_parse h]
  simp only [Path.hasArray_of_parse h]

/-- Checking splits the texts in two, and keeps the order on each side. -/
theorem check_cons_of_parse {text : String} {p : Path} (h : Path.parse text = .ok p)
    (texts : List String) :
    (check (text :: texts)).output = measured text :: (check texts).output ∧
      (check (text :: texts)).errors = (check texts).errors := by
  rw [← checkedLine_of_parse h]
  simp [check, h, Except.toOption]

theorem check_cons_of_error {text : String} {e : Path.GrammarError}
    (h : Path.parse text = .error e) (texts : List String) :
    (check (text :: texts)).output = (check texts).output ∧
      (check (text :: texts)).errors = rejectedLine text e :: (check texts).errors := by
  simp [check, h, Except.toOption]

theorem check_status (texts : List String) :
    (check texts).status = if (check texts).errors = [] then .success else .failure := by
  simp [check, List.isEmpty_iff]

theorem check_output (texts : List String) :
    (check texts).output = (texts.filter (Path.IsAddress ·)).map measured := by
  induction texts with
  | nil => rfl
  | cons text rest ih =>
      cases h : Path.parse text with
      | ok p =>
          rw [(check_cons_of_parse h rest).1, ih]
          simp [Path.isAddress_of_parse h]
      | error e =>
          rw [(check_cons_of_error h rest).1, ih]
          simp [Path.not_isAddress_of_parse h]

theorem check_errors (texts : List String) :
    List.Forall₂ (fun text line => ∃ e, Path.parse text = .error e ∧ line = rejectedLine text e)
      (texts.filter (¬Path.IsAddress ·)) (check texts).errors := by
  induction texts with
  | nil => exact .nil
  | cons text rest ih =>
      cases h : Path.parse text with
      | ok p =>
          rw [(check_cons_of_parse h rest).2]
          simpa [Path.isAddress_of_parse h] using ih
      | error e =>
          rw [(check_cons_of_error h rest).2]
          simpa [Path.not_isAddress_of_parse h, h] using ih

/-- Each path among the texts comes back as it is, with what can be counted on it, each other
text is reported, both in order, and all is well only if all texts are paths. -/
theorem check_measures (texts : List String) :
    (check texts).output = (texts.filter (Path.IsAddress ·)).map measured ∧
      List.Forall₂ (fun text line => ∃ e, Path.parse text = .error e ∧ line = rejectedLine text e)
        (texts.filter (¬Path.IsAddress ·)) (check texts).errors ∧
      (check texts).status =
        if ∀ text ∈ texts, Path.IsAddress text then .success else .failure := by
  refine ⟨check_output texts, check_errors texts, ?_⟩
  have hlength := (check_errors texts).length_eq
  have hnone : (check texts).errors = [] ↔ ∀ text ∈ texts, Path.IsAddress text := by
    rw [← List.length_eq_zero_iff, ← hlength, List.length_eq_zero_iff, List.filter_eq_nil_iff]
    simp
  simp only [check_status, hnone]

/-- An illegal text in between stops neither the path before it nor the one after it. -/
example : (check ["a.b[][]", "a]", ""]).output =
    ["a.b[][]\tdepth=4\tarray=true", "\tdepth=1\tarray=false"] := by decide +kernel

end CommandLine.Response

end FieldPath
