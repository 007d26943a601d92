import FieldPath.Proofs.Path.Reading
import Mathlib.Computability.Language

/-!
# The language of path texts

Path texts form a regular language: names with any number of brackets after
each, and dots between them. Scanning and parsing accept exactly its texts;
parsing accepts the empty text besides.
-/

open Computability

namespace FieldPath

namespace Path

def nameTexts : Language Char :=
  {cs | cs ≠ [] ∧ ∀ c ∈ cs, c ≠ '.' ∧ c ≠ '[' ∧ c ≠ ']'}

def bracketTexts : Language Char := {['[', ']']}

def dotTexts : Language Char := {['.']}

/-- A name with brackets after it, then any number of dots with such names. -/
def pathTexts : Language Char :=
  nameTexts * bracketTexts∗ * (dotTexts * nameTexts * bracketTexts∗)∗

theorem toList_mem_nameTexts_iff {name : String} : name.toList ∈ nameTexts ↔ IsName name := by
  constructor
  · rintro ⟨hne, h⟩
    exact ⟨hne, fun c hc => isNameChar_iff.mpr (h c hc)⟩
  · rintro ⟨hne, h⟩
    exact ⟨hne, fun c hc => isNameChar_iff.mp (h c hc)⟩

/-- A choice repeated is one side repeated, with the other side in between. -/
theorem kstar_add {α : Type} [KleeneAlgebra α] (a b : α) : (a + b)∗ = a∗ * (b * a∗)∗ := by
  have hsum : a + b ≤ (a + b)∗ := le_kstar
  have ha : a∗ ≤ (a + b)∗ := kstar_mono (add_le_iff.mp le_rfl).1
  apply le_antisymm
  · have hone : 1 ≤ a∗ * (b * a∗)∗ := by
      rw [← one_mul 1]
      exact mul_le_mul' one_le_kstar one_le_kstar
    have hleft : a * (a∗ * (b * a∗)∗) ≤ a∗ * (b * a∗)∗ := by
      rw [← mul_assoc]
      exact mul_le_mul_left mul_kstar_le_kstar _
    have hright : b * (a∗ * (b * a∗)∗) ≤ a∗ * (b * a∗)∗ := by
      calc b * (a∗ * (b * a∗)∗) = b * a∗ * (b * a∗)∗ := (mul_assoc _ _ _).symm
        _ ≤ (b * a∗)∗ := mul_kstar_le_kstar
        _ = 1 * (b * a∗)∗ := (one_mul _).symm
        _ ≤ a∗ * (b * a∗)∗ := mul_le_mul_left one_le_kstar _
    refine kstar_le_of_mul_le_right hone ?_
    rw [add_mul]
    exact add_le hleft hright
  · have hblock : b * a∗ ≤ (a + b)∗ := by
      calc b * a∗ ≤ (a + b)∗ * (a + b)∗ := mul_le_mul' (add_le_iff.mp hsum).2 ha
        _ = (a + b)∗ := kstar_mul_kstar _
    calc a∗ * (b * a∗)∗ ≤ (a + b)∗ * (a + b)∗∗ := mul_le_mul' ha (kstar_mono hblock)
      _ = (a + b)∗ := by rw [kstar_idem, kstar_mul_kstar]

/-- The texts of single steps. -/
theorem mem_step_iff {cs : List Char} :
    cs ∈ bracketTexts + dotTexts * nameTexts ↔ ∃ step : Step, step.IsWritten ∧ cs = step.chars := by
  rw [Language.mem_add, Language.mem_mul]
  constructor
  · rintro (rfl | ⟨_, rfl, name, hname, rfl⟩)
    · exact ⟨.item .unbound, rfl, rfl⟩
    · refine ⟨.key (String.ofList name), ?_, by simp [Step.chars]⟩
      exact toList_mem_nameTexts_iff.mp (by rwa [String.toList_ofList])
  · rintro ⟨step, hw, rfl⟩
    cases step with
    | key name => exact .inr ⟨['.'], rfl, name.toList, toList_mem_nameTexts_iff.mpr hw, rfl⟩
    | item index =>
        cases hw
        exact .inl rfl

theorem mem_kstar_step_iff {cs : List Char} :
    cs ∈ (bracketTexts + dotTexts * nameTexts)∗ ↔
      ∃ steps : List Step, (∀ s ∈ steps, s.IsWritten) ∧ cs = steps.flatMap Step.chars := by
  rw [Language.mem_kstar]
  constructor
  · rintro ⟨texts, rfl, h⟩
    induction texts with
    | nil => exact ⟨[], by simp, rfl⟩
    | cons text rest ih =>
        obtain ⟨htext, hrest⟩ := List.forall_mem_cons.mp h
        obtain ⟨step, hstep, rfl⟩ := mem_step_iff.mp htext
        obtain ⟨steps, hsteps, heq⟩ := ih hrest
        refine ⟨step :: steps, List.forall_mem_cons.mpr ⟨hstep, hsteps⟩, ?_⟩
        rw [List.flatten_cons, heq, List.flatMap_cons]
  · rintro ⟨steps, hw, rfl⟩
    refine ⟨steps.map Step.chars, List.flatMap_def .., ?_⟩
    intro text htext
    obtain ⟨step, hstep, rfl⟩ := List.mem_map.mp htext
    exact mem_step_iff.mpr ⟨step, hw step hstep, rfl⟩

theorem mem_pathTexts_iff {text : String} :
    text.toList ∈ pathTexts ↔ ∃ name steps, IsPathText text name steps := by
  have hblocks : pathTexts = nameTexts * (bracketTexts + dotTexts * nameTexts)∗ := by
    rw [pathTexts, kstar_add, mul_assoc nameTexts]
  rw [hblocks, Language.mem_mul]
  constructor
  · rintro ⟨name, hname, cs, hcs, htext⟩
    obtain ⟨steps, hw, rfl⟩ := mem_kstar_step_iff.mp hcs
    refine ⟨String.ofList name, steps, toList_mem_nameTexts_iff.mp ?_, hw, ?_⟩
    · rwa [String.toList_ofList]
    · rw [String.toList_ofList, htext]
  · rintro ⟨name, steps, hname, hw, htext⟩
    exact ⟨name.toList, toList_mem_nameTexts_iff.mpr hname, _,
      mem_kstar_step_iff.mpr ⟨steps, hw, rfl⟩, htext.symm⟩

/-- Parsing and scanning accept the language of path texts, and only parsing
accepts the empty text. -/
theorem parse_and_scan_accept_iff (text : String) :
    ((∃ p, parse text = .ok p) ↔ text = "" ∨ text.toList ∈ pathTexts) ∧
      ((∃ tokens, scan text = .ok tokens) ↔ text ≠ "" ∧ text.toList ∈ pathTexts) := by
  rw [mem_pathTexts_iff]
  constructor
  · constructor
    · rintro ⟨p, h⟩
      rcases parse_eq_ok_iff.mp h with ⟨hempty, -⟩ | ⟨name, steps, htext, -⟩
      · exact .inl hempty
      · exact .inr ⟨name, steps, htext⟩
    · rintro (hempty | ⟨name, steps, htext⟩)
      · exact ⟨_, parse_eq_ok_iff.mpr (.inl ⟨hempty, rfl⟩)⟩
      · exact ⟨_, parse_of_isPathText htext⟩
  · constructor
    · rintro ⟨tokens, h⟩
      obtain ⟨name, steps, htext, -⟩ := scan_eq_ok_iff.mp h
      exact ⟨htext.ne_empty, name, steps, htext⟩
    · rintro ⟨-, name, steps, htext⟩
      exact ⟨_, scan_eq_ok_iff.mpr ⟨name, steps, htext, rfl⟩⟩

end Path

end FieldPath
