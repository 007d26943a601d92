import FieldPath.Proofs.Path.Shape

/-!
# Positions in the texts of paths

The text of a chain has its positions between brackets. Without them it is the text of
the chain unbound, which reads back if the chain is of canonical shape. Chains that
take different positions in the same place have different texts, whatever comes after.
-/

namespace FieldPath

/-! ## Texts without positions -/

/-- Leaves nothing between brackets that have only digits between them. -/
def eraseDigits : List Char → List Char
  | [] => []
  | c :: rest =>
      if c = '[' ∧ (rest.dropWhile Char.isDigit).head? = some ']' then
        c :: eraseDigits (rest.dropWhile Char.isDigit)
      else c :: eraseDigits rest
termination_by cs => cs.length
decreasing_by
  · have hle := (List.dropWhile_suffix (l := rest) Char.isDigit).length_le
    simp only [List.length_cons]
    omega
  · simp

def erasePositions (text : String) : String := String.ofList (eraseDigits text.toList)

theorem eraseDigits_nil : eraseDigits [] = [] := by
  rw [eraseDigits]

theorem eraseDigits_append {cs : List Char} (h : ∀ c ∈ cs, c ≠ '[') (rest : List Char) :
    eraseDigits (cs ++ rest) = cs ++ eraseDigits rest := by
  induction cs with
  | nil => rfl
  | cons c cs ih =>
      obtain ⟨hc, hcs⟩ := List.forall_mem_cons.mp h
      rw [List.cons_append, eraseDigits, if_neg (fun hopen => hc hopen.1), ih hcs]
      rfl

theorem eraseDigits_brackets {digits : List Char} (h : ∀ c ∈ digits, c.isDigit = true)
    (rest : List Char) :
    eraseDigits ('[' :: (digits ++ ']' :: rest)) = '[' :: ']' :: eraseDigits rest := by
  have hdrop : (digits ++ ']' :: rest).dropWhile Char.isDigit = ']' :: rest :=
    List.dropWhile_append_of_pos h
  have hsingle : ∀ c ∈ [']'], c ≠ '[' := by simp
  have hclose : eraseDigits (']' :: rest) = ']' :: eraseDigits rest :=
    eraseDigits_append hsingle rest
  rw [eraseDigits, hdrop, if_pos ⟨rfl, rfl⟩, hclose]

example : erasePositions "a[12].b[0][1x]" = "a[].b[][1x]" := by cbv

namespace Index

def digits : Index → List Char
  | bound position => Nat.toDigits 10 position
  | _ => []

theorem toList_text (index : Index) : index.text.toList = '[' :: (index.digits ++ [']']) := by
  cases index with
  | bound position => simp [text, digits]
  | _ => rfl

theorem isDigit_of_mem_digits {index : Index} : ∀ c ∈ index.digits, c.isDigit = true := by
  intro c hc
  cases index with
  | bound position => exact Nat.isDigit_of_mem_toDigits (by decide) (by decide) hc
  | _ => cases hc

/-- The brackets say where the digits of a position end. -/
theorem position_eq_of_text_append {i j : Nat} {xs ys : List Char}
    (h : (bound i).text.toList ++ xs = (bound j).text.toList ++ ys) : i = j := by
  have htake (k : Nat) (zs : List Char) :
      ((bound k).digits ++ ']' :: zs).takeWhile Char.isDigit = Nat.toDigits 10 k := by
    rw [List.takeWhile_append_of_pos isDigit_of_mem_digits]
    simp [digits]
  rw [toList_text, toList_text, List.cons_append, List.cons_append, List.cons_inj_right,
    List.append_assoc, List.append_assoc] at h
  have hdigits : Nat.toDigits 10 i = Nat.toDigits 10 j := by
    rw [← htake i xs, ← htake j ys]
    exact congrArg (List.takeWhile Char.isDigit) h
  simpa using congrArg (Nat.ofDigitChars 10 · 0) hdigits

end Index

namespace Step

theorem eraseDigits_chars_append {step : Step} (h : step.unbind.IsWritten) (rest : List Char) :
    eraseDigits (step.chars ++ rest) = step.unbind.chars ++ eraseDigits rest := by
  cases step with
  | key name =>
      have hname : IsName name := h
      refine eraseDigits_append (List.forall_mem_cons.mpr ⟨by decide, ?_⟩) rest
      rintro c hc rfl
      exact absurd (hname.2 _ hc) (by decide)
  | item index =>
      rw [chars, index.toList_text, List.cons_append, List.append_assoc]
      exact eraseDigits_brackets Index.isDigit_of_mem_digits rest

theorem eraseDigits_flatMap_chars {steps : List Step} (h : ∀ s ∈ steps, s.unbind.IsWritten) :
    eraseDigits (steps.flatMap chars) = (steps.map unbind).flatMap chars := by
  induction steps with
  | nil => exact eraseDigits_nil
  | cons step rest ih =>
      obtain ⟨hstep, hrest⟩ := List.forall_mem_cons.mp h
      rw [List.flatMap_cons, eraseDigits_chars_append hstep, ih hrest]
      rfl

end Step

namespace Path

theorem erasePositions_text_ofSteps {name : String} {steps : List Step}
    (hname : ∀ c ∈ name.toList, c ≠ '[') (hw : ∀ s ∈ steps, s.unbind.IsWritten) :
    erasePositions (ofSteps (some name) steps).text =
      (ofSteps (some name) (steps.map Step.unbind)).text := by
  rw [← String.toList_inj, erasePositions, String.toList_ofList, text_ofSteps, text_ofSteps,
    Option.getD_some, eraseDigits_append hname, Step.eraseDigits_flatMap_chars hw]

/-- Without its positions, the text of a chain is that of the chain unbound. -/
theorem erasePositions_text {p : Path} (h : p.IsShaped) :
    erasePositions p.text = p.unbind.text := by
  rcases isShaped_iff.mp h with rfl | ⟨name, steps, hname, hw, rfl⟩
  · have hname : ∀ c ∈ "".toList, c ≠ '[' := by simp
    have hw : ∀ s ∈ ([] : List Step), s.unbind.IsWritten := List.forall_mem_nil _
    -- the element takes no steps, which unification alone would not find
    have hempty := erasePositions_text_ofSteps hname hw
    exact hempty
  · rw [unbind_ofSteps]
    refine erasePositions_text_ofSteps ?_ hw
    rintro c hc rfl
    exact absurd (hname.2 _ hc) (by decide)

theorem parse_erasePositions {p : Path} (h : p.IsShaped) :
    parse (erasePositions p.text) = .ok p.unbind :=
  parse_eq_ok_iff_text.mpr ⟨h, (erasePositions_text h).symm⟩

end Path

/-! ## First parts of chains -/

theorem Step.unbind_of_isWritten {step : Step} (h : step.IsWritten) : step.unbind = step := by
  cases step with
  | key name => rfl
  | item index =>
      cases h
      rfl

namespace Path

variable {name : String} {steps first : List Step}

theorem ofSteps_inj {name' : String} {steps' : List Step}
    (h : ofSteps (some name) steps = ofSteps (some name') steps') :
    name = name' ∧ steps = steps' := by
  have hsteps := congrArg Path.steps h
  rw [steps_ofSteps, steps_ofSteps] at hsteps
  simpa using hsteps

theorem unbind_of_parse {text : String} {p : Path} (h : parse text = .ok p) : p.unbind = p := by
  obtain ⟨name, steps, hw, rfl⟩ := exists_steps_of_parse h
  rw [unbind_ofSteps, List.map_congr_left fun s hs => Step.unbind_of_isWritten (hw s hs),
    List.map_id']

theorem isShaped_of_parse {text : String} {p : Path} (h : parse text = .ok p) : p.IsShaped := by
  rw [IsShaped, unbind_of_parse h]
  exact (parse_eq_ok_iff_text.mp h).1

/-- What takes the first of the steps, at whatever positions, is of canonical shape too. -/
theorem IsShaped.of_isPrefix (h : (ofSteps (some name) steps).IsShaped)
    (hfirst : first.map Step.unbind <+: steps.map Step.unbind) :
    (ofSteps (some name) first).IsShaped := by
  rcases isShaped_iff.mp h with hempty | ⟨name', steps', hname, hw, heq⟩
  · have hsteps : steps = [] := (ofSteps_inj (hempty : _ = ofSteps (some "") [])).2
    have hnil : first = [] := by simpa [hsteps] using hfirst
    rwa [hnil, ← hsteps]
  · obtain ⟨rfl, rfl⟩ := ofSteps_inj heq
    refine isShaped_iff.mpr (.inr ⟨name, first, hname, ?_, rfl⟩)
    intro s hs
    obtain ⟨t, ht, heq⟩ := List.mem_map.mp (hfirst.subset (List.mem_map_of_mem hs))
    rw [← heq]
    exact hw t ht

section

variable {text : String} (h : parse text = .ok (ofSteps (some name) steps))
  (hfirst : first.map Step.unbind <+: steps.map Step.unbind)

include h

theorem map_unbind_of_parse_ofSteps : steps.map Step.unbind = steps := by
  have hunbind := unbind_of_parse h
  rw [unbind_ofSteps] at hunbind
  exact (ofSteps_inj hunbind).2

include hfirst

/-- Unbound, the first steps of a parsed path are what the path is cut to. -/
theorem truncate_depth_of_isPrefix :
    (ofSteps (some name) steps).truncate (ofSteps (some name) first).depth =
      some (ofSteps (some name) first).unbind := by
  rw [map_unbind_of_parse_ofSteps h] at hfirst
  rw [depth_ofSteps, truncate_succ_ofSteps, unbind_ofSteps, List.prefix_iff_eq_take.mp hfirst,
    List.length_map]

/-- Without its positions, the text of the first steps is a first part of the text. -/
theorem exists_text_eq_append :
    ∃ rest, (ofSteps (some name) steps).text =
      erasePositions (ofSteps (some name) first).text ++ rest := by
  rw [erasePositions_text ((isShaped_of_parse h).of_isPrefix hfirst), unbind_ofSteps]
  rw [map_unbind_of_parse_ofSteps h] at hfirst
  obtain ⟨more, rfl⟩ := hfirst
  refine ⟨String.ofList (more.flatMap Step.chars), ?_⟩
  rw [← String.toList_inj, String.toList_append, text_ofSteps, text_ofSteps, String.toList_ofList,
    List.flatMap_append, List.append_assoc]

end

end Path

/-! ## Texts told apart by positions -/

/-- After the same steps, two positions are taken in the same place. -/
inductive Step.Diverge : List Step → List Step → Prop where
  | here {i j : Nat} (hne : i ≠ j) (xs ys : List Step) :
      Diverge (.item (.bound i) :: xs) (.item (.bound j) :: ys)
  | past (step : Step) {xs ys : List Step} (h : Diverge xs ys) :
      Diverge (step :: xs) (step :: ys)

namespace Step.Diverge

variable {xs ys : List Step}

theorem append (h : Diverge xs ys) (more more' : List Step) :
    Diverge (xs ++ more) (ys ++ more') := by
  induction h with
  | here hne xs ys => exact .here hne _ _
  | past step _ ih => exact .past step ih

theorem of_key_cons {name : String} (h : Diverge (.key name :: xs) (.key name :: ys)) :
    Diverge xs ys := by
  cases h with
  | past _ h => exact h

theorem flatMap_chars_ne (h : Diverge xs ys) : xs.flatMap chars ≠ ys.flatMap chars := by
  induction h with
  | here hne xs ys =>
      intro heq
      exact hne (Index.position_eq_of_text_append heq)
  | past step _ ih =>
      intro heq
      exact ih (List.append_cancel_left heq)

/-- Chains whose steps diverge are written differently. -/
theorem text_ne (h : Diverge xs ys) (name : Option String) :
    (Path.ofSteps name xs).text ≠ (Path.ofSteps name ys).text := by
  intro heq
  rw [← String.toList_inj, Path.text_ofSteps, Path.text_ofSteps] at heq
  exact h.flatMap_chars_ne (List.append_cancel_left heq)

end Step.Diverge

end FieldPath
