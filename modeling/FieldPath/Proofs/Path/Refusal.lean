import FieldPath.Proofs.Path.Grammar
import Mathlib.Data.List.Chain

/-!
# Refused texts

A text is refused at the first character that no path text can have there, or at its end
if more has to come. Which character may follow which decides this alone: what was read up
to there can still become a path text, and together with the next character it cannot.
-/

namespace FieldPath

namespace Path

/-! ## Which character may follow which -/

def Follows (c next : Char) : Prop :=
  if c = '.' then isNameChar next = true
  else if c = '[' then next = ']'
  else if c = ']' then next = '.' ∨ next = '['
  else next ≠ ']'

def MayEnd (c : Char) : Prop := c ≠ '.' ∧ c ≠ '['

section

variable {c next : Char}

theorem mayEnd_of_isNameChar (h : isNameChar c = true) : MayEnd c :=
  ⟨(isNameChar_iff.mp h).1, (isNameChar_iff.mp h).2.1⟩

theorem follows_of_isNameChar (h : isNameChar c = true) : Follows c next ↔ next ≠ ']' := by
  obtain ⟨hdot, hopen, hclose⟩ := isNameChar_iff.mp h
  simp [Follows, hdot, hopen, hclose]

theorem MayEnd.follows (h : MayEnd c) (hnext : next = '.' ∨ next = '[') : Follows c next := by
  by_cases hclose : c = ']'
  · subst hclose
    simpa [Follows] using hnext
  · rw [follows_of_isNameChar (isNameChar_iff.mpr ⟨h.1, h.2, hclose⟩)]
    rcases hnext with rfl | rfl <;> decide

theorem MayEnd.not_follows_close (h : MayEnd c) : ¬Follows c ']' := by
  by_cases hclose : c = ']'
  · subst hclose
    simp [Follows]
  · simp [Follows, h.1, h.2, hclose]

end

theorem isChain_name_append {name rest : List Char} (hn : ∀ c ∈ name, isNameChar c = true)
    (hrest : ∀ c, MayEnd c → (c :: rest).IsChain Follows) (hne : name ≠ []) :
    (name ++ rest).IsChain Follows := by
  induction name with
  | nil => exact absurd rfl hne
  | cons c tail ih =>
      obtain ⟨hc, htail⟩ := List.forall_mem_cons.mp hn
      cases tail with
      | nil => exact hrest c (mayEnd_of_isNameChar hc)
      | cons d tail =>
          have hd : d ≠ ']' := (isNameChar_iff.mp (htail d List.mem_cons_self)).2.2
          exact List.isChain_cons_cons.mpr
            ⟨(follows_of_isNameChar hc).mpr hd, ih htail (List.cons_ne_nil d tail)⟩

theorem isChain_cons_chars {steps : List Step} (hw : ∀ s ∈ steps, s.IsWritten) {c : Char}
    (hc : MayEnd c) : (c :: steps.flatMap Step.chars).IsChain Follows := by
  induction steps generalizing c with
  | nil => exact List.isChain_singleton c
  | cons step rest ih =>
      obtain ⟨hs, hrest⟩ := List.forall_mem_cons.mp hw
      rw [List.flatMap_cons]
      cases step with
      | key name =>
          have hname : (name.toList ++ rest.flatMap Step.chars).IsChain Follows :=
            isChain_name_append hs.2 (fun _ => ih hrest) hs.1
          obtain ⟨d, tail, hd⟩ := List.exists_cons_of_ne_nil hs.1
          have hfirst : Follows '.' d := hs.2 d (by simp [hd])
          rw [hd] at hname
          rw [Step.chars, hd]
          exact .cons_cons (hc.follows (.inl rfl)) (.cons_cons hfirst hname)
      | item index =>
          cases hs
          have hclosed : (']' :: rest.flatMap Step.chars).IsChain Follows :=
            ih hrest ⟨by decide, by decide⟩
          exact .cons_cons (hc.follows (.inr rfl)) (.cons_cons rfl hclosed)

/-- In a path text every character may follow the one before it. -/
theorem IsPathText.isChain {text name : String} {steps : List Step}
    (h : IsPathText text name steps) : text.toList.IsChain Follows := by
  obtain ⟨hname, hw, htext⟩ := h
  rw [htext]
  exact isChain_name_append hname.2 (fun _ => isChain_cons_chars hw) hname.1

/-! ## Texts that can be completed -/

/-- Whether more text can make a path text of it. -/
def IsViable (cs : List Char) : Prop := ∃ more, cs ++ more ∈ pathTexts

theorem mem_pathTexts_iff_ofList {cs : List Char} :
    cs ∈ pathTexts ↔ ∃ name steps, IsPathText (String.ofList cs) name steps := by
  rw [← mem_pathTexts_iff, String.toList_ofList]

theorem mem_pathTexts_append {cs : List Char} {step : Step} (h : cs ∈ pathTexts)
    (hs : step.IsWritten) : cs ++ step.chars ∈ pathTexts := by
  obtain ⟨name, steps, hname, hw, htext⟩ := mem_pathTexts_iff_ofList.mp h
  rw [String.toList_ofList] at htext
  refine mem_pathTexts_iff_ofList.mpr ⟨name, steps ++ [step], hname, ?_, ?_⟩
  · exact List.forall_mem_append.mpr ⟨hw, List.forall_mem_singleton.mpr hs⟩
  · simp [htext]

theorem mem_pathTexts_key {cs : List Char} {name : String} (h : cs ∈ pathTexts)
    (hn : IsName name) : cs ++ '.' :: name.toList ∈ pathTexts := by
  have hkey : (Step.key name).IsWritten := hn
  exact mem_pathTexts_append h hkey

theorem mem_pathTexts_item {cs : List Char} (h : cs ∈ pathTexts) :
    cs ++ ['[', ']'] ∈ pathTexts := by
  have hitem : (Step.item .unbound).IsWritten := rfl
  exact mem_pathTexts_append h hitem

theorem isViable_of_mem {cs : List Char} (h : cs ∈ pathTexts) : IsViable cs :=
  ⟨[], by rwa [List.append_nil]⟩

section

variable {cs : List Char} {c : Char}

theorem isViable_dot (h : cs ∈ pathTexts) : IsViable (cs ++ ['.']) := by
  have hname : IsName "x" := by simp [IsName, isNameChar]
  refine ⟨['x'], ?_⟩
  rw [List.append_assoc]
  exact mem_pathTexts_key h hname

theorem isViable_open (h : cs ∈ pathTexts) : IsViable (cs ++ ['[']) := by
  refine ⟨[']'], ?_⟩
  rw [List.append_assoc]
  exact mem_pathTexts_item h

theorem isNameChar_of_isViable_singleton (h : IsViable [c]) : isNameChar c = true := by
  obtain ⟨more, hmem⟩ := h
  obtain ⟨name, steps, hname, -, htext⟩ := mem_pathTexts_iff_ofList.mp hmem
  obtain ⟨d, tail, hd⟩ := List.exists_cons_of_ne_nil hname.1
  have hcd : c = d := by
    rw [String.toList_ofList, hd] at htext
    exact (List.cons.inj htext).1
  exact hcd ▸ hname.2 d (by simp [hd])

theorem follows_of_isViable {next : Char} (h : IsViable (cs ++ [next]))
    (hc : cs.getLast? = some c) : Follows c next := by
  obtain ⟨more, hmem⟩ := h
  obtain ⟨name, steps, htext⟩ := mem_pathTexts_iff_ofList.mp hmem
  have hchain := htext.isChain
  rw [String.toList_ofList, List.append_assoc] at hchain
  exact (List.isChain_append.mp hchain).2.2 c hc next rfl

/-- A path text goes on with a dot, which tells how it can end. -/
theorem exists_mayEnd_of_mem (h : cs ∈ pathTexts) : ∃ c, cs.getLast? = some c ∧ MayEnd c := by
  have hne : cs ≠ [] := by
    rintro rfl
    obtain ⟨name, steps, htext⟩ := mem_pathTexts_iff_ofList.mp h
    exact htext.ne_empty rfl
  have hlast := List.getLast?_eq_getLast_of_ne_nil hne
  have hdot : Follows (cs.getLast hne) '.' := follows_of_isViable (isViable_dot h) hlast
  refine ⟨_, hlast, ?_, ?_⟩
  · intro heq
    simp [heq, Follows, isNameChar] at hdot
  · intro heq
    simp [heq, Follows] at hdot

end

/-! ## Where a text is refused -/

/-- An error tells what is wrong with a text: the first character that it cannot go on with
to a path text, or that it ends before it is one. -/
def GrammarError.Explains (text : String) : GrammarError → Prop
  | .empty => text = ""
  | .unexpectedToken position found _ =>
      ∃ (before : String) (c : Char) (rest : String),
        text = before ++ String.singleton c ++ rest ∧ position = before.utf8ByteSize ∧
          found = String.singleton c ∧ IsViable before.toList ∧ ¬IsViable (before.toList ++ [c])
  | .unexpectedEnd position _ =>
      position = text.utf8ByteSize ∧ IsViable text.toList ∧ text ≠ "" ∧ text.toList ∉ pathTexts

namespace GrammarError

variable {cs rest : List Char} {c : Char}

theorem explains_unexpectedToken (hviable : IsViable cs) (hnot : ¬IsViable (cs ++ [c]))
    (rest : List Char) (expected : Expectation) :
    (unexpectedToken (byteLength cs) c.toString expected).Explains
      (String.ofList (cs ++ c :: rest)) := by
  refine ⟨String.ofList cs, c, String.ofList rest, ?_, ?_, Char.toString_eq_singleton, ?_⟩
  · rw [← String.toList_inj]
    simp
  · rw [← byteLength_toList, String.toList_ofList]
  · rw [String.toList_ofList]
    exact ⟨hviable, hnot⟩

theorem explains_unexpectedEnd (hviable : IsViable (cs ++ [c])) (hc : ¬MayEnd c)
    (expected : Expectation) :
    (unexpectedEnd (byteLength (cs ++ [c])) expected).Explains (String.ofList (cs ++ [c])) := by
  refine ⟨?_, ?_, ?_, ?_⟩
  · rw [← byteLength_toList, String.toList_ofList]
  · rwa [String.toList_ofList]
  · intro hempty
    simp [← String.toList_inj] at hempty
  · rw [String.toList_ofList]
    intro hmem
    obtain ⟨d, hd, hend⟩ := exists_mayEnd_of_mem hmem
    rw [List.getLast?_concat] at hd
    cases hd
    exact hc hend

end GrammarError

namespace Token

theorem eq_error_of_map {ε α β : Type} {f : α → β} {x : Except ε α} {e : ε}
    (h : x.map f = .error e) : x = .error e := by
  cases x with
  | error e' => exact congrArg Except.error (Except.error.inj h)
  | ok a => cases h

section

variable {front rest : List Char} {previous : Option TokenKind} {e : GrammarError}

theorem checkDot_of_closes (hp : Closes previous) (position : Nat) (rest : List Char) :
    checkDot position previous rest =
      match rest with
      | [] => .error (.unexpectedEnd (position + 1) .nameAfterDot)
      | c :: _ =>
          if isNameChar c then .ok ()
          else .error (.unexpectedToken (position + 1) c.toString .nameAfterDot) := by
  rcases previous with _ | (_ | _ | _)
  · exact absurd rfl hp.1
  · rfl
  · exact absurd rfl hp.2
  · rfl

/-- A dot is refused for what comes after it: nothing, or a character that begins no name. -/
theorem explains_of_checkDot (hfront : front ∈ pathTexts) (hp : Closes previous)
    (h : checkDot (byteLength front) previous rest = .error e) :
    e.Explains (String.ofList (front ++ '.' :: rest)) := by
  have hlength : byteLength front + 1 = byteLength (front ++ ['.']) := by
    rw [byteLength_append]
    rfl
  have hviable := isViable_dot hfront
  rw [checkDot_of_closes hp, hlength] at h
  cases rest with
  | nil =>
      cases h
      exact GrammarError.explains_unexpectedEnd hviable (fun hend => hend.1 rfl) _
  | cons c tail =>
      simp only at h
      by_cases hc : isNameChar c = true
      · rw [if_pos hc] at h
        cases h
      · rw [if_neg hc] at h
        cases h
        have hnot : ¬IsViable (front ++ ['.'] ++ [c]) := fun hgoes =>
          hc (follows_of_isViable hgoes List.getLast?_concat)
        simpa using GrammarError.explains_unexpectedToken hviable hnot tail .nameAfterDot

theorem byteLength_brackets (cs : List Char) :
    byteLength cs + 2 = byteLength (cs ++ ['[', ']']) := by
  rw [byteLength_append]
  rfl

/-- An opening bracket is refused for what comes after it, which is not the closing one, or
for what comes after both. -/
theorem explains_of_checkBrackets (hfront : front ∈ pathTexts) (hp : Closes previous)
    (h : checkBrackets (byteLength front) previous rest = .error e) :
    e.Explains (String.ofList (front ++ '[' :: rest)) := by
  have hopen : byteLength front + 1 = byteLength (front ++ ['[']) := by
    rw [byteLength_append]
    rfl
  have hviable := isViable_open hfront
  have hsome : ¬previous.isNone = true := by
    cases previous with
    | none => exact absurd rfl hp.1
    | some _ => exact Bool.false_ne_true
  unfold checkBrackets at h
  rw [if_neg hsome, hopen, byteLength_brackets] at h
  split at h
  · cases h
    exact GrammarError.explains_unexpectedEnd hviable (fun hend => hend.2 rfl) _
  · cases h
  · rename_i c tail
    split at h
    · cases h
    · rename_i hc
      cases h
      have hclosed := mem_pathTexts_item hfront
      have hnot : ¬IsViable (front ++ ['[', ']'] ++ [c]) := by
        intro hgoes
        have hfollows : Follows ']' c := follows_of_isViable hgoes (by simp)
        exact hc (by simpa [Follows] using hfollows)
      simpa using GrammarError.explains_unexpectedToken (isViable_of_mem hclosed) hnot tail
        .continuation
  · rename_i c tail hend hmore
    cases h
    have hnot : ¬IsViable (front ++ ['['] ++ [c]) := by
      intro hgoes
      have hclose : c = ']' := follows_of_isViable hgoes List.getLast?_concat
      cases tail with
      | nil => exact hend hclose rfl
      | cons d ds => exact hmore d ds hclose rfl
    simpa using GrammarError.explains_unexpectedToken hviable hnot tail .closingBracket

end

/-- After a path text, whatever scanning refuses is explained by the text as a whole. -/
theorem explains_of_scanFrom {front cs : List Char} (previous : Option TokenKind)
    {e : GrammarError} (hfront : front ∈ pathTexts) (hp : Closes previous) (hb : IsBoundary cs)
    (h : scanFrom (byteLength front) previous cs = .error e) :
    e.Explains (String.ofList (front ++ cs)) := by
  match cs with
  | [] =>
      rw [scanFrom_nil] at h
      cases h
  | c :: rest =>
      by_cases hdot : c = '.'
      · subst hdot
        cases hcheck : checkDot (byteLength front) previous rest with
        | error e' =>
            rw [scanFrom, if_pos rfl, hcheck] at h
            cases h
            exact explains_of_checkDot hfront hp hcheck
        | ok _ =>
            obtain ⟨name, hname, hrest⟩ := exists_name_of_head? ((checkDot_eq_ok_iff hp).mp hcheck)
            have hboundary := isBoundary_dropWhile rest
            have hlen := (List.dropWhile_suffix (l := rest) isNameChar).length_le
            have hread := mem_pathTexts_key hfront hname
            have hlength : byteLength front + 1 + byteLength name.toList =
                byteLength (front ++ '.' :: name.toList) := by
              rw [byteLength_append, Nat.add_assoc]
              rfl
            rw [hrest, scanFrom_key _ hp hname hboundary, hlength] at h
            have honward := explains_of_scanFrom (some (.name name)) hread ⟨by simp, by simp⟩
              hboundary (eq_error_of_map h)
            rwa [List.append_assoc, List.cons_append, ← hrest] at honward
      by_cases hopen : c = '['
      · subst hopen
        cases hcheck : checkBrackets (byteLength front) previous rest with
        | error e' =>
            have herror : scanFrom (byteLength front) previous ('[' :: rest) = .error e' := by
              rw [scanFrom, if_neg (by decide), if_pos rfl]
              split
              next heq => exact congrArg _ (Except.error.inj (heq.symm.trans hcheck))
              next heq => cases heq.symm.trans hcheck
            rw [herror] at h
            cases h
            exact explains_of_checkBrackets hfront hp hcheck
        | ok tail =>
            obtain ⟨rfl, htail⟩ := (checkBrackets_eq_ok_iff hp).mp hcheck
            have hread := mem_pathTexts_item hfront
            rw [scanFrom_item _ hp htail, byteLength_brackets] at h
            have honward := explains_of_scanFrom (some .brackets) hread ⟨by simp, by simp⟩
              (isBoundary_of_separator htail) (eq_error_of_map h)
            rwa [List.append_assoc] at honward
      · obtain rfl := eq_close_of_isBoundary hb hdot hopen
        obtain ⟨d, hd, hend⟩ := exists_mayEnd_of_mem hfront
        have hnot : ¬IsViable (front ++ [']']) := fun hgoes =>
          hend.not_follows_close (follows_of_isViable hgoes hd)
        rw [scanFrom] at h
        cases h
        exact GrammarError.explains_unexpectedToken (isViable_of_mem hfront) hnot rest _
termination_by cs.length

/-- At the start only a character that begins no name is refused at once. -/
theorem explains_of_scanFrom_start {cs : List Char} {e : GrammarError}
    (h : scanFrom 0 none cs = .error e) : e.Explains (String.ofList cs) := by
  cases cs with
  | nil =>
      rw [scanFrom_nil] at h
      cases h
  | cons c rest =>
      by_cases hc : isNameChar c = true
      · have hhead : ∃ d ∈ (c :: rest).head?, isNameChar d = true := ⟨c, rfl, hc⟩
        obtain ⟨name, hname, hrest⟩ := exists_name_of_head? hhead
        have hboundary := isBoundary_dropWhile (c :: rest)
        have hread : name.toList ∈ pathTexts :=
          mem_pathTexts_iff.mpr ⟨name, [], hname, by simp, by simp⟩
        rw [hrest, scanFrom_name 0 none hname hboundary, Nat.zero_add] at h
        rw [hrest]
        exact explains_of_scanFrom (some (.name name)) hread ⟨by simp, by simp⟩ hboundary
          (eq_error_of_map h)
      · have hviable : IsViable [] := by
          have hname : IsName "x" := by simp [IsName, isNameChar]
          exact ⟨"x".toList, mem_pathTexts_iff.mpr ⟨"x", [], hname, by simp, by simp⟩⟩
        have hnot : ¬IsViable ([] ++ [c]) := fun hgoes =>
          hc (isNameChar_of_isViable_singleton hgoes)
        have hexplains := GrammarError.explains_unexpectedToken hviable hnot rest
        by_cases hdot : c = '.'
        · subst hdot
          rw [scanFrom] at h
          cases h
          exact hexplains .nameBeforeDot
        by_cases hopen : c = '['
        · subst hopen
          rw [scanFrom] at h
          cases h
          exact hexplains .nameBeforeBrackets
        · have hclose : c = ']' := by simpa [isNameChar, hdot, hopen] using hc
          subst hclose
          rw [scanFrom] at h
          cases h
          exact hexplains .openingBracket

end Token

theorem explains_of_scan {text : String} {e : GrammarError} (h : scan text = .error e) :
    e.Explains text := by
  by_cases hempty : text = ""
  · subst hempty
    cases h
    rfl
  · have hne : ¬text.isEmpty = true := by simpa using hempty
    rw [scan, if_neg hne] at h
    have hexplains := Token.explains_of_scanFrom_start h
    rwa [String.ofList_toList] at hexplains

/-- The error of a refused text points at the first character that no path text can have
there, or it says that more has to come. Only scanning refuses the empty text. -/
theorem refusal_explains (text : String) :
    (∀ e, scan text = .error e → e.Explains text) ∧
      (∀ e, parse text = .error e → e.Explains text ∧ e ≠ .empty) ∧
      (scan text = .error .empty ↔ text = "") := by
  refine ⟨fun e h => explains_of_scan h, ?_, explains_of_scan, ?_⟩
  · intro e h
    obtain ⟨hne, hscan⟩ := scan_eq_error_of_parse h
    refine ⟨explains_of_scan hscan, ?_⟩
    rintro rfl
    exact hne (explains_of_scan hscan)
  · rintro rfl
    rfl

/-- The first name takes two bytes, and the third pair of brackets is not closed. -/
theorem refusal_explains_two_bytes :
    ∃ e, e = .unexpectedToken 9 "x" .closingBracket ∧ scan "é[].b[][x]" = .error e ∧
      parse "é[].b[][x]" = .error e ∧ e.Explains "é[].b[][x]" ∧ e ≠ .empty := by
  have hscan : scan "é[].b[][x]" = .error (.unexpectedToken 9 "x" .closingBracket) := by
    decide +kernel
  have hparse : parse "é[].b[][x]" = .error (.unexpectedToken 9 "x" .closingBracket) :=
    parse_of_scan_eq_error (by decide) hscan
  have hexplains := (refusal_explains "é[].b[][x]").2.1 _ hparse
  exact ⟨_, rfl, hscan, hparse, hexplains.1, hexplains.2⟩

end Path

end FieldPath
