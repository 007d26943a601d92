import FieldPath.Path.Parse
import FieldPath.Proofs.Path.Step

/-!
# What is read from a path text

Scanning succeeds on a name followed by written steps and on nothing else, and
the tokens then are those of the steps. Parsing turns these tokens into the
chain that takes the steps, so that every refusal is the scanner's.
-/

namespace FieldPath

def Step.tokens (position : Nat) : List Step → List Path.Token
  | [] => []
  | key name :: rest =>
      ⟨.dot, position⟩ :: ⟨.name name, position + 1⟩ ::
        tokens (position + 1 + Path.byteLength name.toList) rest
  | item _ :: rest => ⟨.brackets, position⟩ :: tokens (position + 2) rest

namespace Path

theorem exists_of_map_eq_ok {ε α β : Type} {f : α → β} {x : Except ε α} {b : β}
    (h : x.map f = .ok b) : ∃ a, x = .ok a ∧ f a = b := by
  cases x with
  | error e => cases h
  | ok a => exact ⟨a, rfl, Except.ok.inj h⟩

theorem mapError_eq_ok_iff {ε ε' α : Type} {f : ε → ε'} {x : Except ε α} {a : α} :
    x.mapError f = .ok a ↔ x = .ok a := by
  cases x with
  | error e => exact ⟨nofun, nofun⟩
  | ok b =>
      constructor
      · rintro ⟨⟩
        rfl
      · rintro ⟨⟩
        rfl

/-! ## Lengths in bytes -/

theorem byteLength_append (cs ds : List Char) :
    byteLength (cs ++ ds) = byteLength cs + byteLength ds := by
  induction cs with
  | nil => simp [byteLength]
  | cons c rest ih => simp [byteLength, ih, Nat.add_assoc]

theorem utf8ByteSize_ofList (cs : List Char) :
    (String.ofList cs).utf8ByteSize = byteLength cs := by
  induction cs with
  | nil => rfl
  | cons c rest ih =>
      rw [String.ofList_cons, String.utf8ByteSize_append, String.utf8ByteSize_singleton, ih,
        byteLength]

theorem byteLength_toList (text : String) : byteLength text.toList = text.utf8ByteSize := by
  rw [← utf8ByteSize_ofList, String.ofList_toList]

/-! ## Texts between names -/

theorem isNameChar_iff {c : Char} : isNameChar c = true ↔ c ≠ '.' ∧ c ≠ '[' ∧ c ≠ ']' := by
  simp [isNameChar, and_assoc]

/-- No name begins here: the text is over, or a separating character comes. -/
def IsBoundary (cs : List Char) : Prop := ∀ c ∈ cs.head?, isNameChar c = false

theorem isBoundary_of_separator {cs : List Char} (h : ∀ c ∈ cs.head?, c = '.' ∨ c = '[') :
    IsBoundary cs := by
  intro c hc
  rcases h c hc with rfl | rfl <;> rfl

theorem head?_chars {steps : List Step} (hw : ∀ s ∈ steps, s.IsWritten) :
    ∀ c ∈ (steps.flatMap Step.chars).head?, c = '.' ∨ c = '[' := by
  cases steps with
  | nil => simp
  | cons step rest =>
      have hs := hw step List.mem_cons_self
      cases step with
      | key name => simp [Step.chars]
      | item index =>
          cases hs
          simp [Step.chars, Index.text]

theorem isBoundary_dropWhile (cs : List Char) : IsBoundary (cs.dropWhile isNameChar) := by
  intro c hc
  have h := List.head?_dropWhile_not isNameChar cs
  rw [Option.mem_def.mp hc] at h
  simpa using h

theorem eq_close_of_isBoundary {c : Char} {rest : List Char} (hb : IsBoundary (c :: rest))
    (hdot : c ≠ '.') (hopen : c ≠ '[') : c = ']' := by
  have hc := hb c rfl
  simpa [isNameChar, hdot, hopen] using hc

theorem takeWhile_append_of_boundary {name rest : List Char}
    (hn : ∀ c ∈ name, isNameChar c = true) (hr : IsBoundary rest) :
    (name ++ rest).takeWhile isNameChar = name := by
  rw [List.takeWhile_append_of_pos hn]
  cases rest with
  | nil => simp
  | cons c cs => simp [hr c rfl]

theorem dropWhile_append_of_boundary {name rest : List Char}
    (hn : ∀ c ∈ name, isNameChar c = true) (hr : IsBoundary rest) :
    (name ++ rest).dropWhile isNameChar = rest := by
  rw [List.dropWhile_append_of_pos hn]
  cases rest with
  | nil => simp
  | cons c cs => simp [hr c rfl]

/-! ## Scanning -/

namespace Token

/-- What a token leaves behind so that a dot or brackets may follow it. -/
def Closes (previous : Option TokenKind) : Prop := previous ≠ none ∧ previous ≠ some .dot

theorem scanFrom_nil (position : Nat) (previous : Option TokenKind) :
    scanFrom position previous [] = .ok [] := by
  rw [scanFrom]

theorem scanFrom_name (position : Nat) (previous : Option TokenKind) {name : String}
    {rest : List Char} (hn : IsName name) (hr : IsBoundary rest) :
    scanFrom position previous (name.toList ++ rest) =
      (scanFrom (position + byteLength name.toList) (some (.name name)) rest).map
        (⟨.name name, position⟩ :: ·) := by
  obtain ⟨c, cs, hcs⟩ := List.exists_cons_of_ne_nil hn.1
  have hchars := hn.2
  have hname : String.ofList (c :: cs) = name := by rw [← hcs, String.ofList_toList]
  rw [hcs] at hchars ⊢
  have hc : isNameChar c = true := hchars c List.mem_cons_self
  have htail : ∀ d ∈ cs, isNameChar d = true := fun d hd => hchars d (List.mem_cons_of_mem c hd)
  obtain ⟨hdot, hopen, hclose⟩ := isNameChar_iff.mp hc
  rw [List.cons_append, scanFrom]
  simp only [hdot, hopen, hclose, if_false, takeWhile_append_of_boundary htail hr,
    dropWhile_append_of_boundary htail hr, hname]

theorem checkDot_eq_ok_iff {position : Nat} {previous : Option TokenKind} {rest : List Char}
    (hp : Closes previous) :
    checkDot position previous rest = .ok () ↔ ∃ c ∈ rest.head?, isNameChar c = true := by
  rcases previous with _ | (_ | _ | _)
  · exact absurd rfl hp.1
  · cases rest <;> simp [checkDot]
  · exact absurd rfl hp.2
  · cases rest <;> simp [checkDot]

theorem scanFrom_key (position : Nat) {previous : Option TokenKind} {name : String}
    {rest : List Char} (hp : Closes previous) (hn : IsName name) (hr : IsBoundary rest) :
    scanFrom position previous ('.' :: (name.toList ++ rest)) =
      (scanFrom (position + 1 + byteLength name.toList) (some (.name name)) rest).map
        fun tokens => ⟨.dot, position⟩ :: ⟨.name name, position + 1⟩ :: tokens := by
  have hcheck : checkDot position previous (name.toList ++ rest) = .ok () := by
    obtain ⟨c, cs, hcs⟩ := List.exists_cons_of_ne_nil hn.1
    exact (checkDot_eq_ok_iff hp).mpr ⟨c, by simp [hcs], hn.2 c (by simp [hcs])⟩
  rw [scanFrom, if_pos rfl, hcheck]
  simp only
  rw [scanFrom_name _ _ hn hr]
  cases scanFrom (position + 1 + byteLength name.toList) (some (.name name)) rest <;> rfl

theorem checkBrackets_eq_ok_iff {position : Nat} {previous : Option TokenKind}
    {rest tail : List Char} (hp : Closes previous) :
    checkBrackets position previous rest = .ok tail ↔
      rest = ']' :: tail ∧ ∀ c ∈ tail.head?, c = '.' ∨ c = '[' := by
  have hsome : previous.isNone = false := by
    cases previous with
    | none => exact absurd rfl hp.1
    | some _ => rfl
  unfold checkBrackets
  rw [hsome, if_neg Bool.false_ne_true]
  split
  · simp
  · constructor
    · intro h
      cases h
      simp
    · rintro ⟨h, -⟩
      cases h
      rfl
  · rename_i c cs
    split
    · rename_i hc
      constructor
      · intro h
        cases h
        simpa using hc
      · rintro ⟨h, -⟩
        cases h
        rfl
    · rename_i hc
      constructor
      · intro h
        cases h
      · rintro ⟨h, hboundary⟩
        cases h
        exact absurd (by simpa using hboundary c rfl) hc
  · rename_i c cs hend hmore
    constructor
    · intro h
      cases h
    · rintro ⟨h, -⟩
      cases tail with
      | nil => exact (hend (List.cons.inj h).1 (List.cons.inj h).2).elim
      | cons d ds => exact (hmore d ds (List.cons.inj h).1 (List.cons.inj h).2).elim

theorem scanFrom_item (position : Nat) {previous : Option TokenKind} {tail : List Char}
    (hp : Closes previous) (ht : ∀ c ∈ tail.head?, c = '.' ∨ c = '[') :
    scanFrom position previous ('[' :: ']' :: tail) =
      (scanFrom (position + 2) (some .brackets) tail).map (⟨.brackets, position⟩ :: ·) := by
  have hcheck : checkBrackets position previous (']' :: tail) = .ok tail :=
    (checkBrackets_eq_ok_iff hp).mpr ⟨rfl, ht⟩
  rw [scanFrom, if_neg (by decide), if_pos rfl]
  split
  · rename_i e h
    rw [hcheck] at h
    cases h
  · rename_i tail' h
    rw [hcheck] at h
    cases h
    rfl

/-- Written steps are scanned into their tokens. -/
theorem scanFrom_chars (position : Nat) (previous : Option TokenKind) {steps : List Step}
    (hp : Closes previous) (hw : ∀ s ∈ steps, s.IsWritten) :
    scanFrom position previous (steps.flatMap Step.chars) = .ok (Step.tokens position steps) := by
  induction steps generalizing position previous with
  | nil => exact scanFrom_nil position previous
  | cons step rest ih =>
      obtain ⟨hs, hrest⟩ := List.forall_mem_cons.mp hw
      have hboundary := isBoundary_of_separator (head?_chars hrest)
      rw [List.flatMap_cons]
      cases step with
      | key name =>
          have h := ih (position + 1 + byteLength name.toList) (some (.name name))
            ⟨by simp, by simp⟩ hrest
          rw [Step.chars, List.cons_append, scanFrom_key position hp hs hboundary, h]
          rfl
      | item index =>
          cases hs
          have h := ih (position + 2) (some .brackets) ⟨by simp, by simp⟩ hrest
          have hitem := scanFrom_item position hp (head?_chars hrest)
          rw [h] at hitem
          simpa [Step.chars, Index.text, Step.tokens, Except.map] using hitem

/-- A text that a name begins is the longest name there and the rest. -/
theorem exists_name_of_head? {cs : List Char} (h : ∃ c ∈ cs.head?, isNameChar c = true) :
    ∃ name, IsName name ∧ cs = name.toList ++ cs.dropWhile isNameChar := by
  refine ⟨String.ofList (cs.takeWhile isNameChar), ⟨?_, ?_⟩, ?_⟩
  · obtain ⟨c, hc, hname⟩ := h
    cases cs with
    | nil => cases hc
    | cons d ds =>
        cases hc
        simp [hname]
  · intro c hc
    rw [String.toList_ofList] at hc
    exact List.all_eq_true.mp List.all_takeWhile c hc
  · rw [String.toList_ofList, List.takeWhile_append_dropWhile]

/-- After a token that closes, nothing else than written steps is scanned. -/
theorem exists_steps_of_scanFrom {position : Nat} (previous : Option TokenKind)
    {cs : List Char} {tokens : List Token} (hp : Closes previous) (hb : IsBoundary cs)
    (h : scanFrom position previous cs = .ok tokens) :
    ∃ steps : List Step, (∀ s ∈ steps, s.IsWritten) ∧ cs = steps.flatMap Step.chars := by
  match cs with
  | [] => exact ⟨[], by simp, rfl⟩
  | c :: rest =>
      by_cases hdot : c = '.'
      · subst hdot
        have hcheck : checkDot position previous rest = .ok () := by
          rw [scanFrom, if_pos rfl] at h
          split at h
          · cases h
          · assumption
        obtain ⟨name, hname, hrest⟩ := exists_name_of_head? ((checkDot_eq_ok_iff hp).mp hcheck)
        have hboundary := isBoundary_dropWhile rest
        rw [hrest, scanFrom_key position hp hname hboundary] at h
        obtain ⟨inner, hinner, -⟩ := exists_of_map_eq_ok h
        have hlen := (List.dropWhile_suffix (l := rest) isNameChar).length_le
        obtain ⟨steps, hw, hsteps⟩ :=
          exists_steps_of_scanFrom (some (.name name)) ⟨by simp, by simp⟩ hboundary hinner
        refine ⟨.key name :: steps, List.forall_mem_cons.mpr ⟨hname, hw⟩, ?_⟩
        rw [List.flatMap_cons, ← hsteps, Step.chars, List.cons_append, ← hrest]
      by_cases hopen : c = '['
      · subst hopen
        obtain ⟨tail, hcheck⟩ : ∃ tail, checkBrackets position previous rest = .ok tail := by
          rw [scanFrom, if_neg (by decide), if_pos rfl] at h
          split at h
          · cases h
          · exact ⟨_, by assumption⟩
        obtain ⟨rfl, htail⟩ := (checkBrackets_eq_ok_iff hp).mp hcheck
        rw [scanFrom_item position hp htail] at h
        obtain ⟨inner, hinner, -⟩ := exists_of_map_eq_ok h
        obtain ⟨steps, hw, hsteps⟩ :=
          exists_steps_of_scanFrom (some .brackets) ⟨by simp, by simp⟩
            (isBoundary_of_separator htail) hinner
        refine ⟨.item .unbound :: steps, List.forall_mem_cons.mpr ⟨rfl, hw⟩, ?_⟩
        rw [List.flatMap_cons, ← hsteps]
        rfl
      · obtain rfl := eq_close_of_isBoundary hb hdot hopen
        rw [scanFrom] at h
        simp at h
termination_by cs.length

/-- At the start only a name can stand. -/
theorem head?_isNameChar_of_scanFrom {position : Nat} {cs : List Char} {tokens : List Token}
    (hne : cs ≠ []) (h : scanFrom position none cs = .ok tokens) :
    ∃ c ∈ cs.head?, isNameChar c = true := by
  obtain ⟨c, rest, rfl⟩ := List.exists_cons_of_ne_nil hne
  refine ⟨c, rfl, ?_⟩
  by_cases hdot : c = '.'
  · subst hdot
    simp [scanFrom, checkDot] at h
  by_cases hopen : c = '['
  · subst hopen
    rw [scanFrom] at h
    simp [checkBrackets] at h
  by_cases hclose : c = ']'
  · subst hclose
    simp [scanFrom] at h
  · simp [isNameChar, hdot, hopen, hclose]

end Token

def IsPathText (text : String) (name : String) (steps : List Step) : Prop :=
  IsName name ∧ (∀ s ∈ steps, s.IsWritten) ∧
    text.toList = name.toList ++ steps.flatMap Step.chars

theorem IsPathText.ne_empty {text name : String} {steps : List Step}
    (h : IsPathText text name steps) : text ≠ "" := by
  rintro rfl
  obtain ⟨hname, -, htext⟩ := h
  exact hname.1 (List.append_eq_nil_iff.mp htext.symm).1

theorem scan_eq_ok_iff {text : String} {tokens : List Token} :
    scan text = .ok tokens ↔
      ∃ name steps, IsPathText text name steps ∧
        tokens = ⟨.name name, 0⟩ :: Step.tokens (byteLength name.toList) steps := by
  unfold scan
  constructor
  · intro h
    split at h
    · cases h
    rename_i hempty
    have hne : text.toList ≠ [] := by simpa using hempty
    obtain ⟨name, hname, hrest⟩ :=
      Token.exists_name_of_head? (Token.head?_isNameChar_of_scanFrom hne h)
    have hboundary := isBoundary_dropWhile text.toList
    rw [hrest, Token.scanFrom_name 0 none hname hboundary] at h
    obtain ⟨inner, hinner, htokens⟩ := exists_of_map_eq_ok h
    have hcloses : Token.Closes (some (.name name)) := ⟨by simp, by simp⟩
    obtain ⟨steps, hw, hsteps⟩ := Token.exists_steps_of_scanFrom _ hcloses hboundary hinner
    rw [hsteps, Token.scanFrom_chars _ _ hcloses hw] at hinner
    cases hinner
    exact ⟨name, steps, ⟨hname, hw, by rw [← hsteps]; exact hrest⟩, by simpa using htokens.symm⟩
  · rintro ⟨name, steps, h, rfl⟩
    have hne : ¬text.isEmpty = true := by simpa using h.ne_empty
    obtain ⟨hname, hw, htext⟩ := h
    rw [if_neg hne, htext,
      Token.scanFrom_name 0 none hname (isBoundary_of_separator (head?_chars hw)),
      Token.scanFrom_chars _ _ ⟨by simp, by simp⟩ hw]
    simp [Except.map]

/-! ## Parsing -/

/-- The tokens of written steps make the chain that takes these steps. -/
theorem chain_tokens (size position : Nat) (name : Option String) {steps : List Step}
    (hw : ∀ s ∈ steps, s.IsWritten) :
    chain size name (Step.tokens position steps) = .ok (ofSteps name steps) := by
  induction steps generalizing position name with
  | nil => rfl
  | cons step rest ih =>
      obtain ⟨hs, hrest⟩ := List.forall_mem_cons.mp hw
      cases step with
      | key next =>
          have h := ih (position + 1 + byteLength next.toList) (some next) hrest
          simp [Step.tokens, chain, h, Except.map, ofSteps]
      | item index =>
          cases hs
          have h := ih (position + 2) none hrest
          simp [Step.tokens, chain, h, Except.map, ofSteps, array]

theorem parse_of_isPathText {text name : String} {steps : List Step}
    (h : IsPathText text name steps) : parse text = .ok (ofSteps (some name) steps) := by
  have hne : ¬text.isEmpty = true := by simpa using h.ne_empty
  have hscan := scan_eq_ok_iff.mpr ⟨name, steps, h, rfl⟩
  unfold parse
  rw [if_neg hne, hscan]
  exact chain_tokens _ _ _ h.2.1

theorem parse_of_scan_eq_error {text : String} {e : GrammarError} (hne : text ≠ "")
    (h : scan text = .error e) : parse text = .error e := by
  have hempty : ¬text.isEmpty = true := by simpa using hne
  rw [parse, if_neg hempty, h]

theorem parse_eq_ok_iff {text : String} {p : Path} :
    parse text = .ok p ↔
      text = "" ∧ p = ofSteps (some "") [] ∨
        ∃ name steps, IsPathText text name steps ∧ p = ofSteps (some name) steps := by
  by_cases hempty : text = ""
  · subst hempty
    have hparse : parse "" = .ok (ofSteps (some "") []) := rfl
    rw [hparse]
    constructor
    · rintro h
      cases h
      exact .inl ⟨rfl, rfl⟩
    · rintro (⟨-, rfl⟩ | ⟨name, steps, h, -⟩)
      · rfl
      · exact absurd rfl h.ne_empty
  · constructor
    · intro h
      cases hscan : scan text with
      | error e =>
          rw [parse_of_scan_eq_error hempty hscan] at h
          cases h
      | ok tokens =>
          obtain ⟨name, steps, htext, -⟩ := scan_eq_ok_iff.mp hscan
          rw [parse_of_isPathText htext] at h
          cases h
          exact .inr ⟨name, steps, htext, rfl⟩
    · rintro (⟨h, -⟩ | ⟨name, steps, htext, rfl⟩)
      · exact absurd h hempty
      · exact parse_of_isPathText htext

/-- Reading refuses a text for what scanning refuses it for. -/
theorem scan_eq_error_of_parse {text : String} {e : GrammarError} (h : parse text = .error e) :
    text ≠ "" ∧ scan text = .error e := by
  have hne : text ≠ "" := by
    rintro rfl
    cases h
  refine ⟨hne, ?_⟩
  cases hscan : scan text with
  | error e' =>
      rw [parse_of_scan_eq_error hne hscan] at h
      exact congrArg Except.error (Except.error.inj h)
  | ok tokens =>
      obtain ⟨name, steps, htext, -⟩ := scan_eq_ok_iff.mp hscan
      rw [parse_of_isPathText htext] at h
      cases h

/-- A parsed path takes written steps from a named segment. -/
theorem exists_steps_of_parse {text : String} {p : Path} (h : parse text = .ok p) :
    ∃ name steps, (∀ s ∈ steps, s.IsWritten) ∧ p = ofSteps (some name) steps := by
  rcases parse_eq_ok_iff.mp h with ⟨-, rfl⟩ | ⟨name, steps, ⟨-, hw, -⟩, rfl⟩
  · exact ⟨"", [], by simp, rfl⟩
  · exact ⟨name, steps, hw, rfl⟩

end Path

end FieldPath
