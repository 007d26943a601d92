import FieldPath.Proofs.Path.Cursor
import Mathlib.Data.List.Chain

/-!
# Tokens laid out along a text

The tokens of a text are its parts in order. Each begins where the one before it ends, the
first at the start, and a name stands at the start and after each dot and nowhere else. So
names are as long as they can be, and the text can be sliced wherever a token begins.
-/

namespace FieldPath

namespace Path

def TokenKind.isName : TokenKind → Bool
  | name _ => true
  | _ => false

def textOf (tokens : List Token) : String := String.join (tokens.map (·.kind.text))

theorem textOf_nil : textOf [] = "" := String.join_nil

theorem textOf_cons (token : Token) (rest : List Token) :
    textOf (token :: rest) = token.kind.text ++ textOf rest :=
  String.join_cons

theorem textOf_append (tokens rest : List Token) :
    textOf (tokens ++ rest) = textOf tokens ++ textOf rest := by
  rw [textOf, List.map_append, String.join_append]
  rfl

/-! ## Neighbours -/

/-- The next token begins where this one ends, and it is a name just after a dot. -/
structure Token.Meets (token next : Token) : Prop where
  position : next.position = token.position + token.kind.text.utf8ByteSize
  isName_iff : next.kind.isName = true ↔ token.kind = .dot

section

variable {token : Token} {position : Nat} {steps : List Step}

/-- The tokens of steps go on where a token ends that is no dot. -/
theorem isChain_tokens (hdot : token.kind ≠ .dot)
    (hend : position = token.position + token.kind.text.utf8ByteSize) :
    (token :: Step.tokens position steps).IsChain Token.Meets := by
  induction steps generalizing token position with
  | nil => exact List.isChain_singleton token
  | cons step rest ih =>
      cases step with
      | key name =>
          have hmeets : token.Meets ⟨.dot, position⟩ :=
            ⟨hend, by simpa [TokenKind.isName] using hdot⟩
          have hname : Token.Meets ⟨.dot, position⟩ ⟨.name name, position + 1⟩ :=
            ⟨rfl, by simp [TokenKind.isName]⟩
          refine .cons_cons hmeets (.cons_cons hname (ih (by simp) ?_))
          rw [byteLength_toList]
          rfl
      | item index =>
          have hmeets : token.Meets ⟨.brackets, position⟩ :=
            ⟨hend, by simpa [TokenKind.isName] using hdot⟩
          exact .cons_cons hmeets (ih (by simp) rfl)

theorem getLast?_tokens_ne_dot (hdot : token.kind ≠ .dot) :
    ∀ t ∈ (token :: Step.tokens position steps).getLast?, t.kind ≠ .dot := by
  induction steps generalizing token position with
  | nil => simpa [Step.tokens] using hdot
  | cons step rest ih =>
      cases step with
      | key name =>
          have hrest := @ih ⟨.name name, position + 1⟩ (position + 1 + byteLength name.toList)
            (by simp)
          simpa [Step.tokens] using hrest
      | item index =>
          have hrest := @ih ⟨.brackets, position⟩ (position + 2) (by simp)
          simpa [Step.tokens] using hrest

theorem toList_textOf_tokens (hw : ∀ s ∈ steps, s.IsWritten) :
    (textOf (Step.tokens position steps)).toList = steps.flatMap Step.chars := by
  induction steps generalizing position with
  | nil => rfl
  | cons step rest ih =>
      obtain ⟨hs, hrest⟩ := List.forall_mem_cons.mp hw
      cases step with
      | key name =>
          simp [Step.tokens, textOf_cons, TokenKind.text, Step.chars, ih hrest]
      | item index =>
          cases hs
          simp [Step.tokens, textOf_cons, TokenKind.text, Step.chars, Index.text, ih hrest]

theorem isName_of_mem_tokens (hw : ∀ s ∈ steps, s.IsWritten) :
    ∀ t ∈ Step.tokens position steps, ∀ name, t.kind = .name name → IsName name := by
  induction steps generalizing position with
  | nil => exact List.forall_mem_nil _
  | cons step rest ih =>
      obtain ⟨hs, hrest⟩ := List.forall_mem_cons.mp hw
      cases step with
      | key name =>
          refine List.forall_mem_cons.mpr ⟨nofun, List.forall_mem_cons.mpr ⟨?_, ih hrest⟩⟩
          rintro name' ⟨⟩
          exact hs
      | item index => exact List.forall_mem_cons.mpr ⟨nofun, ih hrest⟩

end

structure AreLaidOut (tokens : List Token) : Prop where
  first : ∃ name rest, tokens = ⟨.name name, 0⟩ :: rest
  meets : tokens.IsChain Token.Meets
  last : ∀ token ∈ tokens.getLast?, token.kind ≠ .dot
  names : ∀ token ∈ tokens, ∀ name, token.kind = .name name → IsName name

theorem areLaidOut_of_scan {text : String} {tokens : List Token} (h : scan text = .ok tokens) :
    AreLaidOut tokens ∧ textOf tokens = text := by
  obtain ⟨name, steps, ⟨hname, hw, htext⟩, rfl⟩ := scan_eq_ok_iff.mp h
  have hdot : (⟨.name name, 0⟩ : Token).kind ≠ .dot := by simp
  refine ⟨⟨⟨name, _, rfl⟩, isChain_tokens hdot ?_, getLast?_tokens_ne_dot hdot, ?_⟩, ?_⟩
  · rw [byteLength_toList, Nat.zero_add]
    rfl
  · refine List.forall_mem_cons.mpr ⟨?_, isName_of_mem_tokens hw⟩
    rintro name' ⟨⟩
    exact hname
  · rw [← String.toList_inj, htext, textOf_cons, String.toList_append, toList_textOf_tokens hw]
    rfl

/-! ## The place of a token -/

/-- Where a token stands in a text between the tokens `before` and `after`. -/
structure Token.IsPlaced (text : String) (before : List Token) (token : Token)
    (after : List Token) : Prop where
  position : token.position = (textOf before).utf8ByteSize
  slice : slice? text token.position text.utf8ByteSize = some (textOf (token :: after))
  isName : ∀ name, token.kind = .name name → IsName name
  /-- No name stands beside a name, nor any character that a name can have. -/
  longest : token.kind.isName = true →
    (∀ t ∈ before.getLast?, t.kind.isName = false) ∧ (∀ t ∈ after.head?, t.kind.isName = false) ∧
      (∀ c ∈ (textOf before).toList.getLast?, isNameChar c = false) ∧
      ∀ c ∈ (textOf after).toList.head?, isNameChar c = false
  dot : token.kind = .dot →
    (∃ t ∈ before.getLast?, t.kind.isName = true ∨ t.kind = .brackets) ∧
      ∃ t ∈ after.head?, t.kind.isName = true

/-- The tokens are the text cut into parts, each in its place, and a name comes first. -/
structure Tile (text : String) (tokens : List Token) : Prop where
  whole : textOf tokens = text
  first : ∃ token ∈ tokens.head?, token.kind.isName = true
  placed : ∀ before token after, tokens = before ++ token :: after →
    token.IsPlaced text before after

theorem position_of_isChain {first token : Token} {before : List Token}
    (h : (first :: (before ++ [token])).IsChain Token.Meets) :
    token.position = first.position + (textOf (first :: before)).utf8ByteSize := by
  induction before generalizing first with
  | nil =>
      rw [textOf_cons, textOf_nil, String.append_empty]
      exact (List.isChain_cons_cons.mp h).1.position
  | cons next before ih =>
      obtain ⟨hmeets, hrest⟩ := List.isChain_cons_cons.mp h
      rw [ih hrest, hmeets.position, textOf_cons first, String.utf8ByteSize_append, Nat.add_assoc]

/-- What is no name begins and ends with characters that no name has. -/
theorem exists_of_isName_eq_false {kind : TokenKind} (h : kind.isName = false) :
    (∃ c rest, kind.text.toList = c :: rest ∧ isNameChar c = false) ∧
      ∃ front c, kind.text.toList = front ++ [c] ∧ isNameChar c = false := by
  cases kind with
  | name name => cases h
  | dot => exact ⟨⟨'.', [], by simp [TokenKind.text], rfl⟩, [], '.', by simp [TokenKind.text], rfl⟩
  | brackets =>
      exact ⟨⟨'[', [']'], by simp [TokenKind.text], rfl⟩, ['['], ']', by simp [TokenKind.text], rfl⟩

theorem isNameChar_head?_textOf {after : List Token}
    (h : ∀ t ∈ after.head?, t.kind.isName = false) :
    ∀ c ∈ (textOf after).toList.head?, isNameChar c = false := by
  cases after with
  | nil => simp [textOf_nil]
  | cons t after =>
      obtain ⟨⟨c, rest, htext, hc⟩, -⟩ := exists_of_isName_eq_false (h t rfl)
      simpa [textOf_cons, htext] using hc

theorem isNameChar_getLast?_textOf {before : List Token}
    (h : ∀ t ∈ before.getLast?, t.kind.isName = false) :
    ∀ c ∈ (textOf before).toList.getLast?, isNameChar c = false := by
  rcases List.eq_nil_or_concat before with rfl | ⟨before, t, rfl⟩
  · simp [textOf_nil]
  · rw [List.concat_eq_append] at h ⊢
    obtain ⟨-, front, c, htext, hc⟩ := exists_of_isName_eq_false (h t List.getLast?_concat)
    simpa [textOf_append, textOf_cons, textOf_nil, htext, ← List.append_assoc] using hc

theorem slice?_textOf (before after : List Token) :
    slice? (textOf (before ++ after)) (textOf before).utf8ByteSize
      (textOf (before ++ after)).utf8ByteSize = some (textOf after) :=
  slice?_eq_some_iff.mpr ⟨textOf before, "", by rw [textOf_append, String.append_empty], rfl,
    by rw [textOf_append]⟩

namespace AreLaidOut

variable {before after : List Token} {token : Token} (h : AreLaidOut (before ++ token :: after))

include h

theorem position_eq : token.position = (textOf before).utf8ByteSize := by
  obtain ⟨hbefore, -⟩ := List.isChain_split.mp h.meets
  obtain ⟨name, rest, hfirst⟩ := h.first
  cases before with
  | nil =>
      cases hfirst
      rfl
  | cons first before =>
      cases hfirst
      exact (position_of_isChain hbefore).trans (Nat.zero_add _)

theorem isName_iff_of_mem_getLast? : ∀ t ∈ before.getLast?,
    (token.kind.isName = true ↔ t.kind = .dot) := by
  obtain ⟨hbefore, -⟩ := List.isChain_split.mp h.meets
  intro t ht
  exact ((List.isChain_append.mp hbefore).2.2 t ht token rfl).isName_iff

theorem isName_iff_of_mem_head? : ∀ t ∈ after.head?,
    (t.kind.isName = true ↔ token.kind = .dot) := by
  obtain ⟨-, hafter⟩ := List.isChain_split.mp h.meets
  intro t ht
  exact ((List.isChain_cons.mp hafter).1 t ht).isName_iff

theorem isName_eq_false_beside (hname : token.kind.isName = true) :
    (∀ t ∈ before.getLast?, t.kind.isName = false) ∧ ∀ t ∈ after.head?, t.kind.isName = false := by
  constructor
  · intro t ht
    rw [(h.isName_iff_of_mem_getLast? t ht).mp hname]
    rfl
  · intro t ht
    rw [Bool.eq_false_iff]
    intro hnext
    rw [(h.isName_iff_of_mem_head? t ht).mp hnext] at hname
    cases hname

theorem exists_before_dot (hdot : token.kind = .dot) :
    ∃ t ∈ before.getLast?, t.kind.isName = true ∨ t.kind = .brackets := by
  obtain ⟨name, rest, hfirst⟩ := h.first
  rcases List.eq_nil_or_concat before with rfl | ⟨before, t, rfl⟩
  · cases hfirst
    cases hdot
  · refine ⟨t, by simp, ?_⟩
    have hiff := h.isName_iff_of_mem_getLast? t (by simp)
    rw [hdot] at hiff
    cases hkind : t.kind with
    | name name => exact .inl rfl
    | dot => exact absurd (hiff.mpr hkind) Bool.false_ne_true
    | brackets => exact .inr rfl

theorem exists_after_dot (hdot : token.kind = .dot) : ∃ t ∈ after.head?, t.kind.isName = true := by
  cases after with
  | nil => exact absurd hdot (h.last token (by simp))
  | cons t after => exact ⟨t, rfl, (h.isName_iff_of_mem_head? t rfl).mpr hdot⟩

theorem isPlaced : token.IsPlaced (textOf (before ++ token :: after)) before after where
  position := h.position_eq
  slice := by rw [h.position_eq, slice?_textOf]
  isName := h.names token (by simp)
  longest hname :=
    have hbeside := h.isName_eq_false_beside hname
    ⟨hbeside.1, hbeside.2, isNameChar_getLast?_textOf hbeside.1,
      isNameChar_head?_textOf hbeside.2⟩
  dot hdot := ⟨h.exists_before_dot hdot, h.exists_after_dot hdot⟩

end AreLaidOut

/-- The tokens of a text tile it. A scanner that keeps a byte position and slices the text
there finds the same tokens or the same error, and every slice it asks for is there. -/
theorem tokens_tile (text : String) :
    (∀ tokens, scan text = .ok tokens → Tile text tokens) ∧
      Cursor.scan text = (scan text).mapError .refused := by
  refine ⟨?_, Cursor.scan_eq text⟩
  intro tokens h
  obtain ⟨hlaid, rfl⟩ := areLaidOut_of_scan h
  refine ⟨rfl, ?_, ?_⟩
  · obtain ⟨name, rest, rfl⟩ := hlaid.first
    exact ⟨_, rfl, rfl⟩
  · rintro before token after rfl
    exact hlaid.isPlaced

/-- The names take two bytes, three bytes and four, and brackets come twice in a row. -/
theorem tokens_tile_wide :
    ∃ tokens, scan "é.名[][].𝒳" = .ok tokens ∧ tokens = [⟨.name "é", 0⟩, ⟨.dot, 2⟩, ⟨.name "名", 3⟩,
        ⟨.brackets, 6⟩, ⟨.brackets, 8⟩, ⟨.dot, 10⟩, ⟨.name "𝒳", 11⟩] ∧
      Tile "é.名[][].𝒳" tokens ∧ Cursor.scan "é.名[][].𝒳" = .ok tokens := by
  have htext : IsPathText "é.名[][].𝒳" "é"
      [.key "名", .item .unbound, .item .unbound, .key "𝒳"] := by
    simp [IsPathText, IsName, Step.IsWritten, Step.chars, isNameChar, Index.text]
  have hscan := scan_eq_ok_iff.mpr ⟨_, _, htext, rfl⟩
  obtain ⟨htile, hcursor⟩ := tokens_tile "é.名[][].𝒳"
  rw [hscan] at hcursor
  refine ⟨_, hscan, ?_, htile _ hscan, hcursor⟩
  decide +kernel

end Path

end FieldPath
