import FieldPath.Yaml.Document

/-!
# A word as a YAML document

A text of letters and digits, maybe with a minus sign before them, is one plain scalar. No
token begins inside it, and the document is whatever the scalar stands for.
-/

namespace FieldPath

namespace Yaml

inductive IsWord : List Char → Prop where
  | bare {c : Char} {cs : List Char} (first : c.isAlphanum = true)
      (others : ∀ d ∈ cs, d.isAlphanum = true) : IsWord (c :: cs)
  | negative {c : Char} {cs : List Char} (first : c.isAlphanum = true)
      (others : ∀ d ∈ cs, d.isAlphanum = true) : IsWord ('-' :: c :: cs)

theorem ne_of_isAlphanum {c d : Char} (hc : c.isAlphanum = true) (hd : d.isAlphanum = false) :
    c ≠ d := by
  rintro rfl
  exact Bool.false_ne_true (hd.symm.trans hc)

theorem isSpaceOrBreak_of_isAlphanum {c : Char} (h : c.isAlphanum = true) :
    isSpaceOrBreak c = false := by
  simp [isSpaceOrBreak, isBlank, isBreak, ne_of_isAlphanum h]

theorem isPrintable_of_isAlphanum {c : Char} (h : c.isAlphanum = true) :
    isPrintable c = true := by
  have hclasses : (decide ('A'.val ≤ c.val ∧ c.val ≤ 'Z'.val) ||
      decide ('a'.val ≤ c.val) && decide (c.val ≤ 'z'.val) ||
      decide ('0'.val ≤ c.val) && decide (c.val ≤ '9'.val)) = true := h
  simp only [Bool.or_eq_true, Bool.and_eq_true, decide_eq_true_eq, UInt32.le_iff_toNat_le,
    Char.toNat_val, Char.reduceToNat] at hclasses
  have hrange : 0x20 ≤ c.toNat ∧ c.toNat ≤ 0x7E := by omega
  simp [isPrintable, hrange]

theorem plainRun_of_isAlphanum {cs : List Char} (h : ∀ c ∈ cs, c.isAlphanum = true) :
    plainRun false cs = some cs := by
  induction cs with
  | nil => rfl
  | cons c cs ih =>
      obtain ⟨hc, hcs⟩ := List.forall_mem_cons.mp h
      simp [plainRun, isSpaceOrBreak_of_isAlphanum hc, ne_of_isAlphanum hc, ih hcs]

theorem Node.value_scalar (anchors : Anchors) (cs : List Char) (depth count : Nat) :
    ((scalar none .plain cs).value anchors (depth + 1)).run count =
      match plainValue? cs with
      | some v => .ok (v, count)
      | none => .error .malformed := by
  rw [value]
  change (scalarOf none .plain cs).run count = _
  rw [scalarOf, scalarValue?]
  cases plainValue? cs <;> rfl

namespace IsWord

variable {cs : List Char}

theorem ne_nil (h : IsWord cs) : cs ≠ [] := by
  cases h <;> exact List.cons_ne_nil _ _

theorem all_isPrintable (h : IsWord cs) : cs.all isPrintable = true := by
  rw [List.all_eq_true]
  cases h with
  | bare first others =>
      exact List.forall_mem_cons.mpr ⟨isPrintable_of_isAlphanum first,
        fun d hd => isPrintable_of_isAlphanum (others d hd)⟩
  | negative first others =>
      exact List.forall_mem_cons.mpr ⟨rfl, List.forall_mem_cons.mpr
        ⟨isPrintable_of_isAlphanum first, fun d hd => isPrintable_of_isAlphanum (others d hd)⟩⟩

theorem plainRun_eq (h : IsWord cs) : plainRun false cs = some cs := by
  cases h with
  | bare first others =>
      exact plainRun_of_isAlphanum (List.forall_mem_cons.mpr ⟨first, others⟩)
  | negative first others =>
      rw [plainRun, plainRun_of_isAlphanum (List.forall_mem_cons.mpr ⟨first, others⟩)]
      rfl

/-! ## What the tokenizer looks for and does not find -/

theorem satisfiesAt_zero (h : IsWord cs) {p : Char → Bool} (hminus : p '-' = false)
    (halpha : ∀ c, c.isAlphanum = true → p c = false) :
    (Cursor.ofList cs).satisfiesAt 0 p = false := by
  cases h with
  | bare first others => exact halpha _ first
  | negative first others => exact hminus

theorem skipWhile_eq (h : IsWord cs) {p : Char → Bool} (hminus : p '-' = false)
    (halpha : ∀ c, c.isAlphanum = true → p c = false) :
    (Cursor.ofList cs).skipWhile p = .ofList cs := by
  cases h with
  | bare first others => simp [Cursor.skipWhile, Cursor.ofList, Cursor.skip, halpha _ first]
  | negative first others => simp [Cursor.skipWhile, Cursor.ofList, Cursor.skip, hminus]

theorem hasAt_zero (h : IsWord cs) {d : Char} (hd : d.isAlphanum = false) (hminus : d ≠ '-') :
    (Cursor.ofList cs).hasAt 0 d = false := by
  cases h with
  | bare first others => simp [Cursor.hasAt, Cursor.ofList, ne_of_isAlphanum first hd]
  | negative first others => simp [Cursor.hasAt, Cursor.ofList, hminus.symm]

/-- The sign is not an indicator, as no gap and no second sign follows it. -/
theorem hasAt_minus (h : IsWord cs) : (Cursor.ofList cs).hasAt 0 '-' = false ∨
    (Cursor.ofList cs).hasAt 1 '-' = false ∧ (Cursor.ofList cs).gapAt 1 = false ∧
      (Cursor.ofList cs).satisfiesAt 1 isBlank = false := by
  cases h with
  | bare first others =>
      exact .inl (by simp [Cursor.hasAt, Cursor.ofList, ne_of_isAlphanum first])
  | negative first others =>
      refine .inr ⟨?_, isSpaceOrBreak_of_isAlphanum first, ?_⟩
      · simp [Cursor.hasAt, Cursor.ofList, ne_of_isAlphanum first]
      · simp [Cursor.satisfiesAt, Cursor.ofList, isBlank, ne_of_isAlphanum first]

theorem atMarker_minus (h : IsWord cs) : (Cursor.ofList cs).atMarker '-' = false := by
  rcases h.hasAt_minus with h0 | ⟨h1, -⟩ <;> simp [Cursor.atMarker, *]

theorem atMarker_dot (h : IsWord cs) : (Cursor.ofList cs).atMarker '.' = false := by
  have hdot : (Cursor.ofList cs).hasAt 0 '.' = false := h.hasAt_zero rfl (by decide)
  simp [Cursor.atMarker, hdot]

theorem skipToToken_eq (h : IsWord cs) (fuel : Nat) :
    (Cursor.ofList cs).skipToToken false (fuel + 1) true = (true, .ofList cs) := by
  have hblank : (Cursor.ofList cs).skipWhile (fun ch => ch == ' ') = .ofList cs :=
    h.skipWhile_eq rfl fun c hc => by simp [ne_of_isAlphanum hc]
  have hbreak : (Cursor.ofList cs).satisfiesAt 0 isBreak = false :=
    h.satisfiesAt_zero rfl fun c hc => by simp [isBreak, ne_of_isAlphanum hc]
  have hcomment : (Cursor.ofList cs).hasAt 0 '#' = false := h.hasAt_zero rfl (by decide)
  have hmark : (Cursor.ofList cs).hasAt 0 '\ufeff' = false := h.hasAt_zero rfl (by decide)
  simp [Cursor.skipToToken, hmark, hblank, hcomment, hbreak]

theorem cutToken_eq (h : IsWord cs) :
    (TokenStream.ofList cs).cutToken = (TokenStream.ofList cs).plain := by
  have hcursor : (TokenStream.ofList cs).cursor = .ofList cs := rfl
  have hminus : ((Cursor.ofList cs).hasAt 0 '-' && (Cursor.ofList cs).gapAt 1) = false := by
    rcases h.hasAt_minus with h0 | ⟨-, hgap, -⟩ <;> simp [*]
  have hbegins : (TokenStream.ofList cs).beginsPlain = true := by
    cases h with
    | bare first others =>
        simp [TokenStream.beginsPlain, hcursor, Cursor.satisfiesAt, Cursor.ofList,
          isSpaceOrBreak_of_isAlphanum first, TokenStream.isIndicator, ne_of_isAlphanum first]
    | negative first others =>
        simp [TokenStream.beginsPlain, hcursor, Cursor.satisfiesAt, Cursor.hasAt, Cursor.ofList,
          isBlank, ne_of_isAlphanum first]
  simp [TokenStream.cutToken, hcursor, hbegins, hminus, h.atMarker_minus, h.atMarker_dot,
    h.hasAt_zero]

/-! ## The tokens -/

/-- The stream once the word is cut off. It is held back, as it could be a key. -/
def cutOff (cs : List Char) : TokenStream :=
  ⟨cs.length, ⟨[], 0, cs.length, cs.length⟩, [], false, [some ⟨0, false, 0, 0, 0⟩],
    [.scalar .plain cs], 0⟩

theorem plainScalar_eq (h : IsWord cs) {fuel : Nat} (hfuel : fuel ≠ 0) :
    plainScalar false 0 fuel [] .empty (.ofList cs) =
      some (cs, false, ⟨[], 0, cs.length, cs.length⟩) := by
  obtain ⟨fuel, rfl⟩ := Nat.exists_eq_succ_of_ne_zero hfuel
  have hcomment : (Cursor.ofList cs).hasAt 0 '#' = false := h.hasAt_zero rfl (by decide)
  have hrun : plainRun false (Cursor.ofList cs).rest = some cs := h.plainRun_eq
  have hafter : (Cursor.ofList cs).skip cs.length = ⟨[], 0, cs.length, cs.length⟩ := by
    simp [Cursor.ofList, Cursor.skip]
  simp [plainScalar, Cursor.atDocumentMarker, h.atMarker_minus, h.atMarker_dot, hcomment, hrun,
    h.ne_nil, hafter, Cursor.satisfiesAt, Gap.text, Gap.empty]

theorem plain_eq (h : IsWord cs) : (TokenStream.ofList cs).plain = some (cutOff cs) := by
  have hfuel : cs.length ≠ 0 := fun hzero => h.ne_nil (List.length_eq_zero_iff.mp hzero)
  change (plainScalar false 0 cs.length [] .empty (.ofList cs)).bind _ = _
  rw [h.plainScalar_eq hfuel]
  rfl

theorem step_eq (h : IsWord cs) :
    (TokenStream.ofList cs).step = some (false, cutOff cs) := by
  have hrest : (Cursor.ofList cs).rest.isEmpty = false := by
    simpa [Cursor.ofList] using h.ne_nil
  have hskip : (TokenStream.ofList cs).cursor.skipToToken (TokenStream.ofList cs).inFlow
      ((TokenStream.ofList cs).size + 1) (TokenStream.ofList cs).keyAllowed =
        (true, .ofList cs) := h.skipToToken_eq _
  unfold TokenStream.step
  rw [hskip]
  change (if (Cursor.ofList cs).rest.isEmpty = true then _
    else (TokenStream.ofList cs).cutToken.bind _) = _
  rw [hrest, h.cutToken_eq, h.plain_eq]
  rfl

/-- The stream at its end, where the word can no longer be a key. -/
def ended (cs : List Char) : TokenStream :=
  ⟨cs.length, ⟨[], 1, 0, cs.length⟩, [], false, [none], [.scalar .plain cs, .streamEnd], 0⟩

theorem dropStaleKeys_cutOff (cs : List Char) (hshort : cs.length ≤ 1024) :
    (cutOff cs).dropStaleKeys = some (cutOff cs) := by
  have hnear : ¬0 + 1024 < cs.length := by omega
  simp [TokenStream.dropStaleKeys, cutOff, hnear]

theorem step_cutOff (h : IsWord cs) (hshort : cs.length ≤ 1024) :
    (cutOff cs).step = some (true, ended cs) := by
  have hcolumn : ¬cs = [] := h.ne_nil
  have hskip : (cutOff cs).cursor.skipToToken (cutOff cs).inFlow ((cutOff cs).size + 1)
      (cutOff cs).keyAllowed = (false, (cutOff cs).cursor) := by
    simp [Cursor.skipToToken, cutOff, Cursor.hasAt, Cursor.satisfiesAt, Cursor.skipWhile,
      Cursor.skip]
  unfold TokenStream.step
  rw [hskip]
  change (cutOff cs).dropStaleKeys.bind _ = _
  rw [dropStaleKeys_cutOff cs hshort]
  simp [TokenStream.closeBlocks, TokenStream.finish, TokenStream.endBlocks, TokenStream.dropKey,
    TokenStream.push, TokenStream.inFlow, cutOff, ended, hcolumn]

/-- A word makes up the whole document, as a scalar. -/
theorem tokens_eq (h : IsWord cs) (hshort : cs.length ≤ 1024) :
    tokens cs = [.scalar .plain cs, .streamEnd] := by
  obtain ⟨n, hn⟩ := Nat.exists_eq_succ_of_ne_zero
    fun hzero : cs.length = 0 => h.ne_nil (List.length_eq_zero_iff.mp hzero)
  have hmark : (cs.head? == some '\ufeff') = false := by
    rw [List.head?_eq_getElem?]
    exact h.hasAt_zero rfl (by decide)
  have hheld : (cutOff cs).give = ([], cutOff cs) := rfl
  have hgiven : (ended cs).dropStaleKeys = some (ended cs) := rfl
  simp only [tokens, hmark, Bool.false_eq_true, ↓reduceIte, h.all_isPrintable, hn,
    TokenStream.tokensFrom, h.step_eq, dropStaleKeys_cutOff cs hshort, hheld,
    h.step_cutOff hshort, hgiven]
  rfl

/-- A word is read as what it stands for as a plain scalar. -/
theorem read_eq (h : IsWord cs) (hshort : cs.length ≤ 1024) :
    Yaml.read (String.ofList cs) =
      match plainValue? cs with
      | some v => .ok v
      | none => .error .malformed := by
  have hnode : Composition.document [.scalar .plain cs, .streamEnd] =
      (.scalar none .plain cs, ⟨[.streamEnd], .empty, Composition.defaultHandles⟩) := rfl
  simp only [read, String.toList_ofList, h.tokens_eq hshort, hnode, depthLimit, Node.value_scalar]
  cases plainValue? cs <;> rfl

end IsWord

end Yaml

end FieldPath
