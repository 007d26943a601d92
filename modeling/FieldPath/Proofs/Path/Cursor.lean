import FieldPath.Proofs.Path.Reading

/-!
# Scanning with a byte position

A text can be scanned in place: a position counts the bytes passed, every look at a character
slices the text there, and the text of a name is sliced out once its end is reached. A slice
fails where a position is not between two characters. Scanned like this, every text gives the
tokens or the error that it gives as a list of characters, and no slice ever fails.
-/

namespace FieldPath

namespace Path

/-! ## Slices of a text -/

theorem pos?_eq_some_iff {text : String} {offset : String.Pos.Raw} {p : text.Pos} :
    text.pos? offset = some p ↔ p.offset = offset := by
  rw [String.pos?, Option.map_eq_some_iff]
  constructor
  · rintro ⟨q, hq, rfl⟩
    rw [String.Slice.pos?] at hq
    split at hq
    · cases hq
      rfl
    · cases hq
  · rintro rfl
    have hvalid : String.Pos.Raw.isValidForSlice text.toSlice p.offset = true :=
      String.Pos.Raw.isValidForSlice_eq_true_iff.mpr p.isValid.toSlice
    exact ⟨p.toSlice, dif_pos hvalid, rfl⟩

/-- The bytes of a text between two positions, if both are boundaries of characters. -/
def slice? (text : String) (start stop : Nat) : Option String := do
  let p ← text.pos? ⟨start⟩
  let q ← text.pos? ⟨stop⟩
  (text.slice? p q).map String.Slice.copy

theorem slice?_eq_some_iff {text middle : String} {start stop : Nat} :
    slice? text start stop = some middle ↔
      ∃ front rest, text = front ++ (middle ++ rest) ∧ start = front.utf8ByteSize ∧
        stop = (front ++ middle).utf8ByteSize := by
  simp only [slice?, Option.bind_eq_bind, Option.bind_eq_some_iff, Option.map_eq_some_iff,
    pos?_eq_some_iff, String.slice?]
  constructor
  · rintro ⟨p, hp, q, hq, s, hs, rfl⟩
    obtain ⟨hle, hslice⟩ := Option.dite_none_right_eq_some.mp hs
    cases hslice
    obtain ⟨front, rest, hfront, hrest⟩ := String.copy_slice_eq_iff_splits.mp ⟨hle, rfl⟩
    refine ⟨front, rest, hfront.eq_append, ?_, ?_⟩
    · exact congrArg String.Pos.Raw.byteIdx (hp.symm.trans hfront.offset_eq_rawEndPos)
    · exact congrArg String.Pos.Raw.byteIdx (hq.symm.trans hrest.offset_eq_rawEndPos)
  · rintro ⟨front, rest, htext, rfl, rfl⟩
    have hp := String.Pos.splits_ofEqAppend htext
    have hq := String.Pos.splits_ofEqAppend (htext.trans String.append_assoc.symm)
    obtain ⟨hle, hcopy⟩ := String.copy_slice_eq_iff_splits.mpr ⟨front, rest, hp, hq⟩
    exact ⟨_, hp.offset_eq_rawEndPos, _, hq.offset_eq_rawEndPos, _, dif_pos hle, hcopy⟩

-- The second character takes the bytes 1 and 2.
example : slice? "né" 1 3 = some "é" ∧ slice? "né" 2 3 = none := by decide +kernel

/-- What a text has left after the bytes before a position. -/
def HasRest (text : String) (position : Nat) (rest : List Char) : Prop :=
  ∃ front, text = front ++ String.ofList rest ∧ position = front.utf8ByteSize

theorem hasRest_zero (text : String) : HasRest text 0 text.toList :=
  ⟨"", by simp, rfl⟩

namespace HasRest

variable {text : String} {position : Nat} {cs rest : List Char} {c : Char}

theorem append (h : HasRest text position (cs ++ rest)) :
    HasRest text (position + byteLength cs) rest := by
  obtain ⟨front, rfl, rfl⟩ := h
  refine ⟨front ++ String.ofList cs, ?_, ?_⟩
  · rw [String.ofList_append, String.append_assoc]
  · rw [String.utf8ByteSize_append, utf8ByteSize_ofList]

theorem tail (h : HasRest text position (c :: rest)) :
    HasRest text (position + c.utf8Size) rest := by
  have hsplit : HasRest text position ([c] ++ rest) := h
  exact hsplit.append

theorem size_eq (h : HasRest text position rest) :
    text.utf8ByteSize = position + byteLength rest := by
  obtain ⟨front, rfl, rfl⟩ := h
  rw [String.utf8ByteSize_append, utf8ByteSize_ofList]

theorem slice?_eq (h : HasRest text position (cs ++ rest)) :
    slice? text position (position + byteLength cs) = some (String.ofList cs) := by
  obtain ⟨front, rfl, rfl⟩ := h
  refine slice?_eq_some_iff.mpr ⟨front, String.ofList rest, ?_, rfl, ?_⟩
  · rw [String.ofList_append]
  · rw [String.utf8ByteSize_append, utf8ByteSize_ofList]

end HasRest

theorem Token.eq_of_checkBrackets {position : Nat} {previous : Option TokenKind}
    {rest tail : List Char} (h : checkBrackets position previous rest = .ok tail) :
    rest = ']' :: tail := by
  unfold checkBrackets at h
  split at h
  · cases h
  · split at h
    · cases h
    · cases h
      rfl
    · split at h <;> cases h
      rfl
    · cases h

/-! ## Looking at characters -/

inductive Halt where
  | refused (error : GrammarError)
  | noSlice (start stop : Nat)

namespace Cursor

def slice (text : String) (start stop : Nat) : Except Halt String :=
  match slice? text start stop with
  | some middle => .ok middle
  | none => .error (.noSlice start stop)

def peek (text : String) (position : Nat) : Except Halt (Option Char) :=
  (slice text position text.utf8ByteSize).map (·.toList.head?)

def bump (text : String) (position : Nat) : Except Halt Nat :=
  (peek text position).map fun
    | some c => position + c.utf8Size
    | none => position

section

variable {text : String} {position : Nat} {cs rest : List Char} {c : Char}

theorem slice_of_hasRest (h : HasRest text position (cs ++ rest)) :
    slice text position (position + byteLength cs) = .ok (String.ofList cs) := by
  rw [slice, h.slice?_eq]

theorem peek_of_hasRest (h : HasRest text position rest) : peek text position = .ok rest.head? := by
  have hall : HasRest text position (rest ++ []) := by rwa [List.append_nil]
  rw [peek, h.size_eq, slice_of_hasRest hall, Except.map, String.toList_ofList]

theorem bump_of_hasRest (h : HasRest text position (c :: rest)) :
    bump text position = .ok (position + c.utf8Size) := by
  rw [bump, peek_of_hasRest h]
  rfl

-- Where a character is seen there is a boundary. The two loops below end because of it.
theorem exists_hasRest_of_peek (h : peek text position = .ok (some c)) :
    ∃ rest, HasRest text position (c :: rest) := by
  obtain ⟨middle, hmiddle, hc⟩ := exists_of_map_eq_ok h
  rw [slice] at hmiddle
  split at hmiddle
  · rename_i hslice
    cases hmiddle
    obtain ⟨front, rest, htext, hstart, -⟩ := slice?_eq_some_iff.mp hslice
    obtain ⟨cs, hcs⟩ := List.head?_eq_some_iff.mp hc
    refine ⟨cs ++ rest.toList, front, ?_, hstart⟩
    rw [← List.cons_append, ← hcs, String.ofList_append, String.ofList_toList,
      String.ofList_toList]
    exact htext
  · cases hmiddle

theorem lt_of_peek (h : peek text position = .ok (some c)) : position < text.utf8ByteSize := by
  obtain ⟨rest, hrest⟩ := exists_hasRest_of_peek h
  have hpos := c.utf8Size_pos
  rw [hrest.size_eq, byteLength]
  omega

end

/-! ## One token -/

def dot (text : String) (previous : Option TokenKind) (start : Nat) :
    Except Halt (TokenKind × Nat) :=
  match previous with
  | none | some .dot => .error (.refused (.unexpectedToken start "." .nameBeforeDot))
  | some _ => do
      let next ← bump text start
      match ← peek text next with
      | none => .error (.refused (.unexpectedEnd next .nameAfterDot))
      | some c =>
          if isNameChar c then .ok (.dot, next)
          else .error (.refused (.unexpectedToken next c.toString .nameAfterDot))

def brackets (text : String) (previous : Option TokenKind) (start : Nat) :
    Except Halt (TokenKind × Nat) :=
  if previous.isNone then .error (.refused (.unexpectedToken start "[" .nameBeforeBrackets))
  else do
    let inner ← bump text start
    match ← peek text inner with
    | none => .error (.refused (.unexpectedEnd inner .closingBracket))
    | some ']' =>
        let next ← bump text inner
        match ← peek text next with
        | none => .ok (.brackets, next)
        | some c =>
            if c == '.' || c == '[' then .ok (.brackets, next)
            else .error (.refused (.unexpectedToken next c.toString .continuation))
    | some c => .error (.refused (.unexpectedToken inner c.toString .closingBracket))

def nameEnd (text : String) (position : Nat) : Except Halt Nat :=
  match _h : peek text position with
  | .error halt => .error halt
  | .ok none => .ok position
  | .ok (some c) =>
      if isNameChar c then nameEnd text (position + c.utf8Size) else .ok position
termination_by text.utf8ByteSize - position
decreasing_by
  have hlt := lt_of_peek _h
  have hpos := c.utf8Size_pos
  omega

def name (text : String) (start : Nat) : Except Halt (TokenKind × Nat) := do
  let next ← nameEnd text start
  let name ← slice text start next
  return (.name name, next)

def token (text : String) (previous : Option TokenKind) (start : Nat) (c : Char) :
    Except Halt (TokenKind × Nat) :=
  if c = '.' then dot text previous start
  else if c = '[' then brackets text previous start
  else if c = ']' then .error (.refused (.unexpectedToken start "]" .openingBracket))
  else name text start

section

variable {text : String} {position : Nat} {rest : List Char}

theorem dot_of_hasRest (h : HasRest text position ('.' :: rest)) (previous : Option TokenKind) :
    dot text previous position =
      ((Token.checkDot position previous rest).map fun _ => (.dot, position + 1)).mapError
        .refused := by
  have hbump : bump text position = .ok (position + 1) := bump_of_hasRest h
  have hpeek : peek text (position + 1) = .ok rest.head? := peek_of_hasRest h.tail
  unfold dot Token.checkDot
  split
  · rfl
  · rfl
  · rw [hbump]
    simp only [bind, Except.bind, hpeek]
    cases rest with
    | nil => rfl
    | cons c tail =>
        by_cases hc : isNameChar c = true
        · simp only [List.head?_cons, if_pos hc]
          rfl
        · simp only [List.head?_cons, if_neg hc]
          rfl

theorem brackets_of_hasRest (h : HasRest text position ('[' :: rest))
    (previous : Option TokenKind) :
    brackets text previous position =
      ((Token.checkBrackets position previous rest).map fun _ => (.brackets, position + 2)).mapError
        .refused := by
  have hbump : bump text position = .ok (position + 1) := bump_of_hasRest h
  have hpeek : peek text (position + 1) = .ok rest.head? := peek_of_hasRest h.tail
  unfold brackets Token.checkBrackets
  by_cases hprevious : previous.isNone = true
  · rw [if_pos hprevious, if_pos hprevious]
    rfl
  rw [if_neg hprevious, if_neg hprevious, hbump]
  simp only [bind, Except.bind, hpeek]
  cases rest with
  | nil => rfl
  | cons c tail =>
      by_cases hc : c = ']'
      · subst hc
        have hbump : bump text (position + 1) = .ok (position + 2) := bump_of_hasRest h.tail
        have hpeek : peek text (position + 2) = .ok tail.head? := peek_of_hasRest h.tail.tail
        simp only [List.head?_cons, hbump, hpeek]
        cases tail with
        | nil => rfl
        | cons d tail =>
            by_cases hd : (d == '.' || d == '[') = true
            · simp only [List.head?_cons, if_pos hd]
              rfl
            · simp only [List.head?_cons, if_neg hd]
              rfl
      · simp only [List.head?_cons, hc, false_implies, implies_true]
        rfl

theorem nameEnd_nil (h : HasRest text position []) : nameEnd text position = .ok position := by
  have hpeek := peek_of_hasRest h
  rw [nameEnd]
  split <;> simp_all

theorem nameEnd_cons {c : Char} (h : HasRest text position (c :: rest)) :
    nameEnd text position =
      if isNameChar c then nameEnd text (position + c.utf8Size) else .ok position := by
  have hpeek := peek_of_hasRest h
  rw [nameEnd]
  split <;> simp_all

theorem nameEnd_of_hasRest (h : HasRest text position rest) :
    nameEnd text position = .ok (position + byteLength (rest.takeWhile isNameChar)) := by
  induction rest generalizing position with
  | nil => exact nameEnd_nil h
  | cons c tail ih =>
      rw [nameEnd_cons h, ih h.tail]
      by_cases hc : isNameChar c = true
      · rw [if_pos hc, List.takeWhile_cons_of_pos hc, byteLength, Nat.add_assoc]
      · rw [if_neg hc, List.takeWhile_cons_of_neg hc]
        rfl

theorem name_of_hasRest (h : HasRest text position rest) :
    name text position = .ok (.name (String.ofList (rest.takeWhile isNameChar)),
      position + byteLength (rest.takeWhile isNameChar)) := by
  have hsplit : HasRest text position (rest.takeWhile isNameChar ++ rest.dropWhile isNameChar) := by
    rwa [List.takeWhile_append_dropWhile]
  rw [name, nameEnd_of_hasRest h]
  simp only [bind, Except.bind, slice_of_hasRest hsplit]
  rfl

/-- A token is not empty, so the scanner moves on. -/
theorem lt_of_token {previous : Option TokenKind} {c : Char} {kind : TokenKind} {next : Nat}
    (hpeek : peek text position = .ok (some c))
    (h : token text previous position c = .ok (kind, next)) : position < next := by
  obtain ⟨rest, hrest⟩ := exists_hasRest_of_peek hpeek
  by_cases hdot : c = '.'
  · subst hdot
    rw [token, if_pos rfl, dot_of_hasRest hrest] at h
    obtain ⟨_, -, hnext⟩ := exists_of_map_eq_ok (mapError_eq_ok_iff.mp h)
    cases hnext
    omega
  by_cases hopen : c = '['
  · subst hopen
    rw [token, if_neg hdot, if_pos rfl, brackets_of_hasRest hrest] at h
    obtain ⟨_, -, hnext⟩ := exists_of_map_eq_ok (mapError_eq_ok_iff.mp h)
    cases hnext
    omega
  by_cases hclose : c = ']'
  · rw [token, if_neg hdot, if_neg hopen, if_pos hclose] at h
    cases h
  · have hc : isNameChar c = true := isNameChar_iff.mpr ⟨hdot, hopen, hclose⟩
    have hpos := c.utf8Size_pos
    rw [token, if_neg hdot, if_neg hopen, if_neg hclose, name_of_hasRest hrest,
      List.takeWhile_cons_of_pos hc, byteLength] at h
    cases h
    omega

end

/-! ## The whole text -/

def run (text : String) (position : Nat) (tokens : List Token) : Except Halt (List Token) :=
  match _hpeek : peek text position with
  | .error halt => .error halt
  | .ok none => .ok tokens
  | .ok (some c) =>
      match _htoken : token text (tokens.getLast?.map (·.kind)) position c with
      | .error halt => .error halt
      | .ok (kind, next) => run text next (tokens ++ [⟨kind, position⟩])
termination_by text.utf8ByteSize - position
decreasing_by
  have hlt := lt_of_peek _hpeek
  have hnext := lt_of_token _hpeek _htoken
  omega

def scan (text : String) : Except Halt (List Token) :=
  if text.isEmpty then .error (.refused .empty) else run text 0 []

theorem run_nil {text : String} {position : Nat} (h : HasRest text position [])
    (tokens : List Token) : run text position tokens = .ok tokens := by
  have hpeek := peek_of_hasRest h
  rw [run]
  split <;> simp_all

theorem run_cons {text : String} {position : Nat} {c : Char} {rest : List Char}
    (h : HasRest text position (c :: rest)) (tokens : List Token) :
    run text position tokens =
      match token text (tokens.getLast?.map (·.kind)) position c with
      | .error halt => .error halt
      | .ok (kind, next) => run text next (tokens ++ [⟨kind, position⟩]) := by
  have hpeek := peek_of_hasRest h
  rw [run]
  split
  · simp_all
  · simp_all
  · rename_i d hd
    have hcd : c = d := by simpa [hpeek] using hd
    subst hcd
    split <;> simp_all

theorem map_append_cons (x : Except GrammarError (List Token)) (tokens : List Token)
    (t : Token) : (x.map (t :: ·)).map (tokens ++ ·) = x.map (tokens ++ [t] ++ ·) := by
  cases x <;> simp [Except.map]

/-- From a position on, scanning in place goes on as scanning the rest does. -/
theorem run_of_hasRest {text : String} {position : Nat} {rest : List Char}
    (h : HasRest text position rest) (tokens : List Token) :
    run text position tokens =
      ((Token.scanFrom position (tokens.getLast?.map (·.kind)) rest).map (tokens ++ ·)).mapError
        .refused := by
  -- The induction is the list scanner's own. It only knows the kind of the last token, so all
  -- the tokens found so far are left open, and each step puts one more behind them.
  generalize hprevious : tokens.getLast?.map (·.kind) = previous
  fun_induction Token.scanFrom position previous rest generalizing tokens with
  | case1 position previous =>
      rw [run_nil h]
      exact congrArg Except.ok (List.append_nil tokens).symm
  | case2 position previous rest e hcheck =>
      rw [run_cons h, hprevious, token, if_pos rfl, dot_of_hasRest h, hcheck]
      rfl
  | case3 position previous rest hcheck ih =>
      rw [run_cons h, hprevious, token, if_pos rfl, dot_of_hasRest h, hcheck, map_append_cons]
      exact ih h.tail (tokens ++ [⟨.dot, position⟩]) (by simp)
  | case4 position previous rest e hcheck hdot =>
      rw [run_cons h, hprevious, token, if_neg hdot, if_pos rfl, brackets_of_hasRest h, hcheck]
      rfl
  | case5 position previous rest tail hcheck hdot ih =>
      rw [run_cons h, hprevious, token, if_neg hdot, if_pos rfl, brackets_of_hasRest h, hcheck,
        map_append_cons]
      cases Token.eq_of_checkBrackets hcheck
      exact ih h.tail.tail (tokens ++ [⟨.brackets, position⟩]) (by simp)
  | case6 position previous rest hdot hopen =>
      rw [run_cons h, hprevious, token, if_neg hdot, if_neg hopen, if_pos rfl]
      rfl
  | case7 position previous c rest hdot hopen hclose name kind ih =>
      have hc : isNameChar c = true := isNameChar_iff.mpr ⟨hdot, hopen, hclose⟩
      have htake : (c :: rest).takeWhile isNameChar = name := List.takeWhile_cons_of_pos hc
      have hsplit : HasRest text position (name ++ rest.dropWhile isNameChar) := by
        rwa [List.cons_append, List.takeWhile_append_dropWhile]
      rw [run_cons h, hprevious, token, if_neg hdot, if_neg hopen, if_neg hclose,
        name_of_hasRest h, htake, map_append_cons]
      exact ih hsplit.append (tokens ++ [⟨kind, position⟩]) (by simp)

/-- Every slice that scanning in place makes is there, and it scans what the text is. -/
theorem scan_eq (text : String) : scan text = (Path.scan text).mapError .refused := by
  unfold scan Path.scan
  by_cases hempty : text.isEmpty = true
  · rw [if_pos hempty, if_pos hempty]
    rfl
  · rw [if_neg hempty, if_neg hempty, run_of_hasRest (hasRest_zero text) []]
    have hstart (x : Except GrammarError (List Token)) : x.map ([] ++ ·) = x := by
      cases x <;> rfl
    exact congrArg (Except.mapError Halt.refused) (hstart _)

end Cursor

end Path

end FieldPath
