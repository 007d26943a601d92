import FieldPath.Json.Reader
import FieldPath.Json.Text
import FieldPath.Proofs.Decimal.Digits
import FieldPath.Proofs.Value.Numbers

/-!
# JSON scalars read back

What the writers of strings and of integers put before a text is what the readers take
off it again. A number has no mark at its end, so it must be followed by a character
that could not belong to it.
-/

namespace FieldPath

namespace Json

/-! ## Strings -/

theorem readEscape_escapedControl {c : Char} (h : c < ' ') (rest : List Char) :
    readEscape ((escapedControl c).drop 1 ++ rest) = some (c, rest) := by
  have hvalue : ∀ n < 32, Text.hexValue? ['0', '0', Nat.digitChar (n / 16), Nat.digitChar (n % 16)]
      = some n := by decide
  have hc : c.toNat < 32 := h
  have hhigh : isHighSurrogate c.toNat = false := by simp [isHighSurrogate]; omega
  have hlow : isLowSurrogate c.toNat = false := by simp [isLowSurrogate]; omega
  simp [escapedControl, readEscape, hvalue c.toNat hc, hhigh, hlow]

/-- A character is written with a letter of its own after a backslash, by its number, or as
itself if it has no meaning of its own in a string. -/
theorem escape_cases (c : Char) :
    (∃ letter, escape c = ['\\', letter] ∧ 0x20 ≤ letter.toNat ∧
      ∀ rest, readEscape (letter :: rest) = some (c, rest)) ∨
    escape c = escapedControl c ∧ c < ' ' ∨
    escape c = [c] ∧ c ≠ '"' ∧ c ≠ '\\' ∧ ¬c < ' ' := by
  have named {d letter : Char} (hd : c = d) (hletter : 0x20 ≤ letter.toNat)
      (hread : ∀ rest, readEscape (letter :: rest) = some (d, rest)) :
      ∃ code, ['\\', letter] = ['\\', code] ∧ 0x20 ≤ code.toNat ∧
        ∀ rest, readEscape (code :: rest) = some (c, rest) :=
    ⟨letter, rfl, hletter, fun rest => hd ▸ hread rest⟩
  generalize hcode : escape c = code
  unfold escape at hcode
  split_ifs at hcode with hquote hbackslash hb ht hn hf hr hcontrol <;> subst hcode
  · exact .inl (named hquote (by decide) fun _ => rfl)
  · exact .inl (named hbackslash (by decide) fun _ => rfl)
  · exact .inl (named hb (by decide) fun _ => rfl)
  · exact .inl (named ht (by decide) fun _ => rfl)
  · exact .inl (named hn (by decide) fun _ => rfl)
  · exact .inl (named hf (by decide) fun _ => rfl)
  · exact .inl (named hr (by decide) fun _ => rfl)
  · exact .inr (.inl ⟨rfl, hcontrol⟩)
  · exact .inr (.inr ⟨rfl, hquote, hbackslash, hcontrol⟩)

/-- One turn of the reader takes what one character was written as. -/
theorem readStringBody_escape (c : Char) (fuel : Nat) (rest : List Char) :
    readStringBody (fuel + 1) (escape c ++ rest) =
      (readStringBody fuel rest).map fun read => (c :: read.1, read.2) := by
  have coded {code : List Char} (hcode : escape c = '\\' :: code)
      (hread : readEscape (code ++ rest) = some (c, rest)) :
      readStringBody (fuel + 1) (escape c ++ rest) =
        (readStringBody fuel rest).map fun read => (c :: read.1, read.2) := by
    rw [Option.map_eq_bind, hcode, List.cons_append, readStringBody, if_neg (by decide),
      if_pos rfl, hread]
    rfl
  rcases escape_cases c with ⟨letter, hletter, -, hread⟩ | ⟨hnumber, hcontrol⟩ | ⟨hplain, hquote,
    hbackslash, hcontrol⟩
  · exact coded hletter (hread rest)
  · exact coded hnumber (readEscape_escapedControl hcontrol rest)
  · rw [Option.map_eq_bind, hplain, List.singleton_append, readStringBody, if_neg hquote,
      if_neg hbackslash, if_neg hcontrol]
    rfl

theorem readStringBody_write {cs : List Char} {fuel : Nat} (hfuel : cs.length < fuel)
    (rest : List Char) : readStringBody fuel (writeStringBody cs rest) = some (cs, rest) := by
  induction cs generalizing fuel with
  | nil =>
      cases fuel with
      | zero => cases hfuel
      | succ fuel => rfl
  | cons c cs ih =>
      cases fuel with
      | zero => cases hfuel
      | succ fuel =>
          rw [writeStringBody, readStringBody_escape, ih (Nat.lt_of_succ_lt_succ hfuel)]
          rfl

theorem length_lt_length_writeStringBody (cs rest : List Char) :
    cs.length + rest.length < (writeStringBody cs rest).length := by
  induction cs with
  | nil => simp [writeStringBody]
  | cons c cs ih =>
      have hescape : 0 < (escape c).length := by
        rcases escape_cases c with ⟨letter, hletter, -⟩ | ⟨hnumber, -⟩ | ⟨hplain, -⟩
        · simp [hletter]
        · simp [hnumber, escapedControl]
        · simp [hplain]
      simp only [writeStringBody, List.length_append, List.length_cons]
      omega

/-- A string whose opening quote has been read is read back. -/
theorem readString_write {text : String} {fuel : Nat} {rest : List Char}
    (hfuel : (writeStringBody text.toList rest).length ≤ fuel) :
    readString fuel (writeStringBody text.toList rest) = some (text, rest) := by
  have hlength := length_lt_length_writeStringBody text.toList rest
  rw [readString, readStringBody_write (by omega), Option.map_some]
  exact congrArg (fun read => some (read, rest)) String.ofList_toList

/-! ## Integers -/

/-- What may follow a value in compact JSON: the end, a comma or a closing bracket. -/
def Follows (rest : List Char) : Prop := ∀ c ∈ rest.head?, c = ',' ∨ c = ']' ∨ c = '\x7d'

theorem readDigits_append {digits rest : List Char} (hne : digits ≠ [])
    (hdigits : ∀ c ∈ digits, c.isDigit = true) (hrest : Follows rest) :
    readDigits (digits ++ rest) = some (digits, rest) := by
  have hstop : rest.takeWhile Char.isDigit = [] ∧ rest.dropWhile Char.isDigit = rest := by
    cases rest with
    | nil => exact ⟨rfl, rfl⟩
    | cons c rest =>
        have hc : c.isDigit = false := by
          rcases hrest c rfl with rfl | rfl | rfl <;> rfl
        simp [hc]
  rw [readDigits, List.takeWhile_append_of_pos hdigits, List.dropWhile_append_of_pos hdigits,
    hstop.1, hstop.2, List.append_nil, if_neg (by simpa using hne)]

theorem readFraction_of_follows {rest : List Char} (h : Follows rest) :
    readFraction rest = some (none, rest) := by
  unfold readFraction
  split
  · rename_i cs
    rcases h '.' rfl with h | h | h <;> cases h
  · rfl

theorem readExponent_of_follows {rest : List Char} (h : Follows rest) :
    readExponent rest = some (none, rest) := by
  cases rest with
  | nil => rfl
  | cons c rest =>
      have hc : ¬(c = 'e' ∨ c = 'E') := by
        rcases h c rfl with rfl | rfl | rfl <;> decide
      rw [readExponent, if_neg hc]

/-- Digits, maybe with a minus sign before them, are read as the number they spell. -/
theorem readNumber_digits {negative : Bool} {digits rest : List Char} {n : Number}
    (hne : digits ≠ []) (hdigits : ∀ c ∈ digits, c.isDigit = true)
    (hzero : digits.head? = some '0' → digits.length = 1)
    (hnumber : NumberParts.number? ⟨negative, digits, none, none⟩ = some n)
    (hrest : Follows rest) :
    readNumber ((if negative then ['-'] else []) ++ digits ++ rest) = some (n, rest) := by
  have hread := readDigits_append hne hdigits hrest
  have hled : ¬(digits.head? = some '0' ∧ 1 < digits.length) := by
    rintro ⟨hhead, hlength⟩
    exact absurd (hzero hhead) (Nat.ne_of_gt hlength)
  have hminus : ∀ tail, digits ++ rest ≠ '-' :: tail := by
    obtain ⟨d, ds, rfl⟩ := List.exists_cons_of_ne_nil hne
    rintro tail ⟨⟩
    exact absurd (hdigits '-' List.mem_cons_self) (by decide)
  unfold readNumber
  split
  rename_i sign unsigned hsplit
  have hsign : (negative, digits ++ rest) = (sign, unsigned) := by
    cases negative with
    | true => exact hsplit
    | false =>
        rw [← hsplit]
        split
        · rename_i tail heq
          exact absurd heq (hminus tail)
        · rfl
  cases hsign
  refine Option.bind_eq_some_iff.mpr ⟨(digits, rest), hread, ?_⟩
  dsimp only
  rw [if_neg hled]
  refine Option.bind_eq_some_iff.mpr ⟨(none, rest), readFraction_of_follows hrest, ?_⟩
  refine Option.bind_eq_some_iff.mpr ⟨(none, rest), readExponent_of_follows hrest, ?_⟩
  exact Option.bind_eq_some_iff.mpr ⟨n, hnumber, rfl⟩

theorem number?_of_ofInt? {i : Int} {n : Number} (h : Number.ofInt? i = some n) :
    NumberParts.number? ⟨decide (i < 0), Nat.toDigits 10 i.natAbs, none, none⟩ = some n := by
  have hzero : (decide (i < 0) && (i.natAbs : Int) == 0) = false := by
    by_cases hneg : i < 0
    · simp [hneg]
      omega
    · simp [hneg]
  simp only [NumberParts.number?, Numeral.digitsValue_toDigits, hzero, Bool.false_eq_true,
    if_false, Number.eq_of_sign_natAbs, h]

/-- The decimal text of an integer is read as the number for that integer. -/
theorem readNumber_intText {i : Int} {n : Number} (h : Number.ofInt? i = some n)
    {rest : List Char} (hrest : Follows rest) :
    readNumber ((Number.intText i).toList ++ rest) = some (n, rest) := by
  have hread := readNumber_digits Nat.toDigits_ne_nil Numeral.isDigit_of_mem_toDigits
    Numeral.length_toDigits_of_head? (number?_of_ofInt? h) hrest
  rw [Number.toList_intText]
  simpa only [decide_eq_true_eq] using hread

end Json

end FieldPath
