import FieldPath.Proofs.Decimal.Digits
import FieldPath.Proofs.Decimal.Whole
import FieldPath.Proofs.Validator.IntegerRule

/-!
# Quoted numbers

The integer rule judges a number by its fraction and a text by what 64 bits can hold. The
text of a whole floating-point number has all of its digits, so the rule tells the two
apart from the ends of the words on.
-/

namespace FieldPath

/-! ## Blanks around texts -/

namespace Text

variable {c : Char} {cs : List Char}

theorem mem_dropWhile_isBlank (h : c ∈ cs) (hc : isBlank c = false) : c ∈ cs.dropWhile isBlank := by
  rw [← List.takeWhile_append_dropWhile (p := isBlank) (l := cs), List.mem_append] at h
  refine h.resolve_left fun htaken => ?_
  exact Bool.false_ne_true (hc.symm.trans (List.mem_takeWhile_imp htaken))

theorem mem_trimEnd (h : c ∈ cs) (hc : isBlank c = false) : c ∈ trimEnd cs := by
  induction cs with
  | nil => cases h
  | cons d rest ih =>
      rw [trimEnd]
      rcases List.mem_cons.mp h with rfl | hrest
      · split
        · simp [hc]
        · exact List.mem_cons_self
      · split
        · rename_i hnil
          exact absurd (hnil ▸ ih hrest) List.not_mem_nil
        · exact List.mem_cons_of_mem _ (ih hrest)

/-- Trimming takes nothing but blanks. -/
theorem mem_trim (h : c ∈ cs) (hc : isBlank c = false) : c ∈ trim cs :=
  mem_trimEnd (mem_dropWhile_isBlank h hc) hc

theorem trimEnd_eq_self (h : ∀ c ∈ cs, isBlank c = false) : trimEnd cs = cs := by
  induction cs with
  | nil => rfl
  | cons c rest ih =>
      obtain ⟨hc, hrest⟩ := List.forall_mem_cons.mp h
      rw [trimEnd, ih hrest]
      cases rest <;> simp [hc]

theorem trim_eq_self (h : ∀ c ∈ cs, isBlank c = false) : trim cs = cs := by
  have hkept : cs.dropWhile isBlank = cs := by
    cases cs with
    | nil => rfl
    | cons c rest => rw [List.dropWhile_cons, h c List.mem_cons_self, if_neg Bool.false_ne_true]
  rw [trim, hkept, trimEnd_eq_self h]

theorem isBlank_of_isDigit (h : c.isDigit = true) : isBlank c = false := by
  simp only [Char.isDigit, Bool.and_eq_true, decide_eq_true_eq] at h
  have hlow : 48 ≤ c.toNat := h.1
  have hhigh : c.toNat ≤ 57 := h.2
  simp only [isBlank, blankRanges, List.any_cons, List.any_nil, Bool.or_false, Bool.or_eq_false_iff,
    Bool.and_eq_false_iff, decide_eq_false_iff_not]
  omega

end Text

/-! ## Texts of whole numbers -/

theorem Decimal.digitCount_pos (n : Nat) : 0 < digitCount n := Nat.length_toDigits_pos

namespace Layout

theorem toList_zeros (n : Nat) : (zeros n).toList = List.replicate n '0' := String.toList_ofList

/-- A decimal with no digits after the point is written with zeros up to its end. -/
theorem toList_positionalText {d : Decimal} (h : 0 ≤ d.exponent) :
    (positionalText "" (Nat.toDigits 10 d.coefficient) (d.order - 1)).toList =
      Nat.toDigits 10 d.coefficient ++ List.replicate d.exponent.toNat '0' := by
  have hcount := Decimal.digitCount_pos d.coefficient
  have hshift : ¬d.order - 1 < 0 := by
    rw [Decimal.order]
    omega
  have hwhole : (d.order - 1).toNat + 1 = Decimal.digitCount d.coefficient + d.exponent.toNat := by
    rw [Decimal.order]
    omega
  unfold positionalText
  rw [if_neg hshift]
  dsimp only
  rw [hwhole, ← Decimal.digitCount, if_pos (Nat.le_add_right _ _), Nat.add_sub_cancel_left]
  simp [toList_zeros]

theorem point_mem_positionalText {d : Decimal} (h : d.exponent < 0) :
    '.' ∈ (positionalText "" (Nat.toDigits 10 d.coefficient) (d.order - 1)).toList := by
  unfold positionalText
  split
  · simp
  · rename_i hshift
    rw [Decimal.order] at hshift
    have hwhole : ¬Decimal.digitCount d.coefficient ≤ (d.order - 1).toNat + 1 := by
      rw [Decimal.order]
      omega
    dsimp only
    rw [← Decimal.digitCount, if_neg hwhole]
    simp

theorem toList_text_plain (x : Binary64) :
    (plain.text x).toList = (if x.isNegative then ['-'] else []) ++
      (positionalText "" (Nat.toDigits 10 (x.shortest .up).coefficient)
        ((x.shortest .up).order - 1)).toList := by
  change (_ ++ positionalText "" _ _).toList = _
  split <;> rw [String.toList_append] <;> rfl

end Layout

namespace Rule

/-- Digits after an optional minus sign are the integer that they stand for. -/
theorem integer?_of_isDigit {digits : List Char} (hne : digits ≠ [])
    (hdigits : ∀ c ∈ digits, c.isDigit = true) (negative : Bool) :
    integer? ((if negative then ['-'] else []) ++ digits) =
      some (if negative then -(Numeral.digitsValue digits : Int)
        else Numeral.digitsValue digits) := by
  have hsplit : Numeral.splitSign ((if negative then ['-'] else []) ++ digits) =
      (negative, digits) := by
    cases negative with
    | true => rfl
    | false => exact Numeral.splitSign_of_isDigit hdigits
  have haccepted : (digits.isEmpty || !digits.all Char.isDigit) = false := by
    simpa using ⟨hne, hdigits⟩
  rw [integer?, hsplit]
  simp only [haccepted, Bool.false_eq_true, if_false]

theorem isDigit_of_integer? {text : List Char} {i : Int} (h : integer? text = some i) {c : Char}
    (hc : c ∈ text) : c.isDigit = true ∨ c = '-' ∨ c = '+' := by
  obtain ⟨negative, digits, hsplit, -, hdigits, -⟩ := exists_of_integer? h
  unfold Numeral.splitSign at hsplit
  split at hsplit
  · cases hsplit
    rcases List.mem_cons.mp hc with rfl | hc
    · exact .inr (.inl rfl)
    · exact .inl (hdigits c hc)
  · cases hsplit
    rcases List.mem_cons.mp hc with rfl | hc
    · exact .inr (.inr rfl)
    · exact .inl (hdigits c hc)
  · cases hsplit
    exact .inl (hdigits c hc)

/-- A text with a letter or a point in it holds no integer. -/
theorem isIntegerText_eq_false {text : String} {c : Char} (hc : c ∈ text.toList)
    (hblank : Text.isBlank c = false) (hother : ¬(c.isDigit = true ∨ c = '-' ∨ c = '+')) :
    isIntegerText text = false := by
  refine Bool.eq_false_iff.mpr fun htext => ?_
  obtain ⟨i, hi, -⟩ := isIntegerText_iff.mp htext
  exact hother (isDigit_of_integer? hi (Text.mem_trim hc hblank))

/-- Digits after an optional minus sign are judged by the integer that they stand for. -/
theorem isIntegerText_of_isDigit {text : String} {digits : List Char} {negative : Bool}
    (htext : text.toList = (if negative then ['-'] else []) ++ digits) (hne : digits ≠ [])
    (hdigits : ∀ c ∈ digits, c.isDigit = true) :
    isIntegerText text = true ↔
      (if negative then Numeral.digitsValue digits ≤ 2 ^ 63
        else Numeral.digitsValue digits < 2 ^ 64) := by
  have hunblank : ∀ c ∈ text.toList, Text.isBlank c = false := by
    rw [htext]
    refine List.forall_mem_append.mpr ⟨?_, fun c hc => Text.isBlank_of_isDigit (hdigits c hc)⟩
    cases negative with
    | true => exact List.forall_mem_singleton.mpr (by decide)
    | false => exact List.forall_mem_nil _
  rw [isIntegerText_iff, Text.trim_eq_self hunblank, htext, integer?_of_isDigit hne hdigits]
  cases negative with
  | true =>
      simp
      omega
  | false => simp

end Rule

/-! ## Floating-point numbers quoted -/

namespace Binary64

variable {x : Binary64}

theorem digitsValue_append_zeros (n zeros : Nat) :
    Numeral.digitsValue (Nat.toDigits 10 n ++ List.replicate zeros '0') = n * 10 ^ zeros := by
  rw [Nat.mul_comm]
  calc Numeral.digitsValue (Nat.toDigits 10 n ++ List.replicate zeros '0')
      = Nat.ofDigitChars 10 (List.replicate zeros '0') (Numeral.digitsValue (Nat.toDigits 10 n)) :=
        Nat.ofDigitChars_append 0
    _ = 10 ^ zeros * n := by
        rw [Nat.ofDigitChars_replicate_zero, Numeral.digitsValue_toDigits]

/-- Where the digits of a power of two are rounded up, the digits of a whole number are within
it exactly if the number is below. -/
theorem toNat_shortest_le_iff (h : x.isWhole = true) {bits : Nat} (hword : bits + 1023 < 2048)
    (hrounded : 2 ^ bits < ((ofWord false ((bits + 1023) * 2 ^ 52)).shortest .up).toNat) :
    (x.shortest .up).toNat ≤ 2 ^ bits ↔ x.wholePart < 2 ^ bits := by
  constructor
  · intro hdigits
    by_contra hlarge
    exact Nat.not_lt_of_le hdigits
      (lt_toNat_shortest_of_le h hword hrounded (Nat.le_of_not_lt hlarge))
  · exact fun hsmall => Nat.le_of_lt (toNat_shortest_lt h hsmall)

/-- The digits of a whole number fit into a word exactly if the number lies between the ends. -/
theorem toNat_shortest_bounds (h : x.isWhole = true) :
    ((x.shortest .up).toNat ≤ 2 ^ 63 ↔ x.wholePart < 2 ^ 63) ∧
      ((x.shortest .up).toNat < 2 ^ 64 ↔ x.wholePart < 2 ^ 64) := by
  have hsigned : 2 ^ 63 < ((ofWord false ((63 + 1023) * 2 ^ 52)).shortest .up).toNat := by
    decide +kernel
  have hunsigned : 2 ^ 64 < ((ofWord false ((64 + 1023) * 2 ^ 52)).shortest .up).toNat := by
    decide +kernel
  refine ⟨toNat_shortest_le_iff h (by decide) hsigned, ?_⟩
  constructor
  · exact fun hdigits =>
      (toNat_shortest_le_iff h (by decide) hunsigned).mp (Nat.le_of_lt hdigits)
  · exact toNat_shortest_lt h

theorem isIntegerText_plain_of_isWhole (h : x.isWhole = true) :
    Rule.isIntegerText (Layout.plain.text x) = true ↔
      (if x.isNegative then x.wholePart < 2 ^ 63 else x.wholePart < 2 ^ 64) := by
  obtain ⟨hsigned, hunsigned⟩ := toNat_shortest_bounds h
  have htext := Layout.toList_text_plain x
  rw [Layout.toList_positionalText (exponent_shortest_nonneg h)] at htext
  have hdigits : ∀ c ∈ Nat.toDigits 10 (x.shortest .up).coefficient ++
      List.replicate (x.shortest .up).exponent.toNat '0', c.isDigit = true := by
    refine List.forall_mem_append.mpr ⟨Numeral.isDigit_of_mem_toDigits, fun c hc => ?_⟩
    rw [List.eq_of_mem_replicate hc]
    decide
  rw [Rule.isIntegerText_of_isDigit htext (List.append_ne_nil_of_left_ne_nil Nat.toDigits_ne_nil _)
    hdigits, digitsValue_append_zeros]
  cases x.isNegative with
  | true => exact hsigned
  | false => exact hunsigned

theorem isIntegerText_plain_of_not_isWhole (hfinite : x.isFinite = true)
    (h : x.isWhole = false) : Rule.isIntegerText (Layout.plain.text x) = false := by
  have hpoint : '.' ∈ (Layout.plain.text x).toList := by
    rw [Layout.toList_text_plain]
    exact List.mem_append_right _
      (Layout.point_mem_positionalText (exponent_shortest_neg hfinite h))
  exact Rule.isIntegerText_eq_false hpoint (by decide) (by decide)

end Binary64

namespace Number

/-- Floating-point numbers that are whole, and from the ends of the 64-bit integers on. -/
def IsBeyondWords : Number → Prop
  | float x => ∃ i, x.toInt? = some i ∧ (i ≤ -2 ^ 63 ∨ 2 ^ 64 ≤ i)
  | _ => False

theorem isWhole_of_isBeyondWords {n : Number} (h : n.IsBeyondWords) : n.isWhole = true := by
  cases n with
  | float x =>
      obtain ⟨i, hi, -⟩ := h
      rw [Binary64.toInt?] at hi
      rw [isWhole]
      by_contra hfraction
      rw [if_neg hfraction] at hi
      cases hi
  | _ => cases h

theorem isIntegerText_intText {i : Int} (hlow : -2 ^ 63 ≤ i) (hhigh : i < 2 ^ 64) :
    Rule.isIntegerText (intText i) = true := by
  have htext : (intText i).toList =
      (if decide (i < 0) then ['-'] else []) ++ Nat.toDigits 10 i.natAbs := by
    rw [toList_intText]
    simp only [decide_eq_true_eq]
  rw [Rule.isIntegerText_of_isDigit htext Nat.toDigits_ne_nil Numeral.isDigit_of_mem_toDigits,
    Numeral.digitsValue_toDigits]
  split <;> simp at * <;> omega

theorem isIntegerText_text_of_toInt? {n : Number} {i : Int} (h : n.toInt? = some i) :
    Rule.isIntegerText n.text = true := by
  rw [text_of_toInt? h]
  cases n with
  | integer value =>
      cases h
      exact isIntegerText_intText value.le_toInt
        (Int.lt_of_lt_of_le value.toInt_lt (by decide))
  | unsigned value =>
      cases h
      have hword : value.toNat < 2 ^ 64 := value.toNat_lt
      exact isIntegerText_intText (by omega) (by omega)
  | float value => cases h

theorem text_of_isFinite {x : Binary64} (h : x.isFinite = true) :
    (float x).text = Layout.plain.text x := by
  have hmagnitude : x.magnitude < Binary64.infinityWord := by simpa [Binary64.isFinite] using h
  have hnumber : x.isNaN = false := decide_eq_false (Nat.lt_asymm hmagnitude)
  have hbounded : x.isInfinite = false := beq_eq_false_iff_ne.mpr (Nat.ne_of_lt hmagnitude)
  rw [text, hnumber, hbounded, if_neg Bool.false_ne_true, if_neg Bool.false_ne_true]

theorem isIntegerText_text_of_not_isFinite {x : Binary64} (h : x.isFinite = false) :
    Rule.isIntegerText (float x).text = false := by
  have hmagnitude : ¬x.magnitude < Binary64.infinityWord := by simpa [Binary64.isFinite] using h
  rw [text]
  split
  · decide
  · rename_i hnumber
    have hinfinite : x.isInfinite = true := by
      rw [Binary64.isNaN, decide_eq_true_eq] at hnumber
      exact beq_iff_eq.mpr (by omega)
    rw [if_pos hinfinite]
    split <;> decide

theorem isBeyondWords_float_iff {x : Binary64} (h : x.isWhole = true) :
    (float x).IsBeyondWords ↔
      ¬(if x.isNegative then x.wholePart < 2 ^ 63 else x.wholePart < 2 ^ 64) := by
  rw [IsBeyondWords, Binary64.toInt?, if_pos h]
  cases x.isNegative with
  | true =>
      simp
      omega
  | false =>
      simp
      omega

theorem isIntegerText_float_iff (x : Binary64) :
    Rule.isIntegerText (float x).text = true ↔
      x.isWhole = true ∧ ¬(float x).IsBeyondWords := by
  cases hfinite : x.isFinite with
  | false =>
      have hwhole : x.isWhole = false := by rw [Binary64.isWhole, hfinite, Bool.false_and]
      rw [isIntegerText_text_of_not_isFinite hfinite, hwhole]
      simp
  | true =>
      rw [text_of_isFinite hfinite]
      cases hwhole : x.isWhole with
      | false => simp [Binary64.isIntegerText_plain_of_not_isWhole hfinite hwhole]
      | true =>
          rw [Binary64.isIntegerText_plain_of_isWhole hwhole, isBeyondWords_float_iff hwhole,
            not_not, and_iff_right rfl]

/-- The text of a number holds an integer, as 64 bits can hold it, exactly if the number is
whole and not beyond the words. -/
theorem isIntegerText_text_iff (n : Number) :
    Rule.isIntegerText n.text = true ↔ n.isWhole = true ∧ ¬n.IsBeyondWords := by
  cases n with
  | float x => exact isIntegerText_float_iff x
  | integer value =>
      exact iff_of_true (isIntegerText_text_of_toInt? rfl) ⟨rfl, not_false⟩
  | unsigned value =>
      exact iff_of_true (isIntegerText_text_of_toInt? rfl) ⟨rfl, not_false⟩

end Number

namespace Rule

/-- A number and its text are judged alike by the integer rule but for the whole
floating-point numbers that are too large for 64 bits: their digits are refused. -/
theorem integer_check_text_iff (o : Observation) (n : Number) :
    (integer.check { o with outcome := .found, value := some (.string n.text) } = true ↔
      integer.check { o with outcome := .found, value := some (.number n) } = true ∧
        ¬n.IsBeyondWords) ∧
    (n.IsBeyondWords ↔
      integer.check { o with outcome := .found, value := some (.number n) } = true ∧
        integer.check { o with outcome := .found, value := some (.string n.text) } = false) := by
  have hnumber : integer.check { o with outcome := .found, value := some (.number n) } =
      n.isWhole := integer_accepts_number _ n
  have htext : integer.check { o with outcome := .found, value := some (.string n.text) } =
      isIntegerText n.text := rfl
  have hiff := n.isIntegerText_text_iff
  rw [hnumber, htext]
  refine ⟨hiff, ?_⟩
  constructor
  · intro hbeyond
    exact ⟨n.isWhole_of_isBeyondWords hbeyond,
      Bool.eq_false_iff.mpr fun haccepted => (hiff.mp haccepted).2 hbeyond⟩
  · rintro ⟨hwhole, hrefused⟩
    by_contra hwithin
    exact Bool.false_ne_true (hrefused.symm.trans (hiff.mpr ⟨hwhole, hwithin⟩))

/-- `2 ^ 64` is whole as a number, and its text is no 64-bit integer. -/
theorem not_integer_check_text_iff :
    ∃ (o : Observation) (n : Number),
      n = .float (.ofNat 18446744073709551616) ∧ n.text = "18446744073709552000" ∧
      ¬(integer.check { o with outcome := .found, value := some (.number n) } = true ↔
        integer.check { o with outcome := .found, value := some (.string n.text) } = true) := by
  refine ⟨Hop.start.observe .found none (.array (some "a") (.element none)), _, rfl,
    by decide +kernel, ?_⟩
  decide +kernel

end Rule

end FieldPath
