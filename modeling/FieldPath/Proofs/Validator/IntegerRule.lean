import FieldPath.Proofs.Decimal.Nearest
import FieldPath.Proofs.Validator.Verdict
import FieldPath.Proofs.Value.Numbers
import Mathlib.Data.List.TakeWhile

/-!
# The integer rule

Whatever the integer rule accepts the numeric rule accepts too, so a field that asks for
both has an integer violation beside each numeric one.
-/

namespace FieldPath

/-! ## Integers in texts -/

namespace Rule

/-- An integer is digits after an optional sign. -/
theorem exists_of_integer? {text : List Char} {i : Int} (h : integer? text = some i) :
    ∃ negative digits, Numeral.splitSign text = (negative, digits) ∧ digits ≠ [] ∧
      (∀ c ∈ digits, c.isDigit = true) ∧
      i = if negative then -(Numeral.digitsValue digits : Int) else Numeral.digitsValue digits := by
  unfold integer? at h
  split at h
  rename_i negative digits hsplit
  by_cases hrefused : (digits.isEmpty || !digits.all Char.isDigit) = true
  · rw [if_pos hrefused] at h
    cases h
  rw [if_neg hrefused] at h
  have hdigits : digits ≠ [] ∧ ∀ c ∈ digits, c.isDigit = true := by simpa using hrefused
  exact ⟨negative, digits, hsplit, hdigits.1, hdigits.2, (Option.some.inj h).symm⟩

end Rule

/-- Digits after an optional sign make a numeral without point and exponent. -/
theorem Numeral.read?_of_isDigit {text digits : List Char} {negative : Bool}
    (hsplit : splitSign text = (negative, digits)) (hne : digits ≠ [])
    (hdigits : ∀ c ∈ digits, c.isDigit = true) :
    read? text = some (.decimal negative ⟨digitsValue digits, 0⟩) := by
  have hwhole : digits.takeWhile Char.isDigit = digits := List.takeWhile_eq_self_iff.mpr hdigits
  have hrest : digits.dropWhile Char.isDigit = [] := List.dropWhile_eq_nil_iff.mpr hdigits
  have hdecimal : decimal? digits = some ⟨digitsValue digits, 0⟩ := by
    simp [decimal?, hwhole, hrest, splitFraction, exponent?, hne]
  simp only [read?, hsplit, hdecimal]

namespace Rule

/-- A text for an integer that 64 bits can hold is a numeral for a finite number. -/
theorem exists_finite_of_integer? {text : List Char} {i : Int} (h : integer? text = some i)
    (hlow : -2 ^ 63 ≤ i) (hhigh : i < 2 ^ 64) :
    ∃ n, Numeral.read? text = some n ∧ n.toBinary64.isFinite = true := by
  obtain ⟨negative, digits, hsplit, hne, hdigits, hvalue⟩ := exists_of_integer? h
  refine ⟨_, Numeral.read?_of_isDigit hsplit hne hdigits, Decimal.isFinite_toBinary64 ?_ _⟩
  split at hvalue <;> omega

theorem isIntegerText_iff {text : String} :
    isIntegerText text = true ↔
      ∃ i, integer? (Text.trim text.toList) = some i ∧ -2 ^ 63 ≤ i ∧ i < 2 ^ 64 := by
  unfold isIntegerText
  cases integer? (Text.trim text.toList) with
  | none => simp
  | some i => simp [Number.isSome_ofInt?_iff]

theorem isNumericText_of_isIntegerText {text : String} (h : isIntegerText text = true) :
    isNumericText text = true := by
  obtain ⟨i, hi, hlow, hhigh⟩ := isIntegerText_iff.mp h
  obtain ⟨n, hread, hfinite⟩ := exists_finite_of_integer? hi hlow hhigh
  rw [isNumericText, hread]
  exact hfinite

/-! ## The integer rule beside the numeric one -/

theorem numeric_accepts_of_integer {o : Observation} {v : Value}
    (h : integer.accepts o v = true) : numeric.accepts o v = true := by
  rcases integer_accepts_iff.mp h with rfl | hdescribes
  · rfl
  · cases hdescribes with
    | whole h => rfl
    | wholeNumeral h => exact isNumericText_of_isIntegerText h

theorem numeric_check_of_integer {o : Observation} (h : integer.check o = true) :
    numeric.check o = true := by
  unfold check at h ⊢
  split
  · rename_i v houtcome hvalue
    rw [houtcome, hvalue] at h
    exact numeric_accepts_of_integer h
  · rfl

end Rule

/-- A field that asks for an integer reports an integer violation beside each numeric one. -/
theorem FieldRules.integer_violation_of_numeric {f : FieldRules} (hf : Rule.integer ∈ f.rules)
    {d : Value} {v : Violation}
    (hbuiltIn : ∀ rule ∈ f.rules, rule.IsBuiltIn) (h : v ∈ f.validate d)
    (hv : v.rule = Rule.numeric.name) :
    { v with rule := Rule.integer.name } ∈ f.validate d := by
  obtain ⟨o, ho, hmem⟩ := List.mem_flatMap.mp h
  obtain ⟨rule, hrule, rfl⟩ := List.mem_map.mp hmem
  obtain ⟨hdeclared, hfails⟩ := List.mem_filter.mp hrule
  obtain rfl : rule = .numeric := by
    rcases (hbuiltIn rule hdeclared).cases with rfl | rfl | rfl | rfl
    · simp [violation, Rule.name] at hv
    · simp [violation, Rule.name] at hv
    · rfl
    · simp [violation, Rule.name] at hv
  have hinteger : (!Rule.integer.check o) = true := by
    rw [Bool.not_eq_true'] at hfails ⊢
    exact Bool.eq_false_iff.mpr fun hpass =>
      Bool.false_ne_true (hfails.symm.trans (Rule.numeric_check_of_integer hpass))
  refine List.mem_flatMap.mpr ⟨o, ho, List.mem_map.mpr ⟨.integer, ?_, rfl⟩⟩
  exact List.mem_filter.mpr ⟨hf, hinteger⟩

namespace Rule

/-- The integer rule accepts nothing that the numeric rule refuses: no observation, and no
text. So of a field that asks for both, no numeric violation stands alone. -/
theorem numeric_weaker_than_integer :
    (∀ o : Observation, integer.check o = true → numeric.check o = true) ∧
    (∀ (text : String) (i : Int), integer? (Text.trim text.toList) = some i →
      -2 ^ 63 ≤ i → i < 2 ^ 64 →
        ∃ n, Numeral.read? (Text.trim text.toList) = some n ∧ n.toBinary64.isFinite = true) ∧
    ∀ (p : Path) (d : Value),
      ∀ v ∈ (Validator.empty.withPath p [integer, numeric]).validate d, v.rule = "numeric" →
        { v with rule := "integer" } ∈
          (Validator.empty.withPath p [integer, numeric]).validate d := by
  refine ⟨fun _ => numeric_check_of_integer, fun _ _ => exists_finite_of_integer?, ?_⟩
  intro p d
  rw [FieldRules.validate_withPath]
  have hbuiltIn : ∀ rule ∈ [integer, numeric], rule.IsBuiltIn :=
    List.forall_mem_cons.mpr ⟨⟨"integer", rfl⟩, List.forall_mem_singleton.mpr ⟨"numeric", rfl⟩⟩
  exact fun v => FieldRules.integer_violation_of_numeric List.mem_cons_self hbuiltIn

/-- The largest integer with blanks, a sign and zeros before it; and of four elements the last
two are no numbers. -/
theorem numeric_weaker_than_integer_largest :
    ∃ text o p d v, text = "\u00a0+00018446744073709551615\t" ∧
      o = (Hop.start.observe .found (some (.string text)) p : Observation) ∧
      integer.check o = true ∧ numeric.check o = true ∧
      integer? (Text.trim text.toList) = some 18446744073709551615 ∧
      (∃ n, Numeral.read? (Text.trim text.toList) = some n ∧ n.toBinary64.isFinite = true) ∧
      p = .array (some "a") (.element none) ∧
      d = .mapping [("a", .sequence [.string text, .string "1.5", .bool true, .string "-"])] ∧
      v = (⟨"a[]", "a[2]", "numeric", .found⟩ : Violation) ∧
      v ∈ (Validator.empty.withPath p [integer, numeric]).validate d ∧
      ⟨"a[]", "a[2]", "integer", .found⟩ ∈
        (Validator.empty.withPath p [integer, numeric]).validate d := by
  have hcheck : integer.check (Hop.start.observe .found
      (some (.string "\u00a0+00018446744073709551615\t"))
      (.array (some "a") (.element none))) = true := by decide +kernel
  have hint : integer? (Text.trim "\u00a0+00018446744073709551615\t".toList) =
      some 18446744073709551615 := by decide +kernel
  have hmem : (⟨"a[]", "a[2]", "numeric", .found⟩ : Violation) ∈
      (Validator.empty.withPath (.array (some "a") (.element none)) [integer, numeric]).validate
        (.mapping [("a", .sequence [.string "\u00a0+00018446744073709551615\t", .string "1.5",
          .bool true, .string "-"])]) := by decide +kernel
  exact ⟨_, _, _, _, _, rfl, rfl, hcheck, numeric_weaker_than_integer.1 _ hcheck, hint,
    numeric_weaker_than_integer.2.1 _ _ hint (by decide) (by decide), rfl, rfl, rfl, hmem,
    numeric_weaker_than_integer.2.2 _ _ _ hmem rfl⟩

end Rule

end FieldPath
