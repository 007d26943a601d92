import FieldPath.Decimal.Numeral
import FieldPath.Value.Number
import Mathlib.Data.Nat.Init

/-!
# Decimal digits

The digits that an integer is written with read back as that integer. A zero stands in
front of other digits nowhere, which is what readers of numbers look for.
-/

namespace FieldPath

namespace Numeral

theorem digitsValue_toDigits (n : Nat) : digitsValue (Nat.toDigits 10 n) = n :=
  Nat.ofDigitChars_toDigits (by decide) (by decide)

theorem isDigit_of_mem_toDigits {n : Nat} : ∀ c ∈ Nat.toDigits 10 n, c.isDigit = true :=
  fun _ hc => Nat.isDigit_of_mem_toDigits (by decide) (by decide) hc

theorem head?_toDigits_ne_zero {n : Nat} (h : n ≠ 0) : (Nat.toDigits 10 n).head? ≠ some '0' := by
  induction n using Nat.strong_induction_on with
  | _ n ih =>
      have hsingle : ∀ d < 10, d ≠ 0 → some (Nat.digitChar d) ≠ some '0' := by decide
      by_cases hsmall : n < 10
      · rw [Nat.toDigits_of_lt_base hsmall]
        exact hsingle n hsmall h
      · have hfirst := ih (n / 10) (by omega) (by omega)
        obtain ⟨c, cs, hcs⟩ := List.exists_cons_of_ne_nil (Nat.toDigits_ne_nil (n := n / 10))
        rw [Nat.toDigits_eq_if (by decide), if_neg hsmall, hcs]
        rwa [hcs] at hfirst

/-- Digits that begin with a zero are that zero alone. -/
theorem length_toDigits_of_head? {n : Nat} (h : (Nat.toDigits 10 n).head? = some '0') :
    (Nat.toDigits 10 n).length = 1 := by
  cases n with
  | zero => rfl
  | succ n => exact absurd h (head?_toDigits_ne_zero n.succ_ne_zero)

/-- Digits have no sign before them. -/
theorem splitSign_of_isDigit {digits : List Char} (h : ∀ c ∈ digits, c.isDigit = true) :
    splitSign digits = (false, digits) := by
  unfold splitSign
  split
  · exact absurd (h '-' List.mem_cons_self) (by decide)
  · exact absurd (h '+' List.mem_cons_self) (by decide)
  · rfl

theorem splitSign_toDigits (n : Nat) :
    splitSign (Nat.toDigits 10 n) = (false, Nat.toDigits 10 n) :=
  splitSign_of_isDigit isDigit_of_mem_toDigits

end Numeral

namespace Number

theorem toList_intText (i : Int) :
    (intText i).toList = (if i < 0 then ['-'] else []) ++ Nat.toDigits 10 i.natAbs := by
  unfold intText
  split <;> simp

theorem splitSign_intText (i : Int) :
    Numeral.splitSign (intText i).toList = (decide (i < 0), Nat.toDigits 10 i.natAbs) := by
  rw [toList_intText]
  by_cases hneg : i < 0
  · rw [if_pos hneg, decide_eq_true hneg]
    rfl
  · rw [if_neg hneg, decide_eq_false hneg]
    exact Numeral.splitSign_toDigits _

/-- An integer begins with a minus sign or a digit, and so with no other character. -/
theorem exists_head_intText (i : Int) (rest : List Char) :
    ∃ c cs, (intText i).toList ++ rest = c :: cs ∧
      ∀ d, d ≠ '-' → d.isDigit = false → c ≠ d := by
  rw [toList_intText]
  by_cases hneg : i < 0
  · exact ⟨'-', _, by rw [if_pos hneg]; rfl, fun d hd _ => hd.symm⟩
  · obtain ⟨c, cs, hcs⟩ := List.exists_cons_of_ne_nil (Nat.toDigits_ne_nil (n := i.natAbs))
    have hc : c.isDigit = true := Numeral.isDigit_of_mem_toDigits c (hcs ▸ List.mem_cons_self)
    refine ⟨c, cs ++ rest, by rw [if_neg hneg, hcs]; rfl, fun d _ hd => ?_⟩
    rintro rfl
    exact Bool.false_ne_true (hd.symm.trans hc)

/-- Sign and magnitude make up the integer. -/
theorem eq_of_sign_natAbs (i : Int) :
    (if decide (i < 0) = true then -(i.natAbs : Int) else i.natAbs) = i := by
  by_cases hneg : i < 0
  · rw [if_pos (decide_eq_true hneg)]
    omega
  · rw [if_neg (by simpa using hneg)]
    omega

end Number

end FieldPath
