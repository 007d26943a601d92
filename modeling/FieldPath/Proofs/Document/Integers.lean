import FieldPath.Proofs.Document.Loaded
import FieldPath.Proofs.Json.RoundTrip
import FieldPath.Proofs.Yaml.Word
import Mathlib.Data.Nat.Digits.Defs

/-!
# Integers in documents

Every number of a document is in its one form, so two integers are the same number exactly
if they are the same integer. All integers that 64 bits can hold are read from their
decimal text, in either format.
-/

namespace FieldPath

theorem Value.Loaded.isCanonical {v : Value} (h : v.Loaded) : ∀ n ∈ v.numbers, n.IsCanonical := by
  induction h with
  | @scalar v h =>
      cases v with
      | number n => exact List.forall_mem_singleton.mpr h
      | sequence items => cases h
      | mapping entries => cases h
      | _ => exact List.forall_mem_nil _
  | @sequence items _ ih =>
      intro n hn
      rw [numbers_sequence] at hn
      obtain ⟨v, hv, hn⟩ := List.mem_flatMap.mp hn
      exact ih v hv n hn
  | @ofEntries pairs _ ih =>
      intro n hn
      obtain ⟨entries, heq, hfrom⟩ := exists_ofEntries_eq pairs
      rw [heq, numbers_mapping] at hn
      obtain ⟨entry, hentry, hn⟩ := List.mem_flatMap.mp hn
      exact ih entry (hfrom entry hentry) n hn

/-! ## Decimal texts in YAML -/

namespace Yaml

theorem natural?_ten {digits : List Char} (hne : digits ≠ [])
    (hdigits : ∀ c ∈ digits, c.isDigit = true) :
    natural? 10 digits = some (Numeral.digitsValue digits) := by
  rw [natural?, if_neg (by simpa using hne), Numeral.digitsValue]
  clear hne
  generalize 0 = n
  induction digits generalizing n with
  | nil => rfl
  | cons c cs ih =>
      obtain ⟨hc, hcs⟩ := List.forall_mem_cons.mp hdigits
      have hdigit : c.toNat - '0'.toNat < 10 := by
        have hhigh : c.toNat ≤ 57 := (Char.isDigit_iff_toNat.mp hc).2
        have hzero : '0'.toNat = 48 := rfl
        omega
      have hstep : (Text.hexDigit? c).bind (fun d => if d < 10 then some (10 * n + d) else none) =
          some (10 * n + (c.toNat - '0'.toNat)) := by
        rw [Text.hexDigit?, if_pos hc, Option.bind_some, if_pos hdigit]
      rw [List.foldlM_cons, List.foldl_cons, ← ih hcs]
      exact congrArg (Option.bind · _) hstep

/-- Decimal digits have no base in front. -/
theorem magnitude?_of_isDigit {digits : List Char} (hne : digits ≠ [])
    (hdigits : ∀ c ∈ digits, c.isDigit = true) :
    magnitude? digits = some (Numeral.digitsValue digits) := by
  have hletter {d : Char} {rest : List Char} (hd : d.isDigit = false) :
      digits ≠ '0' :: d :: rest := by
    rintro rfl
    exact Bool.false_ne_true (hd.symm.trans (hdigits d (by simp)))
  unfold magnitude?
  split
  · exact absurd rfl (hletter rfl)
  · exact absurd rfl (hletter rfl)
  · exact absurd rfl (hletter rfl)
  · exact natural?_ten hne hdigits

theorem isZeroLed_intText (i : Int) : isZeroLed (Number.intText i).toList = false := by
  rw [isZeroLed, Number.splitSign_intText]
  by_cases hhead : (Nat.toDigits 10 i.natAbs).head? = some '0'
  · simp [Numeral.length_toDigits_of_head? hhead]
  · simp [hhead]

theorem integer?_intText (i : Int) : integer? (Number.intText i).toList = some i := by
  rw [integer?, isZeroLed_intText, Number.splitSign_intText, if_neg Bool.false_ne_true]
  dsimp only
  rw [magnitude?_of_isDigit Nat.toDigits_ne_nil Numeral.isDigit_of_mem_toDigits,
    Numeral.digitsValue_toDigits]
  exact congrArg some (Number.eq_of_sign_natAbs i)

theorem plainValue?_intText {i : Int} {n : Number} (h : Number.ofInt? i = some n) :
    plainValue? (Number.intText i).toList = some (.number n) := by
  have hform : integerForm (Number.intText i).toList = .number n := by
    simp only [integerForm, integer?_intText, h]
  obtain ⟨c, cs, hcs, hc⟩ := Number.exists_head_intText i []
  rw [List.append_nil] at hcs
  have hother (d : Char) (hd : d ≠ '-' ∧ d.isDigit = false) : c ≠ d := hc d hd.1 hd.2
  have hnull : isNullText (Number.intText i).toList = false := by
    simp [isNullText, hcs, hother]
  have hbool : bool? (Number.intText i).toList = none := by
    simp [bool?, hcs, hother]
  have hempty : (Number.intText i).toList.isEmpty = false := by simp [hcs]
  rw [plainValue?, hempty, hnull, hbool, hform]
  rfl

theorem isWord_intText (i : Int) : IsWord (Number.intText i).toList := by
  have halphanum {c : Char} (hc : c ∈ Nat.toDigits 10 i.natAbs) : c.isAlphanum = true := by
    simp [Char.isAlphanum, Numeral.isDigit_of_mem_toDigits c hc]
  obtain ⟨c, cs, hcs⟩ := List.exists_cons_of_ne_nil (Nat.toDigits_ne_nil (n := i.natAbs))
  rw [hcs] at halphanum
  rw [Number.toList_intText, hcs]
  have hfirst := halphanum List.mem_cons_self
  have hothers : ∀ d ∈ cs, d.isAlphanum = true := fun d hd =>
    halphanum (List.mem_cons_of_mem _ hd)
  by_cases hneg : i < 0
  · rw [if_pos hneg]
    exact .negative hfirst hothers
  · rw [if_neg hneg]
    exact .bare hfirst hothers

/-- What 64 bits can hold takes at most twenty digits. -/
theorem length_intText_le {i : Int} {n : Number} (h : Number.ofInt? i = some n) :
    (Number.intText i).toList.length ≤ 1024 := by
  have hsmall : i.natAbs < 10 ^ 20 := by
    have hsigned : Number.signedSize = 2 ^ 63 := rfl
    have hunsigned : UInt64.size = 2 ^ 64 := rfl
    unfold Number.ofInt? at h
    split_ifs at h <;> omega
  have hdigits := Nat.toDigits_length 10 i.natAbs 20 (by decide) hsmall
  rw [Number.toList_intText, List.length_append]
  split
  · rw [List.length_singleton]
    omega
  · rw [List.length_nil]
    omega

theorem read_intText {i : Int} {n : Number} (h : Number.ofInt? i = some n) :
    Yaml.read (Number.intText i) = .ok (.number n) := by
  have hread := (isWord_intText i).read_eq (length_intText_le h)
  rwa [String.ofList_toList, plainValue?_intText h] at hread

end Yaml

/-! ## Both formats -/

theorem Json.read?_intText {i : Int} {n : Number} (h : Number.ofInt? i = some n) :
    Json.read? (Number.intText i) = some (.number n) := by
  have hexact : (Value.number n).IsExact depthLimit := Value.isExact_number h
  obtain ⟨j, hj, htext⟩ := hexact.exists_ofInt?
  have hi := (Number.ofInt?_eq_some_iff.mp h).2
  have hij : i = j := Option.some.inj (hi.symm.trans (Number.ofInt?_eq_some_iff.mp hj).2)
  have hread := Json.read?_text hexact
  rwa [Value.text, write_number, htext, List.append_nil, String.ofList_toList, ← hij] at hread

namespace Document

theorem ofText_intText {i : Int} {n : Number} (h : Number.ofInt? i = some n) (format : Format) :
    ofText (Number.intText i) format = .ok (.number n) := by
  have hjson := Json.read?_intText h
  cases format with
  | json => rw [ofText, hjson]
  | yaml =>
      rw [ofText, Yaml.read_intText h]
      rfl
  | auto => rw [ofText, hjson]

end Document

def Number.IsLoaded (n : Number) : Prop :=
  ∃ text format v, Document.ofText text format = .ok v ∧ n ∈ v.numbers

theorem Number.IsLoaded.isCanonical {n : Number} (h : n.IsLoaded) : n.IsCanonical := by
  obtain ⟨text, format, v, hv, hn⟩ := h
  exact (Document.loaded_of_ofText hv).isCanonical n hn

namespace Document

/-- Numbers of documents are canonical, and integers are kept exactly: two of them are the
same only as the same integer, and any that 64 bits can hold is read from its text. -/
theorem integers_exact :
    (∀ n : Number, n.IsLoaded → n.IsCanonical) ∧
    (∀ n m : Number, n.IsLoaded → m.IsLoaded → n.isInteger = true → m.isInteger = true →
      ((Value.number n).same (.number m) = true ↔ n.toInt? = m.toInt?)) ∧
    ∀ (i : Int) (format : Format), -2 ^ 63 ≤ i → i < 2 ^ 64 →
      ∃ n, ofText (Number.intText i) format = .ok (.number n) ∧ n.toInt? = some i ∧
        n.text = Number.intText i := by
  refine ⟨fun n hn => hn.isCanonical, ?_, ?_⟩
  · intro n m hn hm hinteger _
    rw [Value.same]
    exact Number.same_iff_toInt?_eq hinteger hn.isCanonical hm.isCanonical
  · intro i format hlow hhigh
    obtain ⟨n, hn⟩ := Number.exists_ofInt?_eq_some hlow hhigh
    have hint := (Number.ofInt?_eq_some_iff.mp hn).2
    exact ⟨n, ofText_intText hn format, hint, Number.text_of_toInt? hint⟩

/-- The integers on both sides of the signed boundary, in a sequence and alone. -/
theorem integers_exact_boundary :
    ∃ n m : Number, n = .integer 9223372036854775807 ∧ m = .unsigned 9223372036854775808 ∧
      n.IsLoaded ∧ m.IsLoaded ∧ n.IsCanonical ∧ m.IsCanonical ∧
      ((Value.number n).same (.number m) = true ↔ n.toInt? = m.toInt?) ∧
      ∃ k, ofText (Number.intText 9223372036854775808) .yaml = .ok (.number k) ∧
        k.toInt? = some 9223372036854775808 ∧
        k.text = Number.intText 9223372036854775808 := by
  have hexact : (Value.sequence [.number (.integer 9223372036854775807)]).IsExact 127 := by
    refine ⟨.sequence (List.forall_mem_singleton.mpr (.scalar rfl)), ?_, by decide⟩
    exact List.forall_mem_singleton.mpr ⟨rfl, trivial⟩
  have hn : (Number.integer 9223372036854775807).IsLoaded := by
    refine ⟨"[9223372036854775807]", .json,
      .sequence [.number (.integer 9223372036854775807)], ?_, List.mem_singleton_self _⟩
    have htext : "[9223372036854775807]" =
        (Value.sequence [.number (.integer 9223372036854775807)]).text := by decide +kernel
    rw [htext, ofText, Json.read?_text hexact]
  have hm : (Number.unsigned 9223372036854775808).IsLoaded :=
    ⟨_, .yaml, _, ofText_intText (i := 9223372036854775808) rfl _, List.mem_singleton_self _⟩
  exact ⟨_, _, rfl, rfl, hn, hm, integers_exact.1 _ hn, integers_exact.1 _ hm,
    integers_exact.2.1 _ _ hn hm rfl rfl, integers_exact.2.2 _ .yaml (by decide) (by decide)⟩

end Document

end FieldPath
