import FieldPath.Value.Basic
import Mathlib.Algebra.Group.Int.Defs
import Mathlib.Algebra.Group.Nat.Defs
import Mathlib.Tactic.SplitIfs

/-!
# Numbers in values

An integer that 64 bits can hold has one canonical form. So canonical integers are the
same number exactly if they stand for the same integer.
-/

namespace FieldPath

namespace Number

/-- The unsigned form is left to integers beyond the signed range. -/
def IsCanonical : Number → Prop
  | unsigned u => signedSize ≤ u.toNat
  | _ => True

theorem ofInt?_eq_some_iff {i : Int} {n : Number} :
    ofInt? i = some n ↔ n.IsCanonical ∧ n.toInt? = some i := by
  unfold ofInt?
  constructor
  · intro h
    split_ifs at h with hsigned hunsigned
    · cases h
      exact ⟨trivial, congrArg some (Int64.toInt_ofInt_of_le hsigned.1 hsigned.2)⟩
    · cases h
      have hlt : i.toNat < UInt64.size := by omega
      have hvalue : (UInt64.ofNat i.toNat).toNat = i.toNat := UInt64.toNat_ofNat_of_lt' hlt
      constructor
      · change signedSize ≤ (UInt64.ofNat i.toNat).toNat
        omega
      · change some ((UInt64.ofNat i.toNat).toNat : Int) = some i
        rw [hvalue, Int.toNat_of_nonneg (by omega)]
  · rintro ⟨hcanonical, hint⟩
    cases n with
    | integer value =>
        cases hint
        have hrange : -(signedSize : Int) ≤ value.toInt ∧ value.toInt < signedSize :=
          ⟨value.le_toInt, value.toInt_lt⟩
        rw [if_pos hrange, Int64.ofInt_toInt]
    | unsigned value =>
        cases hint
        have hlow : signedSize ≤ value.toNat := hcanonical
        have hhigh := value.toNat_lt_size
        rw [if_neg (by omega), if_pos (by omega), Int.toNat_natCast, UInt64.ofNat_toNat]
    | float value => cases hint

/-- The integers that 64 bits can hold, with a sign or without one. -/
theorem exists_ofInt?_eq_some {i : Int} (hlow : -2 ^ 63 ≤ i) (hhigh : i < 2 ^ 64) :
    ∃ n, ofInt? i = some n := by
  have hsigned : (signedSize : Int) = 2 ^ 63 := rfl
  have hunsigned : (UInt64.size : Int) = 2 ^ 64 := rfl
  unfold ofInt?
  split_ifs
  · exact ⟨_, rfl⟩
  · exact ⟨_, rfl⟩
  · omega

theorem isSome_ofInt?_iff {i : Int} : (ofInt? i).isSome = true ↔ -2 ^ 63 ≤ i ∧ i < 2 ^ 64 := by
  constructor
  · intro h
    have hsigned : (signedSize : Int) = 2 ^ 63 := rfl
    have hunsigned : (UInt64.size : Int) = 2 ^ 64 := rfl
    unfold ofInt? at h
    split_ifs at h
    · omega
    · omega
    · cases h
  · rintro ⟨hlow, hhigh⟩
    exact Option.isSome_iff_exists.mpr (exists_ofInt?_eq_some hlow hhigh)

theorem ofUInt64_isCanonical (u : UInt64) : (ofUInt64 u).IsCanonical := by
  unfold ofUInt64
  split
  · trivial
  · rename_i hlarge
    exact Nat.le_of_not_lt hlarge

theorem toInt?_ofUInt64 {i : Nat} (h : i < 2 ^ 64) :
    (ofUInt64 (.ofNat i)).toInt? = some (i : Int) := by
  have hword : (UInt64.ofNat i).toNat = i := UInt64.toNat_ofNat_of_lt' h
  have hsize : signedSize = 2 ^ 63 := rfl
  unfold ofUInt64
  rw [hword]
  split
  · exact congrArg some (Int64.toInt_ofNat_of_lt (by omega))
  · exact congrArg (fun n : Nat => some (n : Int)) hword

theorem isInteger_iff {n : Number} : n.isInteger = true ↔ ∃ i, n.toInt? = some i :=
  Option.isSome_iff_exists

theorem text_of_toInt? {n : Number} {i : Int} (h : n.toInt? = some i) : n.text = intText i := by
  cases n with
  | integer value =>
      cases h
      rfl
  | unsigned value =>
      cases h
      have hnonneg : ¬(value.toNat : Int) < 0 := by omega
      rw [intText, if_neg hnonneg, Int.natAbs_natCast]
      rfl
  | float value => cases h

theorem same_iff_eq {n m : Number} (h : n.isInteger = true) : n.same m = true ↔ n = m := by
  cases n with
  | integer a => cases m <;> simp [same]
  | unsigned a => cases m <;> simp [same]
  | float a => cases h

theorem same_iff_toInt?_eq {n m : Number} (hn : n.isInteger = true) (hcn : n.IsCanonical)
    (hcm : m.IsCanonical) : n.same m = true ↔ n.toInt? = m.toInt? := by
  rw [same_iff_eq hn]
  constructor
  · rintro rfl
    rfl
  · intro h
    obtain ⟨i, hi⟩ := isInteger_iff.mp hn
    have hofn : ofInt? i = some n := ofInt?_eq_some_iff.mpr ⟨hcn, hi⟩
    have hofm : ofInt? i = some m := ofInt?_eq_some_iff.mpr ⟨hcm, h ▸ hi⟩
    exact Option.some.inj (hofn.symm.trans hofm)

end Number

namespace Value

mutual

def numbers : Value → List Number
  | number n => [n]
  | sequence items => numbersOfItems items
  | mapping entries => numbersOfEntries entries
  | _ => []

def numbersOfItems : List Value → List Number
  | [] => []
  | v :: rest => numbers v ++ numbersOfItems rest

def numbersOfEntries : List (String × Value) → List Number
  | [] => []
  | (_, v) :: rest => numbers v ++ numbersOfEntries rest

end

theorem numbers_sequence (items : List Value) :
    (sequence items).numbers = items.flatMap numbers := by
  rw [numbers]
  induction items with
  | nil => rfl
  | cons v rest ih => rw [numbersOfItems, ih, List.flatMap_cons]

theorem numbers_mapping (entries : List (String × Value)) :
    (mapping entries).numbers = entries.flatMap fun e => e.2.numbers := by
  rw [numbers]
  induction entries with
  | nil => rfl
  | cons entry rest ih => rw [numbersOfEntries, ih, List.flatMap_cons]

end Value

end FieldPath
