import FieldPath.Proofs.Json.Scalar

/-!
# Characters of JSON texts

Compact JSON holds no control characters, whatever is in the value: strings have theirs
escaped, and everything else is printed in a few characters above them.
-/

namespace FieldPath

/-- There is no control character, and so neither a tab nor a line feed. -/
def NoControls (cs : List Char) : Prop := ∀ c ∈ cs, 0x20 ≤ c.toNat

instance (cs : List Char) : Decidable (NoControls cs) :=
  List.decidableBAll (fun c : Char => 0x20 ≤ c.toNat) cs

namespace NoControls

variable {cs ds : List Char}

theorem nil : NoControls [] := List.forall_mem_nil _

theorem append_iff : NoControls (cs ++ ds) ↔ NoControls cs ∧ NoControls ds :=
  List.forall_mem_append

theorem append (hc : NoControls cs) (hd : NoControls ds) : NoControls (cs ++ ds) :=
  append_iff.mpr ⟨hc, hd⟩

theorem cons {c : Char} (hc : 0x20 ≤ c.toNat) (hd : NoControls ds) : NoControls (c :: ds) :=
  List.forall_mem_cons.mpr ⟨hc, hd⟩

theorem of_subset (h : NoControls cs) (hsub : ds ⊆ cs) : NoControls ds :=
  fun c hc => h c (hsub hc)

theorem newline_notMem (h : NoControls cs) : '\n' ∉ cs := fun hmem => absurd (h _ hmem) (by decide)

end NoControls

/-! ## Numbers -/

theorem noControls_toDigits (n : Nat) : NoControls (Nat.toDigits 10 n) := by
  intro c hc
  have hdigit := Char.isDigit_iff_toNat.mp (Numeral.isDigit_of_mem_toDigits c hc)
  exact Nat.le_trans (by decide) hdigit.1

theorem noControls_repr (n : Nat) : NoControls (Nat.repr n).toList := by
  rw [Nat.repr, String.toList_ofList]
  exact noControls_toDigits n

theorem Number.noControls_intText (i : Int) : NoControls (intText i).toList := by
  rw [toList_intText]
  refine .append ?_ (noControls_toDigits _)
  split
  · exact .cons (by decide) .nil
  · exact .nil

namespace Layout

theorem noControls_zeros (n : Nat) : NoControls (zeros n).toList := by
  rw [zeros, String.toList_ofList]
  intro c hc
  rw [(List.mem_replicate.mp hc).2]
  decide

theorem noControls_positionalText {wholeMark : String} {digits : List Char}
    (hmark : NoControls wholeMark.toList) (hdigits : NoControls digits) (shift : Int) :
    NoControls (positionalText wholeMark digits shift).toList := by
  unfold positionalText
  dsimp only
  split_ifs
  · simp only [String.toList_append, String.toList_ofList]
    exact .append (.append (by decide) (noControls_zeros _)) hdigits
  · simp only [String.toList_append, String.toList_ofList]
    exact .append (.append hdigits (noControls_zeros _)) hmark
  · simp only [String.toList_append, String.toList_ofList]
    exact .append (.append (hdigits.of_subset (List.take_subset _ _)) (by decide))
      (hdigits.of_subset (List.drop_subset _ _))

theorem noControls_scientificText {digits : List Char} (hdigits : NoControls digits)
    (shift : Int) : NoControls (scientificText digits shift).toList := by
  have hpoint (b : Bool) : NoControls (if b then "" else ".").toList := by
    cases b <;> decide
  have hsign : NoControls (if shift < 0 then "-" else "+").toList := by
    split <;> decide
  simp only [scientificText, String.toList_append, String.toList_ofList]
  refine .append (.append (.append (.append (.append ?_ (hpoint _)) ?_) (by decide)) hsign)
    (noControls_repr _)
  · exact hdigits.of_subset (List.take_subset _ _)
  · exact hdigits.of_subset (List.drop_subset _ _)

theorem noControls_text {layout : Layout} (hmark : NoControls layout.wholeMark.toList)
    (x : Binary64) : NoControls (layout.text x).toList := by
  have hsign : NoControls (if x.isNegative then "-" else "").toList := by
    cases x.isNegative <;> decide
  have hdigits := noControls_toDigits (x.shortest layout.tie).coefficient
  simp only [text, String.toList_append]
  refine .append hsign ?_
  split
  · exact noControls_positionalText hmark hdigits _
  · exact noControls_scientificText hdigits _

end Layout

namespace Json

theorem noControls_numberText (n : Number) : NoControls (numberText n).toList := by
  cases n with
  | integer value => exact Number.noControls_intText _
  | unsigned value => exact noControls_repr _
  | float value =>
      rw [numberText]
      split
      · exact Layout.noControls_text (by decide) value
      · decide

/-! ## Strings and containers -/

theorem noControls_escapedControl {c : Char} (h : c < ' ') : NoControls (escapedControl c) := by
  have hdigit : ∀ d < 16, 0x20 ≤ (Nat.digitChar d).toNat := by decide
  have hc : c.toNat < 0x20 := h
  refine .append (by decide : NoControls ['\\', 'u', '0', '0']) ?_
  exact .cons (hdigit _ (by omega)) (.cons (hdigit _ (by omega)) .nil)

theorem noControls_escape (c : Char) : NoControls (escape c) := by
  rcases escape_cases c with ⟨letter, hletter, hlow, -⟩ | ⟨hnumber, hcontrol⟩ | ⟨hplain, -, -,
    hcontrol⟩
  · rw [hletter]
    exact .cons (by decide) (.cons hlow .nil)
  · rw [hnumber]
    exact noControls_escapedControl hcontrol
  · rw [hplain]
    exact .cons (Nat.le_of_not_lt hcontrol) .nil

variable {rest : List Char}

theorem noControls_writeString (text : String) (h : NoControls rest) :
    NoControls (writeString text rest) := by
  have hbody : NoControls (writeStringBody text.toList rest) := by
    induction text.toList with
    | nil => exact .cons (by decide) h
    | cons c cs ih => exact .append (noControls_escape c) ih
  exact .cons (by decide) hbody

mutual

theorem noControls_write : ∀ (v : Value) {rest : List Char}, NoControls rest →
    NoControls (write v rest)
  | .null, _, h => .append (by decide) h
  | .bool true, _, h => .append (by decide) h
  | .bool false, _, h => .append (by decide) h
  | .number n, _, h => .append (noControls_numberText n) h
  | .string text, _, h => noControls_writeString text h
  | .sequence [], _, h => .append (by decide : NoControls ['[', ']']) h
  | .sequence (v :: vs), _, h => .cons (by decide) (noControls_write v (noControls_writeItems vs h))
  | .mapping [], _, h => .append (by decide : NoControls ['\x7b', '\x7d']) h
  | .mapping ((key, v) :: es), _, h =>
      .cons (by decide) (noControls_writeString key
        (.cons (by decide) (noControls_write v (noControls_writeEntries es h))))

theorem noControls_writeItems : ∀ (vs : List Value) {rest : List Char}, NoControls rest →
    NoControls (writeItems vs rest)
  | [], _, h => .cons (by decide) h
  | v :: vs, _, h => .cons (by decide) (noControls_write v (noControls_writeItems vs h))

theorem noControls_writeEntries : ∀ (es : List (String × Value)) {rest : List Char},
    NoControls rest → NoControls (writeEntries es rest)
  | [], _, h => .cons (by decide) h
  | (key, v) :: es, _, h =>
      .cons (by decide) (noControls_writeString key
        (.cons (by decide) (noControls_write v (noControls_writeEntries es h))))

end

end Json

theorem Value.noControls_text (v : Value) : NoControls v.text.toList := by
  rw [text, String.toList_ofList]
  exact Json.noControls_write v .nil

end FieldPath
