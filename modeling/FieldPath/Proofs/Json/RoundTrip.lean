import FieldPath.Document
import FieldPath.Proofs.Json.Scalar
import FieldPath.Proofs.Value.Keys

/-!
# Values read back from their JSON text

The compact text of a value loses nothing of a value without floats: reading it gives
the value again, with the entries of its mappings in their order. So the text tells such
values apart.
-/

namespace FieldPath

namespace Value

mutual

def nesting : Value → Nat
  | sequence items => nestingOfItems items + 1
  | mapping entries => nestingOfEntries entries + 1
  | _ => 0

def nestingOfItems : List Value → Nat
  | [] => 0
  | v :: rest => max (nesting v) (nestingOfItems rest)

def nestingOfEntries : List (String × Value) → Nat
  | [] => 0
  | (_, v) :: rest => max (nesting v) (nestingOfEntries rest)

end

theorem nesting_sequence_le_iff {items : List Value} {depth : Nat} :
    (sequence items).nesting ≤ depth + 1 ↔ ∀ v ∈ items, v.nesting ≤ depth := by
  rw [nesting, Nat.add_le_add_iff_right]
  induction items with
  | nil => simp [nestingOfItems]
  | cons v rest ih => rw [nestingOfItems, Nat.max_le, ih, List.forall_mem_cons]

theorem nesting_mapping_le_iff {entries : List (String × Value)} {depth : Nat} :
    (mapping entries).nesting ≤ depth + 1 ↔ ∀ e ∈ entries, e.2.nesting ≤ depth := by
  rw [nesting, Nat.add_le_add_iff_right]
  induction entries with
  | nil => simp [nestingOfEntries]
  | cons entry rest ih => rw [nestingOfEntries, Nat.max_le, ih, List.forall_mem_cons]

/-- A value that its text holds in full: mappings have distinct keys, numbers are
canonical integers, and containers nest at most `depth` deep. -/
structure IsExact (depth : Nat) (v : Value) : Prop where
  keys : v.KeysDistinct
  integers : ∀ n ∈ v.numbers, n.isInteger = true ∧ n.IsCanonical
  nesting : v.nesting ≤ depth

namespace IsExact

variable {depth : Nat}

theorem of_mem_sequence {items : List Value} (h : (sequence items).IsExact (depth + 1)) :
    ∀ v ∈ items, v.IsExact depth := by
  obtain ⟨hkeys, hintegers, hnesting⟩ := h
  intro v hv
  refine ⟨?_, fun n hn => hintegers n ?_, nesting_sequence_le_iff.mp hnesting v hv⟩
  · cases hkeys with
    | scalar h => cases h
    | sequence elements => exact elements v hv
  · rw [numbers_sequence]
    exact List.mem_flatMap.mpr ⟨v, hv, hn⟩

theorem of_mem_mapping {entries : List (String × Value)}
    (h : (mapping entries).IsExact (depth + 1)) : ∀ e ∈ entries, e.2.IsExact depth := by
  obtain ⟨hkeys, hintegers, hnesting⟩ := h
  intro e he
  refine ⟨?_, fun n hn => hintegers n ?_, nesting_mapping_le_iff.mp hnesting e he⟩
  · cases hkeys with
    | scalar h => cases h
    | mapping keys values => exact values e he
  · rw [numbers_mapping]
    exact List.mem_flatMap.mpr ⟨e, he, hn⟩

theorem ofEntries_eq {entries : List (String × Value)} (h : (mapping entries).IsExact depth) :
    ofEntries entries = mapping entries := by
  cases h.keys with
  | scalar h => cases h
  | mapping keys values => exact ofEntries_of_nodup keys

/-- The number stands for an integer, which its text spells. -/
theorem exists_ofInt? {n : Number} (h : (number n).IsExact depth) :
    ∃ i, Number.ofInt? i = some n ∧ Json.numberText n = Number.intText i := by
  obtain ⟨hinteger, hcanonical⟩ := h.integers n (List.mem_singleton_self n)
  obtain ⟨i, hi⟩ := Number.isInteger_iff.mp hinteger
  refine ⟨i, Number.ofInt?_eq_some_iff.mpr ⟨hcanonical, hi⟩, ?_⟩
  rw [← Number.text_of_toInt? hi]
  cases n with
  | float x => cases hi
  | _ => rfl

end IsExact

theorem isExact_null {depth : Nat} : null.IsExact depth :=
  ⟨.scalar rfl, by simp [numbers], Nat.zero_le _⟩

theorem isExact_string {depth : Nat} (text : String) : (string text).IsExact depth :=
  ⟨.scalar rfl, by simp [numbers], Nat.zero_le _⟩

theorem isExact_number {i : Int} {n : Number} (h : Number.ofInt? i = some n) {depth : Nat} :
    (number n).IsExact depth := by
  obtain ⟨hcanonical, hint⟩ := Number.ofInt?_eq_some_iff.mp h
  have hinteger : n.isInteger = true := Number.isInteger_iff.mpr ⟨i, hint⟩
  exact ⟨.scalar rfl, List.forall_mem_singleton.mpr ⟨hinteger, hcanonical⟩, Nat.zero_le _⟩

theorem isExact_mapping {depth : Nat} {entries : List (String × Value)}
    (keys : (entries.map Prod.fst).Nodup) (values : ∀ e ∈ entries, e.2.IsExact depth) :
    (mapping entries).IsExact (depth + 1) where
  keys := .mapping keys fun e he => (values e he).keys
  integers := by
    intro n hn
    rw [numbers_mapping] at hn
    obtain ⟨e, he, hmem⟩ := List.mem_flatMap.mp hn
    exact (values e he).integers n hmem
  nesting := nesting_mapping_le_iff.mpr fun e he => (values e he).nesting

end Value

namespace Json

/-! ## Writers leave the text that follows as it is -/

theorem suffix_writeString (text : String) (rest : List Char) : rest <:+ writeString text rest := by
  have hbody : rest <:+ writeStringBody text.toList rest := by
    induction text.toList with
    | nil => exact List.suffix_cons _ _
    | cons c cs ih => exact ih.trans (List.suffix_append _ _)
  exact hbody.trans (List.suffix_cons _ _)

theorem suffix_writeKey (key : String) (rest : List Char) :
    rest <:+ writeString key (':' :: rest) :=
  (List.suffix_cons _ _).trans (suffix_writeString key _)

mutual

theorem suffix_write : ∀ (v : Value) (rest : List Char), rest <:+ write v rest
  | .null, _ => List.suffix_append _ _
  | .bool true, _ => List.suffix_append _ _
  | .bool false, _ => List.suffix_append _ _
  | .number _, _ => List.suffix_append _ _
  | .string text, rest => suffix_writeString text rest
  | .sequence [], rest => List.suffix_append ['[', ']'] rest
  | .sequence (v :: vs), rest =>
      ((suffix_writeItems vs rest).trans (suffix_write v _)).trans (List.suffix_cons _ _)
  | .mapping [], rest => List.suffix_append ['\x7b', '\x7d'] rest
  | .mapping ((key, v) :: es), rest =>
      (((suffix_writeEntries es rest).trans (suffix_write v _)).trans
        (suffix_writeKey key _)).trans (List.suffix_cons _ _)

theorem suffix_writeItems : ∀ (vs : List Value) (rest : List Char), rest <:+ writeItems vs rest
  | [], _ => List.suffix_cons _ _
  | v :: vs, rest =>
      ((suffix_writeItems vs rest).trans (suffix_write v _)).trans (List.suffix_cons _ _)

theorem suffix_writeEntries : ∀ (es : List (String × Value)) (rest : List Char),
    rest <:+ writeEntries es rest
  | [], _ => List.suffix_cons _ _
  | (key, v) :: es, rest =>
      (((suffix_writeEntries es rest).trans (suffix_write v _)).trans
        (suffix_writeKey key _)).trans (List.suffix_cons _ _)

end

/-! ## Values -/

/-- The first character of a value: nothing that readers pass over or stop at. -/
def Begins (cs : List Char) : Prop :=
  ∃ c rest, cs = c :: rest ∧ isBlank c = false ∧ c ≠ ']' ∧ c ≠ '\x7d'

theorem Begins.skipBlanks_eq {cs : List Char} (h : Begins cs) : skipBlanks cs = cs := by
  obtain ⟨c, rest, rfl, hblank, -⟩ := h
  simp [skipBlanks, hblank]

theorem write_number (n : Number) (rest : List Char) :
    write (.number n) rest = (numberText n).toList ++ rest := rfl

variable {depth : Nat} {v : Value}

theorem begins_write (h : v.IsExact depth) (rest : List Char) : Begins (write v rest) := by
  cases v with
  | null => exact ⟨'n', _, rfl, by decide⟩
  | bool b => cases b with
    | true => exact ⟨'t', _, rfl, by decide⟩
    | false => exact ⟨'f', _, rfl, by decide⟩
  | number n =>
      obtain ⟨i, -, htext⟩ := h.exists_ofInt?
      obtain ⟨c, cs, hcs, hc⟩ := Number.exists_head_intText i rest
      rw [write_number, htext, hcs]
      refine ⟨c, cs, rfl, ?_, hc ']' (by decide) rfl, hc '\x7d' (by decide) rfl⟩
      simp [isBlank, hc]
  | string text => exact ⟨'"', _, rfl, by decide⟩
  | sequence items => cases items with
    | nil => exact ⟨'[', _, rfl, by decide⟩
    | cons v vs => exact ⟨'[', _, rfl, by decide⟩
  | mapping entries => cases entries with
    | nil => exact ⟨'\x7b', _, rfl, by decide⟩
    | cons entry es => exact ⟨'\x7b', _, rfl, by decide⟩

theorem readScalar_write (h : v.IsExact depth) (hscalar : v.isContainer = false) {fuel : Nat}
    {rest : List Char} (hrest : Follows rest) (hfuel : (write v rest).length ≤ fuel) :
    readScalar fuel (write v rest) = some (v, rest) := by
  cases v with
  | null => rfl
  | bool b => cases b <;> rfl
  | number n =>
      obtain ⟨i, hi, htext⟩ := h.exists_ofInt?
      obtain ⟨c, cs, hcs, hc⟩ := Number.exists_head_intText i rest
      have hread := readNumber_intText hi hrest
      have hother (d : Char) (tail : List Char) (hd : d ≠ '-' ∧ d.isDigit = false) :
          c :: cs ≠ d :: tail := fun heq => hc d hd.1 hd.2 (List.cons.inj heq).1
      rw [hcs] at hread
      rw [write_number, htext, hcs]
      unfold readScalar
      split
      · exact absurd ‹_› (hother 'n' _ (by decide))
      · exact absurd ‹_› (hother 't' _ (by decide))
      · exact absurd ‹_› (hother 'f' _ (by decide))
      · exact absurd ‹_› (hother '"' _ (by decide))
      · rw [hread]
        rfl
  | string text =>
      have hread : readString fuel (writeStringBody text.toList rest) = some (text, rest) :=
        readString_write (Nat.le_of_succ_le hfuel)
      change (readString fuel (writeStringBody text.toList rest)).map _ = _
      rw [hread]
      rfl
  | sequence items => cases hscalar
  | mapping entries => cases hscalar

theorem readValue_of_head {c : Char} (hblank : isBlank c = false) (hopen : c ≠ '[')
    (hbrace : c ≠ '\x7b') (fuel : Nat) (cs : List Char) :
    readValue fuel depth (c :: cs) = readScalar fuel (c :: cs) := by
  have hskip : skipBlanks (c :: cs) = c :: cs := by simp [skipBlanks, hblank]
  cases depth <;> simp [readValue, hskip, hopen, hbrace]

/-- The reader takes the text of `v` off again, whatever follows it, as long as the whole
text is within the fuel. -/
def Reader.ReadsBack (read : Reader Value) (fuel : Nat) (v : Value) : Prop :=
  ∀ rest : List Char, Follows rest → (write v rest).length ≤ fuel →
    read (write v rest) = some (v, rest)

theorem readsBack_scalar (h : v.IsExact depth) (hscalar : v.isContainer = false) (fuel : Nat) :
    Reader.ReadsBack (readValue fuel depth) fuel v := by
  intro rest hrest hfuel
  rw [← readScalar_write h hscalar hrest hfuel]
  cases v with
  | null => exact readValue_of_head rfl (by decide) (by decide) _ _
  | bool b => cases b <;> exact readValue_of_head rfl (by decide) (by decide) _ _
  | number n =>
      obtain ⟨i, -, htext⟩ := h.exists_ofInt?
      obtain ⟨c, cs, hcs, hc⟩ := Number.exists_head_intText i rest
      rw [write_number, htext, hcs]
      refine readValue_of_head ?_ (hc '[' (by decide) rfl) (hc '\x7b' (by decide) rfl) _ _
      simp [isBlank, hc]
  | string text => exact readValue_of_head rfl (by decide) (by decide) _ _
  | sequence items => cases hscalar
  | mapping entries => cases hscalar

theorem follows_writeItems (vs : List Value) (rest : List Char) : Follows (writeItems vs rest) := by
  cases vs <;> rintro c ⟨⟩ <;> simp

theorem follows_writeEntries (es : List (String × Value)) (rest : List Char) :
    Follows (writeEntries es rest) := by
  cases es <;> rintro c ⟨⟩ <;> simp

section

variable {item : Reader Value} {fuel : Nat}

theorem readItems_write {v : Value} {vs : List Value}
    (hitem : ∀ w ∈ v :: vs, item.ReadsBack fuel w) {n : Nat} (hn : n ≤ fuel) {rest : List Char}
    (hlength : (write v (writeItems vs rest)).length ≤ n) :
    readItems item n (write v (writeItems vs rest)) = some (v :: vs, rest) := by
  induction n generalizing v vs with
  | zero =>
      have hempty := Nat.le_trans (suffix_write v (writeItems vs rest)).length_le hlength
      cases vs <;> cases hempty
  | succ n ih =>
      obtain ⟨hv, hvs⟩ := List.forall_mem_cons.mp hitem
      have hread := hv _ (follows_writeItems vs rest) (Nat.le_trans hlength hn)
      have hafter := Nat.le_trans (suffix_write v (writeItems vs rest)).length_le hlength
      refine Option.bind_eq_some_iff.mpr ⟨_, hread, ?_⟩
      cases vs with
      | nil => rfl
      | cons w ws =>
          have hrest := ih hvs (Nat.le_of_succ_le hn) (Nat.le_of_succ_le_succ hafter)
          exact Option.bind_eq_some_iff.mpr ⟨_, hrest, rfl⟩

theorem readKey_write {key : String} {n : Nat} {rest : List Char}
    (hlength : (writeString key (':' :: rest)).length ≤ n) :
    readKey n (writeString key (':' :: rest)) = some (key, rest) := by
  have hread := readString_write (Nat.le_of_succ_le hlength)
  exact Option.bind_eq_some_iff.mpr ⟨_, hread, rfl⟩

theorem readEntries_write {key : String} {v : Value} {es : List (String × Value)}
    (hitem : ∀ e ∈ (key, v) :: es, item.ReadsBack fuel e.2) {n : Nat} (hn : n ≤ fuel)
    {rest : List Char}
    (hlength : (writeString key (':' :: write v (writeEntries es rest))).length ≤ n) :
    readEntries item n (writeString key (':' :: write v (writeEntries es rest))) =
      some ((key, v) :: es, rest) := by
  induction n generalizing key v es with
  | zero => cases hlength
  | succ n ih =>
      obtain ⟨hv, hes⟩ := List.forall_mem_cons.mp hitem
      have hvalue := Nat.le_trans (suffix_writeKey key _).length_le hlength
      have hread := hv _ (follows_writeEntries es rest) (Nat.le_trans hvalue hn)
      have hafter := Nat.le_trans (suffix_write v (writeEntries es rest)).length_le hvalue
      refine Option.bind_eq_some_iff.mpr ⟨_, readKey_write hlength, ?_⟩
      refine Option.bind_eq_some_iff.mpr ⟨_, hread, ?_⟩
      cases es with
      | nil => rfl
      | cons entry es =>
          have hrest := ih hes (Nat.le_of_succ_le hn) (Nat.le_of_succ_le_succ hafter)
          exact Option.bind_eq_some_iff.mpr ⟨_, hrest, rfl⟩

theorem readSequence_write {v : Value} {vs : List Value}
    (hitem : ∀ w ∈ v :: vs, item.ReadsBack fuel w) {rest : List Char}
    (hbegins : Begins (write v (writeItems vs rest)))
    (hlength : (write v (writeItems vs rest)).length ≤ fuel) :
    readSequence fuel item (write v (writeItems vs rest)) = some (.sequence (v :: vs), rest) := by
  have hread := readItems_write hitem (Nat.le_refl fuel) hlength
  unfold readSequence
  rw [hbegins.skipBlanks_eq]
  obtain ⟨c, cs, hcs, -, hclose, -⟩ := hbegins
  rw [hcs] at hread ⊢
  split
  · rename_i heq
    exact absurd (List.cons.inj heq).1 hclose
  · rw [hread]
    rfl

theorem readMapping_write {key : String} {v : Value} {es : List (String × Value)}
    (hitem : ∀ e ∈ (key, v) :: es, item.ReadsBack fuel e.2) {rest : List Char}
    (hlength : (writeString key (':' :: write v (writeEntries es rest))).length ≤ fuel) :
    readMapping fuel item (writeString key (':' :: write v (writeEntries es rest))) =
      some (.ofEntries ((key, v) :: es), rest) := by
  have hread := readEntries_write hitem (Nat.le_refl fuel) hlength
  change (readEntries item fuel _).map _ = _
  rw [hread]
  rfl

end

/-- The induction is on the depth, as it is in the reader. -/
theorem readsBack_readValue (h : v.IsExact depth) (fuel : Nat) :
    Reader.ReadsBack (readValue fuel depth) fuel v := by
  induction depth generalizing v with
  | zero =>
      have hscalar : v.isContainer = false := by
        cases v with
        | sequence items => cases h.nesting
        | mapping entries => cases h.nesting
        | _ => rfl
      exact readsBack_scalar h hscalar fuel
  | succ depth ih =>
      cases v with
      | sequence items =>
          intro rest hrest hlength
          cases items with
          | nil => rfl
          | cons v vs =>
              have hitems := h.of_mem_sequence
              exact readSequence_write (fun w hw => ih (hitems w hw))
                (begins_write (hitems v List.mem_cons_self) _) (Nat.le_of_succ_le hlength)
      | mapping entries =>
          intro rest hrest hlength
          cases entries with
          | nil => rfl
          | cons entry es =>
              have hentries := h.of_mem_mapping
              have hread := readMapping_write (fun e he => ih (hentries e he))
                (Nat.le_of_succ_le hlength)
              exact hread.trans (congrArg (fun v => some (v, rest)) h.ofEntries_eq)
      | _ => exact readsBack_scalar h rfl fuel

theorem read?_text (h : v.IsExact depthLimit) : read? v.text = some v := by
  have hlist : v.text.toList = write v [] := String.toList_ofList
  have hlength : (write v []).length ≤ v.text.length + 1 := by
    rw [← hlist, String.length_toList]
    exact Nat.le_succ _
  have hread := readsBack_readValue h _ [] (by rintro c ⟨⟩) hlength
  rw [read?, hlist, hread]
  rfl

end Json

namespace Document

/-- A value whose text is exact is what its text is read as, as JSON and without a format
given. So its text belongs to no other such value. -/
theorem ofText_text {v : Value} (h : v.IsExact 127) :
    ofText v.text .json = .ok v ∧ ofText v.text .auto = .ok v ∧
      ∀ w : Value, w.IsExact 127 → w.text = v.text → w = v := by
  have hread : Json.read? v.text = some v := Json.read?_text h
  refine ⟨?_, ?_, ?_⟩
  · rw [ofText, hread]
  · rw [ofText, hread]
  · intro w hw htext
    have hreadw : Json.read? w.text = some w := Json.read?_text hw
    rw [htext, hread] at hreadw
    exact (Option.some.inj hreadw).symm

/-- A quote and a line feed in a key, an empty container and the largest unsigned integer. -/
theorem ofText_text_nested :
    ∃ v, v = .mapping [("q\"\n", .sequence [.mapping [], .number (.unsigned 18446744073709551615)]),
        ("é", .number (.integer (-5)))] ∧
      v.text = "\x7b\"q\\\"\\n\":[\x7b\x7d,18446744073709551615],\"é\":-5\x7d" ∧ v.IsExact 127 ∧
      ofText v.text .json = .ok v ∧ ofText v.text .auto = .ok v ∧
        ∀ w : Value, w.IsExact 127 → w.text = v.text → w = v := by
  have hitems : (Value.sequence [.mapping [],
      .number (.unsigned 18446744073709551615)]).KeysDistinct := by
    refine .sequence (List.forall_mem_cons.mpr ⟨.mapping List.nodup_nil (by simp), ?_⟩)
    exact List.forall_mem_singleton.mpr (.scalar rfl)
  have hkeys : (Value.mapping [("q\"\n", .sequence [.mapping [],
      .number (.unsigned 18446744073709551615)]), ("é", .number (.integer (-5)))]).KeysDistinct :=
    .mapping (by decide) (List.forall_mem_cons.mpr
      ⟨hitems, List.forall_mem_singleton.mpr (.scalar rfl)⟩)
  have hexact : (Value.mapping [("q\"\n", .sequence [.mapping [],
      .number (.unsigned 18446744073709551615)]), ("é", .number (.integer (-5)))]).IsExact 127 := by
    refine ⟨hkeys, ?_, by decide⟩
    simp [Value.numbers, Value.numbersOfEntries, Value.numbersOfItems, Number.isInteger,
      Number.toInt?, Number.IsCanonical, Number.signedSize]
  exact ⟨_, rfl, by decide +kernel, hexact, ofText_text hexact⟩

end Document

end FieldPath
