import FieldPath.Document
import FieldPath.Proofs.Json.Inversion
import FieldPath.Proofs.Value.Keys
import FieldPath.Proofs.Value.Numbers

/-!
# What documents are read into

Reading a document gives scalars, with each number in its one form, sequences of what
was read, and mappings that the entries read were inserted into one after the other.
So the mappings of a document have distinct keys, whatever the text repeats.
-/

namespace FieldPath

def Value.IsScalar : Value → Prop
  | number n => n.IsCanonical
  | sequence _ | mapping _ => False
  | _ => True

theorem Value.IsScalar.isContainer {v : Value} (h : v.IsScalar) : v.isContainer = false := by
  cases v with
  | sequence items => cases h
  | mapping entries => cases h
  | _ => rfl

/-- What reading makes: scalars, sequences, and mappings by inserting entries. -/
inductive Value.Loaded : Value → Prop where
  | scalar {v : Value} (h : v.IsScalar) : Loaded v
  | sequence {items : List Value} (elements : ∀ v ∈ items, Loaded v) : Loaded (.sequence items)
  | ofEntries {pairs : List (String × Value)} (values : ∀ pair ∈ pairs, Loaded pair.2) :
      Loaded (.ofEntries pairs)

theorem Value.Loaded.keysDistinct {v : Value} (h : v.Loaded) : v.KeysDistinct := by
  induction h with
  | scalar h => exact .scalar h.isContainer
  | sequence _ ih => exact .sequence ih
  | ofEntries _ ih => exact keysDistinct_ofEntries ih

/-! ## JSON -/

namespace Json

def Reader.Loads (read : Reader Value) : Prop :=
  ∀ {cs rest : List Char} {v : Value}, read cs = some (v, rest) → v.Loaded

variable {item : Reader Value}

theorem loaded_of_readItems (hitem : item.Loads) {fuel : Nat} {cs rest : List Char}
    {vs : List Value} (h : readItems item fuel cs = some (vs, rest)) : ∀ v ∈ vs, v.Loaded := by
  induction fuel generalizing cs rest vs with
  | zero => cases h
  | succ fuel ih =>
      obtain ⟨v, after, hv, ⟨next, more, -, hmore, rfl⟩ | ⟨-, rfl⟩⟩ := readItems_cases h
      · exact List.forall_mem_cons.mpr ⟨hitem hv, ih hmore⟩
      · exact List.forall_mem_singleton.mpr (hitem hv)

theorem loaded_of_readEntries (hitem : item.Loads) {fuel : Nat} {cs rest : List Char}
    {es : List (String × Value)} (h : readEntries item fuel cs = some (es, rest)) :
    ∀ e ∈ es, e.2.Loaded := by
  induction fuel generalizing cs rest es with
  | zero => cases h
  | succ fuel ih =>
      obtain ⟨key, afterColon, v, after, -, hv, htail⟩ := readEntries_cases h
      rcases htail with ⟨next, more, -, hmore, rfl⟩ | ⟨-, rfl⟩
      · exact List.forall_mem_cons.mpr ⟨hitem hv, ih hmore⟩
      · exact List.forall_mem_singleton.mpr (hitem hv)

theorem loads_readSequence (hitem : item.Loads) (fuel : Nat) : (readSequence fuel item).Loads := by
  intro cs rest v h
  rcases readSequence_cases h with ⟨-, rfl⟩ | ⟨-, vs, hvs, rfl⟩
  · exact .sequence (List.forall_mem_nil _)
  · exact .sequence (loaded_of_readItems hitem hvs)

theorem loads_readMapping (hitem : item.Loads) (fuel : Nat) : (readMapping fuel item).Loads := by
  intro cs rest v h
  rcases readMapping_cases h with ⟨-, rfl⟩ | ⟨-, pairs, hpairs, rfl⟩
  · exact Value.Loaded.ofEntries (List.forall_mem_nil _)
  · exact .ofEntries (loaded_of_readEntries hitem hpairs)

theorem isCanonical_of_float? {parts : NumberParts} {n : Number} (h : parts.float? = some n) :
    n.IsCanonical := by
  obtain ⟨x, -, rfl⟩ := Option.map_eq_some_iff.mp h
  trivial

theorem isCanonical_of_number? {parts : NumberParts} {n : Number} (h : parts.number? = some n) :
    n.IsCanonical := by
  unfold NumberParts.number? at h
  dsimp only at h
  split at h
  · split at h
    · exact isCanonical_of_float? h
    split at h
    · rename_i m hm
      cases h
      exact (Number.ofInt?_eq_some_iff.mp hm).1
    · exact isCanonical_of_float? h
  · exact isCanonical_of_float? h

theorem isCanonical_of_readNumber {cs rest : List Char} {n : Number}
    (h : readNumber cs = some (n, rest)) : n.IsCanonical := by
  unfold readNumber at h
  obtain ⟨⟨whole, afterWhole⟩, -, h⟩ := Option.bind_eq_some_iff.mp h
  dsimp only at h
  split at h
  · cases h
  obtain ⟨⟨fraction, afterFraction⟩, -, h⟩ := Option.bind_eq_some_iff.mp h
  obtain ⟨⟨exponent, afterExponent⟩, -, h⟩ := Option.bind_eq_some_iff.mp h
  obtain ⟨m, hm, h⟩ := Option.bind_eq_some_iff.mp h
  cases h
  exact isCanonical_of_number? hm

theorem loads_readScalar (fuel : Nat) : Reader.Loads (readScalar fuel) := by
  intro cs rest v h
  unfold readScalar at h
  split at h
  · cases h
    exact .scalar trivial
  · cases h
    exact .scalar trivial
  · cases h
    exact .scalar trivial
  · obtain ⟨text, -, heq⟩ := Option.map_eq_some_iff.mp h
    cases heq
    exact .scalar trivial
  · obtain ⟨⟨n, after⟩, hn, heq⟩ := Option.map_eq_some_iff.mp h
    cases heq
    exact .scalar (isCanonical_of_readNumber hn)

theorem loads_readValue (fuel depth : Nat) : Reader.Loads (readValue fuel depth) := by
  induction depth with
  | zero =>
      intro cs rest v h
      unfold readValue at h
      split at h
      · cases h
      · cases h
      · exact loads_readScalar fuel h
  | succ depth ih =>
      intro cs rest v h
      unfold readValue at h
      split at h
      · exact loads_readSequence ih fuel h
      · exact loads_readMapping ih fuel h
      · exact loads_readScalar fuel h

theorem loaded_of_read? {text : String} {v : Value} (h : read? text = some v) : v.Loaded := by
  unfold read? at h
  split at h
  · rename_i w rest hread
    split at h
    · cases h
      exact loads_readValue _ _ hread
    · cases h
  · cases h

end Json

/-! ## YAML -/

namespace Yaml

theorem isCanonical_of_integerForm {text : List Char} {n : Number}
    (h : integerForm text = .number n) : n.IsCanonical := by
  unfold integerForm at h
  split at h
  · cases h
  · split at h
    · rename_i m hm
      cases h
      exact (Number.ofInt?_eq_some_iff.mp hm).1
    · split at h <;> cases h

theorem isScalar_of_plainValue? {text : List Char} {v : Value} (h : plainValue? text = some v) :
    v.IsScalar := by
  unfold plainValue? at h
  split at h
  · cases h
    trivial
  split at h
  · cases h
    trivial
  split at h
  · rename_i n hn
    cases h
    exact isCanonical_of_integerForm hn
  · cases h
  split at h
  · cases h
    trivial
  split at h
  · cases h
    trivial
  · cases h
    trivial

theorem isScalar_of_taggedValue? {tag text : List Char} {v : Value}
    (h : taggedValue? tag text = some v) : v.IsScalar := by
  unfold taggedValue? at h
  split at h
  · obtain ⟨b, -, rfl⟩ := Option.map_eq_some_iff.mp h
    trivial
  split at h
  · split at h
    · rename_i n hn
      cases h
      exact isCanonical_of_integerForm hn
    · cases h
  split at h
  · obtain ⟨x, -, rfl⟩ := Option.map_eq_some_iff.mp h
    trivial
  split at h
  · split at h
    · cases h
      trivial
    · cases h
  split at h
  · cases h
  · cases h
    trivial

theorem isScalar_of_scalarValue? {tag : Option (List Char)} {style : ScalarStyle}
    {text : List Char} {v : Value} (h : scalarValue? tag style text = some v) : v.IsScalar := by
  unfold scalarValue? at h
  split at h
  · exact isScalar_of_taggedValue? h
  · exact isScalar_of_plainValue? h
  · cases h
    trivial

namespace Decoder

def Yields {α : Type} (x : Decoder α) (P : α → Prop) : Prop :=
  ∀ left a after, x.run left = .ok (a, after) → P a

variable {α β : Type} {P : α → Prop} {Q : β → Prop}

theorem yields_pure {a : α} (h : P a) : Yields (pure a) P := by
  intro left b after hrun
  cases hrun
  exact h

theorem yields_throw (e : Error) : Yields (throw e) P := by
  intro left b after hrun
  cases hrun

theorem yields_bind {x : Decoder α} {f : α → Decoder β} (hx : x.Yields P)
    (hf : ∀ a, P a → (f a).Yields Q) : (x >>= f).Yields Q := by
  intro left b after hrun
  rw [StateT.run_bind] at hrun
  cases hrunx : x.run left with
  | error e =>
      rw [hrunx] at hrun
      cases hrun
  | ok pair =>
      rw [hrunx] at hrun
      exact hf pair.1 (hx _ _ _ hrunx) _ _ _ hrun

theorem yields_trivial (x : Decoder α) : x.Yields fun _ => True := fun _ _ _ _ => trivial

theorem yields_unless {c : Prop} [Decidable c] {e : Error} {x : Decoder α} (hx : x.Yields P) :
    (do
      if c then throw e
      x).Yields P := by
  by_cases hc : c
  · rw [if_pos hc]
    exact yields_throw e
  · rw [if_neg hc]
    exact hx

theorem yields_mapM {f : α → Decoder β} {as : List α} (hf : ∀ a ∈ as, (f a).Yields Q) :
    (as.mapM f).Yields fun bs => ∀ b ∈ bs, Q b := by
  induction as with
  | nil => exact yields_pure (List.forall_mem_nil _)
  | cons a rest ih =>
      obtain ⟨ha, hrest⟩ := List.forall_mem_cons.mp hf
      rw [List.mapM_cons]
      refine yields_bind ha fun b hb => yields_bind (ih hrest) fun bs hbs => yields_pure ?_
      exact List.forall_mem_cons.mpr ⟨hb, hbs⟩

end Decoder

namespace Node

theorem yields_scalarOf (tag : Option (List Char)) (style : ScalarStyle) (text : List Char) :
    (scalarOf tag style text).Yields Value.Loaded := by
  unfold scalarOf
  split
  · rename_i v hv
    exact Decoder.yields_pure (.scalar (isScalar_of_scalarValue? hv))
  · exact Decoder.yields_throw _

theorem yields_value (anchors : Anchors) (depth : Nat) (n : Node) :
    (n.value anchors depth).Yields Value.Loaded := by
  induction depth generalizing n with
  | zero =>
      rw [value]
      refine Decoder.yields_bind (Decoder.yields_trivial _) fun n' _ => ?_
      split
      · exact yields_scalarOf _ _ _
      · exact Decoder.yields_throw _
  | succ depth ih =>
      rw [value]
      refine Decoder.yields_bind (Decoder.yields_trivial _) fun n' _ => ?_
      split
      · exact yields_scalarOf _ _ _
      · rename_i tag items
        have hitems : (items.mapM (value anchors depth)).Yields fun vs => ∀ v ∈ vs, v.Loaded :=
          Decoder.yields_mapM fun n _ => ih n
        refine Decoder.yields_unless (Decoder.yields_bind hitems fun vs hvs => ?_)
        exact Decoder.yields_pure (.sequence hvs)
      · rename_i tag entries
        have hentry (k v : Node) : Decoder.Yields
            (do return (← key anchors depth k, ← value anchors depth v))
            fun pair => pair.2.Loaded := by
          refine Decoder.yields_bind (Decoder.yields_trivial _) fun key _ => ?_
          exact Decoder.yields_bind (ih v) fun w hw => Decoder.yields_pure hw
        refine Decoder.yields_unless (Decoder.yields_bind
          (Decoder.yields_mapM fun entry _ => hentry entry.1 entry.2) fun pairs hpairs => ?_)
        exact Decoder.yields_pure (.ofEntries hpairs)
      · exact Decoder.yields_throw _

end Node

theorem loaded_of_read {text : String} {v : Value} (h : read text = .ok v) : v.Loaded := by
  unfold read at h
  dsimp only at h
  split at h
  · cases h
  · rename_i w after hrun
    split at h
    · cases h
      exact Node.yields_value _ _ _ _ _ _ hrun
    · cases h

end Yaml

/-- Whatever a text is loaded as was made by reading. -/
theorem Document.loaded_of_ofText {text : String} {format : Format} {v : Value}
    (h : ofText text format = .ok v) : v.Loaded := by
  have hyaml {e : Yaml.Error → ContentError} (h : (Yaml.read text).mapError e = .ok v) :
      v.Loaded := by
    cases hread : Yaml.read text with
    | error e =>
        rw [hread] at h
        cases h
    | ok w =>
        rw [hread] at h
        cases h
        exact Yaml.loaded_of_read hread
  unfold ofText at h
  split at h
  · split at h
    · rename_i w hread
      cases h
      exact Json.loaded_of_read? hread
    · cases h
  · exact hyaml h
  · split at h
    · rename_i w hread
      cases h
      exact Json.loaded_of_read? hread
    · exact hyaml h

/-- No mapping of a document has two entries under one key, whatever the text repeats. -/
theorem Document.keysDistinct_of_ofText {text : String} {format : Format} {v : Value}
    (h : ofText text format = .ok v) : v.KeysDistinct :=
  (loaded_of_ofText h).keysDistinct

end FieldPath
