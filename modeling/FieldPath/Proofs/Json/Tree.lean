import FieldPath.Proofs.Document.Tree
import FieldPath.Proofs.Json.Inversion

/-!
# Trees of JSON texts

The grammar of JSON with any value as a key gives the tree of a text. Texts that are read
have one, with the strings that are their keys, and load as it says.
-/

namespace FieldPath

namespace Json

/-! ## The tree of a text -/

theorem isContainer_of_readScalar {fuel : Nat} {cs rest : List Char} {v : Value}
    (h : readScalar fuel cs = some (v, rest)) : v.isContainer = false := by
  unfold readScalar at h
  split at h
  · cases h
    rfl
  · cases h
    rfl
  · cases h
    rfl
  · obtain ⟨_, -, heq⟩ := Option.map_eq_some_iff.mp h
    cases heq
    rfl
  · obtain ⟨_, -, heq⟩ := Option.map_eq_some_iff.mp h
    cases heq
    rfl

def readScalarTree (fuel : Nat) : Reader Tree := fun cs =>
  match h : readScalar fuel cs with
  | some (v, rest) => some (.scalar v (isContainer_of_readScalar h), rest)
  | none => none

def readItemTrees (item : Reader Tree) : Nat → Reader (List Tree)
  | 0, _ => none
  | fuel + 1, cs => do
      let (t, rest) ← item cs
      match skipBlanks rest with
      | ',' :: rest => do
          let (ts, rest) ← readItemTrees item fuel rest
          some (t :: ts, rest)
      | ']' :: rest => some ([t], rest)
      | _ => none

def readEntryTrees (item : Reader Tree) : Nat → Reader (List (Tree × Tree))
  | 0, _ => none
  | fuel + 1, cs => do
      let (key, rest) ← item cs
      match skipBlanks rest with
      | ':' :: rest => do
          let (t, rest) ← item rest
          match skipBlanks rest with
          | ',' :: rest => do
              let (es, rest) ← readEntryTrees item fuel rest
              some ((key, t) :: es, rest)
          | '\x7d' :: rest => some ([(key, t)], rest)
          | _ => none
      | _ => none

def readSequenceTree (fuel : Nat) (item : Reader Tree) : Reader Tree := fun cs =>
  match skipBlanks cs with
  | ']' :: rest => some (.sequence [], rest)
  | _ => (readItemTrees item fuel cs).map fun (ts, rest) => (.sequence ts, rest)

def readMappingTree (fuel : Nat) (item : Reader Tree) : Reader Tree := fun cs =>
  match skipBlanks cs with
  | '\x7d' :: rest => some (.mapping [], rest)
  | _ => (readEntryTrees item fuel cs).map fun (es, rest) => (.mapping es, rest)

def readTree (fuel : Nat) : Nat → Reader Tree
  | 0, cs =>
      match skipBlanks cs with
      | '[' :: _ => none
      | '\x7b' :: _ => none
      | cs => readScalarTree fuel cs
  | depth + 1, cs =>
      match skipBlanks cs with
      | '[' :: rest => readSequenceTree fuel (readTree fuel depth) rest
      | '\x7b' :: rest => readMappingTree fuel (readTree fuel depth) rest
      | cs => readScalarTree fuel cs

/-- The tree of a text that is one value and nothing more, but for its keys. -/
def tree? (text : String) : Option Tree :=
  match readTree (text.length + 1) depthLimit text.toList with
  | some (t, rest) => if (skipBlanks rest).isEmpty then some t else none
  | none => none

/-! ## What is read has a tree -/

theorem readStringBody_mono {fuel more : Nat} (hmore : fuel ≤ more) {cs : List Char}
    {r : List Char × List Char} (h : readStringBody fuel cs = some r) :
    readStringBody more cs = some r := by
  induction fuel generalizing more cs r with
  | zero => cases h
  | succ fuel ih =>
      obtain ⟨more, rfl⟩ := Nat.exists_eq_add_one_of_ne_zero (Nat.ne_zero_of_lt hmore)
      have hless := Nat.le_of_succ_le_succ hmore
      cases cs with
      | nil => cases h
      | cons c rest =>
          rw [readStringBody] at h ⊢
          split_ifs at h ⊢ with hquote hslash hcontrol
          · exact h
          · obtain ⟨⟨d, afterEscape⟩, hescape, h⟩ := Option.bind_eq_some_iff.mp h
            obtain ⟨⟨ds, after⟩, hbody, h⟩ := Option.bind_eq_some_iff.mp h
            exact Option.bind_eq_some_iff.mpr ⟨_, hescape,
              Option.bind_eq_some_iff.mpr ⟨_, ih hless hbody, h⟩⟩
          · obtain ⟨⟨ds, after⟩, hbody, h⟩ := Option.bind_eq_some_iff.mp h
            exact Option.bind_eq_some_iff.mpr ⟨_, ih hless hbody, h⟩

theorem readString_mono {fuel more : Nat} (hmore : fuel ≤ more) {cs rest : List Char}
    {text : String} (h : readString fuel cs = some (text, rest)) :
    readString more cs = some (text, rest) := by
  obtain ⟨r, hbody, heq⟩ := Option.map_eq_some_iff.mp h
  exact Option.map_eq_some_iff.mpr ⟨r, readStringBody_mono hmore hbody, heq⟩

theorem readScalarTree_eq {fuel : Nat} {cs rest : List Char} {v : Value}
    (h : readScalar fuel cs = some (v, rest)) :
    readScalarTree fuel cs = some (.scalar v (isContainer_of_readScalar h), rest) := by
  unfold readScalarTree
  split
  · rename_i w after hread
    obtain ⟨rfl, rfl⟩ := Prod.mk.inj (Option.some.inj (hread.symm.trans h))
    rfl
  · rename_i hread
    cases hread.symm.trans h

/-- The one reader gives trees of what the other gives, and of keys with the colon left. -/
structure Reader.Mirrors (fuel : Nat) (tree : Reader Tree) (read : Reader Value) : Prop where
  value : ∀ {cs rest : List Char} {v : Value}, read cs = some (v, rest) →
    ∃ t, tree cs = some (t, rest) ∧ t.LoadsAs v
  key : ∀ {n : Nat} {cs rest : List Char} {key : String}, n ≤ fuel →
    readKey n cs = some (key, rest) →
      ∃ after, tree cs = some (.ofString key, after) ∧ skipBlanks after = ':' :: rest

variable {fuel : Nat} {tree : Reader Tree} {read : Reader Value}

theorem exists_readItemTrees (h : tree.Mirrors fuel read) {n : Nat} {cs rest : List Char}
    {vs : List Value} (hread : readItems read n cs = some (vs, rest)) :
    ∃ ts, readItemTrees tree n cs = some (ts, rest) ∧ List.Forall₂ Tree.LoadsAs ts vs := by
  induction n generalizing cs rest vs with
  | zero => cases hread
  | succ n ih =>
      obtain ⟨v, after, hv, htail⟩ := readItems_cases hread
      obtain ⟨t, ht, hloads⟩ := h.value hv
      rw [readItemTrees, ht]
      rcases htail with ⟨next, more, hnext, hmore, rfl⟩ | ⟨hclose, rfl⟩
      · obtain ⟨ts, hts, hmores⟩ := ih hmore
        exact ⟨t :: ts, by simp [hnext, hts], .cons hloads hmores⟩
      · exact ⟨[t], by simp [hclose], .cons hloads .nil⟩

theorem exists_readEntryTrees (h : tree.Mirrors fuel read) {n : Nat} (hn : n ≤ fuel)
    {cs rest : List Char} {pairs : List (String × Value)}
    (hread : readEntries read n cs = some (pairs, rest)) :
    ∃ entries, readEntryTrees tree n cs = some (entries, rest) ∧
      List.Forall₂ (fun entry pair => entry.1.HasKeyText pair.1) entries pairs ∧
      List.Forall₂ (fun entry pair => entry.2.LoadsAs pair.2) entries pairs := by
  induction n generalizing cs rest pairs with
  | zero => cases hread
  | succ n ih =>
      obtain ⟨key, afterColon, v, after, hkey, hv, htail⟩ := readEntries_cases hread
      obtain ⟨afterKey, hkeyTree, hcolon⟩ := h.key hn hkey
      obtain ⟨t, ht, hloads⟩ := h.value hv
      have hkeyText : (Tree.ofString key).HasKeyText key := .string key
      rw [readEntryTrees, hkeyTree]
      rcases htail with ⟨next, more, hnext, hmore, rfl⟩ | ⟨hclose, rfl⟩
      · obtain ⟨entries, hentries, hkeys, hvalues⟩ := ih (Nat.le_of_succ_le hn) hmore
        exact ⟨(.ofString key, t) :: entries, by simp [hcolon, ht, hnext, hentries],
          .cons hkeyText hkeys, .cons hloads hvalues⟩
      · exact ⟨[(.ofString key, t)], by simp [hcolon, ht, hclose], .cons hkeyText .nil,
          .cons hloads .nil⟩

theorem exists_readTree_key {depth n : Nat} (hn : n ≤ fuel) {cs rest : List Char} {key : String}
    (h : readKey n cs = some (key, rest)) :
    ∃ after, readTree fuel depth cs = some (.ofString key, after) ∧
      skipBlanks after = ':' :: rest := by
  obtain ⟨body, after, hquote, hbody, hcolon⟩ := readKey_cases h
  have hscalar : readScalar fuel ('"' :: body) = some (.string key, after) := by
    change (readString fuel body).map _ = _
    rw [readString_mono hn hbody]
    rfl
  refine ⟨after, ?_, hcolon⟩
  cases depth with
  | zero =>
      rw [readTree, hquote]
      exact readScalarTree_eq hscalar
  | succ depth =>
      rw [readTree, hquote]
      exact readScalarTree_eq hscalar

theorem readTree_scalar {depth : Nat} {cs : List Char}
    (hbracket : ∀ tail, skipBlanks cs = '[' :: tail → False)
    (hbrace : ∀ tail, skipBlanks cs = '\x7b' :: tail → False) :
    readTree fuel depth cs = readScalarTree fuel (skipBlanks cs) := by
  cases depth with
  | zero =>
      unfold readTree
      split
      · exact absurd ‹_› (hbracket _)
      · exact absurd ‹_› (hbrace _)
      · rfl
  | succ depth =>
      unfold readTree
      split
      · exact absurd ‹_› (hbracket _)
      · exact absurd ‹_› (hbrace _)
      · rfl

theorem readSequenceTree_items {item : Reader Tree} {cs : List Char}
    (h : ∀ tail, skipBlanks cs ≠ ']' :: tail) :
    readSequenceTree fuel item cs =
      (readItemTrees item fuel cs).map fun (ts, rest) => (.sequence ts, rest) := by
  unfold readSequenceTree
  split
  · exact absurd ‹_› (h _)
  · rfl

theorem readMappingTree_entries {item : Reader Tree} {cs : List Char}
    (h : ∀ tail, skipBlanks cs ≠ '\x7d' :: tail) :
    readMappingTree fuel item cs =
      (readEntryTrees item fuel cs).map fun (es, rest) => (.mapping es, rest) := by
  unfold readMappingTree
  split
  · exact absurd ‹_› (h _)
  · rfl

theorem exists_readSequenceTree (h : tree.Mirrors fuel read) {cs rest : List Char} {v : Value}
    (hread : readSequence fuel read cs = some (v, rest)) :
    ∃ t, readSequenceTree fuel tree cs = some (t, rest) ∧ t.LoadsAs v := by
  rcases readSequence_cases hread with ⟨hclose, rfl⟩ | ⟨hopen, vs, hvs, rfl⟩
  · exact ⟨.sequence [], by simp [readSequenceTree, hclose], .sequence .nil⟩
  · obtain ⟨ts, hts, hloads⟩ := exists_readItemTrees h hvs
    exact ⟨.sequence ts, by rw [readSequenceTree_items hopen, hts]; rfl, .sequence hloads⟩

theorem exists_readMappingTree (h : tree.Mirrors fuel read) {cs rest : List Char} {v : Value}
    (hread : readMapping fuel read cs = some (v, rest)) :
    ∃ t, readMappingTree fuel tree cs = some (t, rest) ∧ t.LoadsAs v := by
  rcases readMapping_cases hread with ⟨hclose, rfl⟩ | ⟨hopen, pairs, hpairs, rfl⟩
  · exact ⟨.mapping [], by simp [readMappingTree, hclose], .mapping .nil .nil rfl fun _ => rfl⟩
  · obtain ⟨entries, hentries, hkeys, hvalues⟩ :=
      exists_readEntryTrees h (Nat.le_refl fuel) hpairs
    exact ⟨.mapping entries, by rw [readMappingTree_entries hopen, hentries]; rfl,
      Tree.loadsAs_ofEntries hkeys hvalues⟩

/-- The induction is on the depth, as it is in both readers. -/
theorem mirrors_readTree (fuel depth : Nat) :
    Reader.Mirrors fuel (readTree fuel depth) (readValue fuel depth) := by
  refine ⟨?_, fun hn h => exists_readTree_key hn h⟩
  induction depth with
  | zero =>
      intro cs rest v h
      unfold readValue at h
      split at h
      · cases h
      · cases h
      · rename_i hbracket hbrace
        rw [readTree_scalar hbracket hbrace]
        exact ⟨_, readScalarTree_eq h, .scalar _⟩
  | succ depth ih =>
      have hmirrors : Reader.Mirrors fuel (readTree fuel depth) (readValue fuel depth) :=
        ⟨ih, fun hn h => exists_readTree_key hn h⟩
      intro cs rest v h
      unfold readValue at h
      split at h
      · rename_i hopen
        rw [readTree, hopen]
        exact exists_readSequenceTree hmirrors h
      · rename_i hopen
        rw [readTree, hopen]
        exact exists_readMappingTree hmirrors h
      · rename_i hbracket hbrace
        rw [readTree_scalar hbracket hbrace]
        exact ⟨_, readScalarTree_eq h, .scalar _⟩

/-- Every text that is read has a tree, and is read as what the tree loads as. -/
theorem exists_tree? {text : String} {v : Value} (h : read? text = some v) :
    ∃ t, tree? text = some t ∧ t.LoadsAs v := by
  unfold read? at h
  split at h
  · rename_i w rest hread
    split_ifs at h with hend
    cases h
    obtain ⟨t, ht, hloads⟩ := (mirrors_readTree _ _).value hread
    refine ⟨t, ?_, hloads⟩
    rw [tree?, ht]
    exact if_pos hend
  · cases h

end Json

end FieldPath
