import FieldPath.Json.Reader

/-!
# What JSON readers have taken

A reader that succeeds has taken one of a few shapes off the text. Each is said here once,
with what is left of the text, for all that is proved of what is read.
-/

namespace FieldPath

namespace Json

variable {read : Reader Value} {fuel : Nat} {cs rest : List Char}

theorem readItems_cases {vs : List Value} (h : readItems read (fuel + 1) cs = some (vs, rest)) :
    ∃ v after, read cs = some (v, after) ∧
      ((∃ next more, skipBlanks after = ',' :: next ∧
          readItems read fuel next = some (more, rest) ∧ vs = v :: more) ∨
        skipBlanks after = ']' :: rest ∧ vs = [v]) := by
  obtain ⟨⟨v, after⟩, hv, h⟩ := Option.bind_eq_some_iff.mp h
  refine ⟨v, after, hv, ?_⟩
  dsimp only at h
  split at h
  · rename_i next hnext
    obtain ⟨⟨more, final⟩, hmore, h⟩ := Option.bind_eq_some_iff.mp h
    cases h
    exact .inl ⟨next, more, hnext, hmore, rfl⟩
  · rename_i next hnext
    cases h
    exact .inr ⟨hnext, rfl⟩
  · cases h

theorem readEntries_cases {pairs : List (String × Value)}
    (h : readEntries read (fuel + 1) cs = some (pairs, rest)) :
    ∃ key afterColon v after, readKey (fuel + 1) cs = some (key, afterColon) ∧
      read afterColon = some (v, after) ∧
      ((∃ next more, skipBlanks after = ',' :: next ∧
          readEntries read fuel next = some (more, rest) ∧ pairs = (key, v) :: more) ∨
        skipBlanks after = '\x7d' :: rest ∧ pairs = [(key, v)]) := by
  obtain ⟨⟨key, afterColon⟩, hkey, h⟩ := Option.bind_eq_some_iff.mp h
  obtain ⟨⟨v, after⟩, hv, h⟩ := Option.bind_eq_some_iff.mp h
  refine ⟨key, afterColon, v, after, hkey, hv, ?_⟩
  dsimp only at h
  split at h
  · rename_i next hnext
    obtain ⟨⟨more, final⟩, hmore, h⟩ := Option.bind_eq_some_iff.mp h
    cases h
    exact .inl ⟨next, more, hnext, hmore, rfl⟩
  · rename_i next hnext
    cases h
    exact .inr ⟨hnext, rfl⟩
  · cases h

theorem readSequence_cases {v : Value} (h : readSequence fuel read cs = some (v, rest)) :
    (skipBlanks cs = ']' :: rest ∧ v = .sequence []) ∨
      (∀ tail, skipBlanks cs ≠ ']' :: tail) ∧
        ∃ vs, readItems read fuel cs = some (vs, rest) ∧ v = .sequence vs := by
  unfold readSequence at h
  split at h
  · rename_i next hclose
    cases h
    exact .inl ⟨hclose, rfl⟩
  · rename_i hopen
    obtain ⟨⟨vs, after⟩, hvs, heq⟩ := Option.map_eq_some_iff.mp h
    cases heq
    exact .inr ⟨hopen, vs, hvs, rfl⟩

theorem readMapping_cases {v : Value} (h : readMapping fuel read cs = some (v, rest)) :
    (skipBlanks cs = '\x7d' :: rest ∧ v = .mapping []) ∨
      (∀ tail, skipBlanks cs ≠ '\x7d' :: tail) ∧
        ∃ pairs, readEntries read fuel cs = some (pairs, rest) ∧ v = .ofEntries pairs := by
  unfold readMapping at h
  split at h
  · rename_i next hclose
    cases h
    exact .inl ⟨hclose, rfl⟩
  · rename_i hopen
    obtain ⟨⟨pairs, after⟩, hpairs, heq⟩ := Option.map_eq_some_iff.mp h
    cases heq
    exact .inr ⟨hopen, pairs, hpairs, rfl⟩

theorem readKey_cases {key : String} (h : readKey fuel cs = some (key, rest)) :
    ∃ body after, skipBlanks cs = '"' :: body ∧ readString fuel body = some (key, after) ∧
      skipBlanks after = ':' :: rest := by
  unfold readKey at h
  split at h
  · rename_i body hquote
    obtain ⟨⟨text, after⟩, hbody, h⟩ := Option.bind_eq_some_iff.mp h
    dsimp only at h
    split at h
    · rename_i next hcolon
      cases h
      exact ⟨body, after, hquote, hbody, hcolon⟩
    · cases h
  · cases h

end Json

end FieldPath
