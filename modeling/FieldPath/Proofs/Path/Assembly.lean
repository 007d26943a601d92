import FieldPath.Proofs.Path.Reading

/-!
# Chains put together token by token

Tokens can be read one after the other, with a list of the segments begun so far: a
separator settles the kind of the last one, and names and brackets begin others. Such a
reader is at a loss where names are missing or out of place, and where it has no segment
to settle or to end with. It reads just as the recursion on chains does, so it never
lacks a segment, and on the tokens of a text it is never at a loss at all.
-/

namespace FieldPath

namespace Path

inductive Fault where
  | nameAfterName (name : String) (position : Nat)
  | otherThanName (token : Token)
  | endBeforeName
  | nothingToSettle
  | nothingToLink

/-- What is reported for a fault. A reader without a segment has nothing to report. -/
def Fault.error? (size : Nat) : Fault → Option GrammarError
  | nameAfterName name position => some (.unexpectedToken position name .separator)
  | otherThanName token => some (.unexpectedToken token.position token.kind.text .name)
  | endBeforeName => some (.unexpectedEnd size .name)
  | nothingToSettle => none
  | nothingToLink => none

/-- The segments begun so far, the last one first, and whether a name has to come next. -/
structure Assembly where
  begun : List Segment
  awaitsName : Bool

namespace Assembly

def start : Assembly := ⟨[], true⟩

def settle (kind : SegmentKind) : List Segment → Except Fault (List Segment)
  | [] => .error .nothingToSettle
  | s :: before => .ok (s.withKind kind :: before)

def step (a : Assembly) (token : Token) : Except Fault Assembly :=
  match a.awaitsName, token.kind with
  | true, .name name => .ok ⟨⟨some name, .element⟩ :: a.begun, false⟩
  | true, _ => .error (.otherThanName token)
  | false, .brackets =>
      (settle (.array .unbound) a.begun).map fun begun => ⟨⟨none, .element⟩ :: begun, false⟩
  | false, .dot => (settle .object a.begun).map fun begun => ⟨begun, true⟩
  | false, .name name => .error (.nameAfterName name token.position)

def linkBack (before : List Segment) (p : Path) : Path :=
  before.foldl (fun next s => link s next) p

def finish (a : Assembly) : Except Fault Path :=
  if a.awaitsName then .error .endBeforeName
  else
    match a.begun with
    | [] => .error .nothingToLink
    | s :: before => .ok (linkBack before (last s))

def run (a : Assembly) : List Token → Except Fault Path
  | [] => a.finish
  | token :: rest =>
      match a.step token with
      | .error fault => .error fault
      | .ok next => next.run rest

theorem map_linkBack_nil (x : Except GrammarError Path) : x.map (linkBack []) = x := by
  cases x <;> rfl

theorem map_linkBack_cons (s : Segment) (before : List Segment) (x : Except GrammarError Path) :
    x.map (linkBack (s :: before)) = (x.map (link s)).map (linkBack before) := by
  cases x <;> rfl

/-- From a segment begun the reader puts together the chain that the segment begins. -/
theorem run_begun (size : Nat) (before : List Segment) (name : Option String)
    (tokens : List Token) :
    (run ⟨⟨name, .element⟩ :: before, false⟩ tokens).mapError (Fault.error? size) =
      ((chain size name tokens).map (linkBack before)).mapError some := by
  fun_induction chain size name tokens generalizing before with
  | case1 name => rfl
  | case2 name position rest ih =>
      have hrest := ih (⟨name, .array .unbound⟩ :: before)
      rw [map_linkBack_cons] at hrest
      exact hrest
  | case3 => rfl
  | case4 name position next position' rest ih =>
      have hrest := ih (⟨name, .object⟩ :: before)
      rw [map_linkBack_cons] at hrest
      exact hrest
  | case5 name position token rest hname =>
      obtain ⟨next | _ | _, position'⟩ := token
      · exact absurd rfl (hname next position')
      · rfl
      · rfl
  | case6 => rfl

/-- Whatever the tokens are, the reader reads as the recursion on chains does. -/
theorem run_start (size : Nat) (tokens : List Token) :
    (start.run tokens).mapError (Fault.error? size) = (ofTokens size tokens).mapError some := by
  rcases tokens with _ | ⟨⟨name | _ | _, position⟩, rest⟩
  · rfl
  · have hchain := run_begun size [] (some name) rest
    rw [map_linkBack_nil] at hchain
    exact hchain
  · rfl
  · rfl

end Assembly

/-- Reading fails on no tokens that scanning gives, so it fails as scanning does. What
reads token by token reads the same, and is never at a loss on such tokens. -/
theorem parse_follows_scan :
    (∀ size tokens, (Assembly.start.run tokens).mapError (Fault.error? size) =
      (ofTokens size tokens).mapError some) ∧
    ∀ text, text ≠ "" → (∀ e, scan text = .error e → parse text = .error e) ∧
      ∀ tokens, scan text = .ok tokens →
        ∃ p, parse text = .ok p ∧ Assembly.start.run tokens = .ok p := by
  refine ⟨Assembly.run_start, fun text hne => ⟨fun e => parse_of_scan_eq_error hne, ?_⟩⟩
  intro tokens hscan
  obtain ⟨name, steps, htext, htokens⟩ := scan_eq_ok_iff.mp hscan
  have hparse := parse_of_isPathText htext
  refine ⟨_, hparse, ?_⟩
  have hread := Assembly.run_start (byteLength text.toList) tokens
  rw [htokens, ofTokens, chain_tokens _ _ _ htext.2.1] at hread
  rw [htokens]
  exact mapError_eq_ok_iff.mp hread

/-- Brackets come twice in a row here, and a dot after them. -/
theorem parse_follows_scan_nested :
    ∃ tokens p, scan "a[][].b" = .ok tokens ∧ parse "a[][].b" = .ok p ∧
      p = array (some "a") (array none (object none (element (some "b")))) ∧
      Assembly.start.run tokens = .ok p := by
  have htext : IsPathText "a[][].b" "a" [.item .unbound, .item .unbound, .key "b"] := by
    simp [IsPathText, IsName, Step.IsWritten, Step.chars, isNameChar, Index.text]
  have hscan := scan_eq_ok_iff.mpr ⟨_, _, htext, rfl⟩
  obtain ⟨p, hparse, hrun⟩ := (parse_follows_scan.2 "a[][].b" (by decide)).2 _ hscan
  refine ⟨_, p, hscan, hparse, ?_, hrun⟩
  exact Except.ok.inj (hrun.symm.trans rfl)

end Path

end FieldPath
