import FieldPath.Path.Basic

/-!
# Texts of paths

A name is set off by a dot unless it comes first, and an array segment ends in
brackets, with the index between them if it is bound.
-/

namespace FieldPath

def Index.text : Index → String
  | bound position => "[" ++ Nat.repr position ++ "]"
  | unbound | wildcard => "[]"

def SegmentKind.text : SegmentKind → String
  | array index => index.text
  | object | element => ""

namespace Segment

/-- The text of a segment that is not the first. -/
def text (s : Segment) : String :=
  (match s.name with
    | none => ""
    | some name => "." ++ name) ++ s.kind.text

def firstText (s : Segment) : String := s.name.getD "" ++ s.kind.text

end Segment

namespace Path

/-- The text of a chain that other segments stand before. -/
def textAfter : Path → String
  | last s => s.text
  | link s next => s.text ++ next.textAfter

def text : Path → String
  | last s => s.firstText
  | link s next => s.firstText ++ next.textAfter

end Path

end FieldPath
