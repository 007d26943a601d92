/-!
# Field paths

A path is a nonempty chain of segments. Each segment may look up a key first,
and its kind then says what the next hop expects of the value reached: a
mapping, a sequence, or nothing, because this is the value meant.

Paths built by hand may break that reading: an element may have a segment after
it, and the last segment may be of any kind.
-/

namespace FieldPath

/-- Which elements of a sequence a segment visits. The unbound and the wildcard
state both mean all of them. -/
inductive Index where
  | unbound
  | wildcard
  | bound (position : Nat)
  deriving DecidableEq

namespace Index

def bound? : Index → Option Nat
  | bound position => some position
  | _ => none

def isWildcard : Index → Bool
  | bound _ => false
  | _ => true

end Index

inductive SegmentKind where
  | object
  | array (index : Index)
  | element
  deriving DecidableEq

namespace SegmentKind

def isArray : SegmentKind → Bool
  | array _ => true
  | _ => false

def expand : SegmentKind → SegmentKind
  | array .unbound => array .wildcard
  | kind => kind

end SegmentKind

structure Segment where
  name : Option String
  kind : SegmentKind
  deriving DecidableEq

namespace Segment

def withKind (s : Segment) (kind : SegmentKind) : Segment := { s with kind := kind }

def expand (s : Segment) : Segment := s.withKind s.kind.expand

end Segment

inductive Path where
  | last (segment : Segment)
  | link (segment : Segment) (next : Path)
  deriving DecidableEq

namespace Path

/-- The path of a single segment that addresses the value it reaches. -/
def element (name : Option String) : Path := .last ⟨name, .element⟩

def object (name : Option String) (next : Path) : Path := .link ⟨name, .object⟩ next

def array (name : Option String) (next : Path) : Path :=
  .link ⟨name, .array .unbound⟩ next

def arrayAt (name : Option String) (index : Nat) (next : Path) : Path :=
  .link ⟨name, .array (.bound index)⟩ next

def head : Path → Segment
  | last s => s
  | link s _ => s

def next? : Path → Option Path
  | last _ => none
  | link _ next => some next

def segments : Path → List Segment
  | last s => [s]
  | link s next => s :: next.segments

def depth (p : Path) : Nat := p.segments.length

def hasArray (p : Path) : Bool := p.segments.any (·.kind.isArray)

/-- The part of the chain that is its last segment alone. -/
def tail : Path → Path
  | last s => last s
  | link _ next => next.tail

/-- The part of the chain that is its last two segments. -/
def lastParent? : Path → Option Path
  | last _ => none
  | link s (last t) => some (link s (last t))
  | link _ (link t next) => (link t next).lastParent?

def map (f : Segment → Segment) : Path → Path
  | last s => last (f s)
  | link s next => link (f s) (next.map f)

def expand (p : Path) : Path := p.map Segment.expand

/-- The first `n` segments, of which there must be one at least. Where the chain
is cut, the segment before the cut becomes an element. -/
def truncate : Nat → Path → Option Path
  | 0, _ => none
  | _ + 1, last s => some (last s)
  | 1, link s _ => some (last (s.withKind .element))
  | n + 2, link s next => (next.truncate (n + 1)).map (link s)

def after (before : List Segment) (p : Path) : Path := before.foldr link p

def modify? (f : Segment → Segment) : Nat → Path → Option Path
  | 0, last s => some (last (f s))
  | 0, link s next => some (link (f s) next)
  | _ + 1, last _ => none
  | n + 1, link s next => (next.modify? f n).map (link s)

/-- Drops what follows the segment at position `n`, which keeps its kind. -/
def cut? : Nat → Path → Option Path
  | 0, p => some (last p.head)
  | _ + 1, last _ => none
  | n + 1, link s next => (next.cut? n).map (link s)

def append (p q : Path) : Path := q.after p.segments

end Path

end FieldPath
