/-! # Source spans -/

namespace BigLower

/-- A half-open stretch of source text, by offsets. -/
structure Span where
  start : Nat := 0
  stop : Nat := 0
deriving DecidableEq

namespace Span

/-- The span of a node that stands for no source text. -/
def dummy : Span := {}

def len (s : Span) : Nat := s.stop - s.start

def isEmpty (s : Span) : Bool := s.start == s.stop

def merge (s t : Span) : Span :=
  ⟨min s.start t.start, max s.stop t.stop⟩

def describe (s : Span) : String := s!"{s.start}..{s.stop}"

end Span

end BigLower
