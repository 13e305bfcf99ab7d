/-!
Places in a script: half-open ranges of byte positions.
-/

namespace TenantScript

/-- The bytes of a script from `start` up to `stop`, which is not included. -/
structure Span where
  start : Nat
  stop : Nat
  deriving DecidableEq, Inhabited

namespace Span

/-- The span of a node that stands nowhere in a script. -/
def dummy : Span := ⟨0, 0⟩

/-- The number of bytes; a span that stops before it starts has none. -/
def length (s : Span) : Nat := s.stop - s.start

/-- Whether there are no bytes in the span. -/
def isEmpty (s : Span) : Bool := s.stop ≤ s.start

/-- Whether the span says nothing about a place. -/
def isDummy (s : Span) : Bool := s.start == 0 && s.stop == 0

/-- The text of a span, as in `3..8`. -/
def text (s : Span) : String := s!"{s.start}..{s.stop}"

end Span

end TenantScript
