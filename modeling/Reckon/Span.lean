/-!
# Spans

A span is a half-open range of byte offsets into the text of an expression.  Its ends are in order
by construction, so `length` is the number of bytes it covers and `union` is the smallest span
around two others.
-/

namespace Reckon

/-- The bytes from `start` up to, not including, `stop`. -/
structure Span where
  start : Nat
  stop : Nat
  ordered : start ≤ stop
deriving DecidableEq

namespace Span

/-- The span between two offsets, given in either order. -/
def between (a b : Nat) : Span := ⟨min a b, max a b, by omega⟩

/-- The span of `length` bytes from `start`. -/
def ofLength (start length : Nat) : Span := ⟨start, start + length, by omega⟩

def length (s : Span) : Nat := s.stop - s.start

def isEmpty (s : Span) : Bool := s.start == s.stop

/-- The smallest span that encloses both. -/
def union (s t : Span) : Span :=
  ⟨min s.start t.start, max s.stop t.stop, by have := s.ordered; have := t.ordered; omega⟩

/-- The smallest span that encloses all, if there are any. -/
def hull : List Span → Option Span
  | [] => none
  | s :: ss => some (ss.foldl union s)

/-- Two spans overlap when each starts before the other stops. -/
def overlaps (s t : Span) : Bool := decide (s.start < t.stop) && decide (t.start < s.stop)

instance : ToString Span := ⟨fun s => s!"{s.start}..{s.stop}"⟩

end Span

end Reckon
