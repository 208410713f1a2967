import Concentric.Position

/-! Spans: the texts between two positions, the first never after the second. -/

namespace Concentric

@[ext] structure Span where
  start : Position
  stop : Position
  start_le_stop : start ≤ stop
  deriving DecidableEq, Repr

namespace Span

/-- The span between two positions, whichever comes first. -/
def between (p q : Position) : Span :=
  if h : p ≤ q then ⟨p, q, h⟩
  else ⟨q, p, (Position.le_total p q).resolve_left h⟩

@[simp] theorem between_of_le {p q : Position} (h : p ≤ q) : between p q = ⟨p, q, h⟩ := by
  simp [between, h]

theorem between_comm (p q : Position) : between p q = between q p := by
  unfold between
  split <;> split
  · next h h' => cases Position.le_antisymm h h'; rfl
  · rfl
  · rfl
  · next h h' => exact absurd ((Position.le_total p q).resolve_left h) h'

def isEmpty (s : Span) : Bool := s.start == s.stop

def lineCount (s : Span) : Nat := s.stop.line - s.start.line + 1

/-- Both ends belong to a span. -/
def hasPosition (s : Span) (p : Position) : Bool := decide (s.start ≤ p) && decide (p ≤ s.stop)

/-- The other span lies within this one, ends included. -/
def contains (s t : Span) : Bool := decide (s.start ≤ t.start) && decide (t.stop ≤ s.stop)

theorem contains_iff {s t : Span} : s.contains t = true ↔ s.start ≤ t.start ∧ t.stop ≤ s.stop := by
  simp [contains]

def sameLines (s t : Span) : Bool :=
  s.start.line == t.start.line && s.stop.line == t.stop.line

def withEnds (s : Span) (start stop : Option Position) : Span :=
  between (start.getD s.start) (stop.getD s.stop)

def text (s : Span) : String := s.start.text ++ "-" ++ s.stop.text

end Span

end Concentric
