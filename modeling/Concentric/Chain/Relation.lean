import Concentric.Span

/-! How the span of a block lies to the innermost span of a chain: the first relation that holds,
in the order of the constructors. -/

namespace Concentric

inductive Relation
  | equal
  | contains
  | sameLines
  | extendsOneLine
  | sharedEndLine
  | disjoint
  deriving DecidableEq, Repr

namespace Relation

def name : Relation → String
  | contains => "contains"
  | equal => "equal"
  | sameLines => "same_lines"
  | extendsOneLine => "extends_one_line"
  | sharedEndLine => "shared_end_line"
  | disjoint => "disjoint"

def classify (block parent : Span) : Relation :=
  if parent = block then equal
  else if parent.contains block then contains
  else if block.sameLines parent then sameLines
  else if parent.stop.line + 1 = block.stop.line then extendsOneLine
  else if parent.stop.line = block.stop.line then sharedEndLine
  else disjoint

theorem stop_of_extends {s p : Span} (h : classify s p = .extendsOneLine) :
    p.stop.line + 1 = s.stop.line := by
  unfold classify at h
  grind

theorem stop_of_sharedEnd {s p : Span} (h : classify s p = .sharedEndLine) :
    p.stop.line = s.stop.line := by
  unfold classify at h
  grind

end Relation

end Concentric
