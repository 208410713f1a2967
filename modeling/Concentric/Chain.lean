import Concentric.Span
import Concentric.Value

/-! Chains: spans from the innermost outwards, each step of an expanding selection. A step may be
one that was given from outside; a chain is built from steps that are new and steps that were
given, and those keep what they were given as. -/

namespace Concentric

/-- A step of a chain; `given` is the number of a step that came from outside. -/
structure Step where
  span : Span
  given : Option Nat := none
  deriving DecidableEq, Repr

/-- The steps of an expanding selection, the innermost first. -/
abbrev Chain := List Step

def Step.fresh (s : Span) : Step := ⟨s, none⟩

namespace Chain

def spans (c : Chain) : List Span := c.map (·.span)

/-- The chain from the first step outwards whose span contains the target. -/
def enclosing (c : Chain) (target : Span) : Chain :=
  c.dropWhile fun s => !s.span.contains target

theorem enclosing_suffix (c : Chain) (target : Span) : c.enclosing target <:+ c :=
  List.dropWhile_suffix _

def root? (c : Chain) : Option Step := c.getLast?

def depth (c : Chain) : Nat := c.length

end Chain

/-! ## As plain data -/

def Position.toValue (p : Position) : Value :=
  .map [("line", .whole p.line), ("character", .whole p.character)]

def Span.toValue (s : Span) : Value :=
  .map [("start", s.start.toValue), ("end", s.stop.toValue)]

def Chain.toValue (c : Chain) : Value :=
  .map [("ranges", .list (c.spans.map Span.toValue))]

end Concentric
