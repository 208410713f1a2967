import Concentric.Chain
import Concentric.Outline

/-! Chains of headings: for every section around a line its content and the whole of it. The
section of the closest heading is cut off before its first subsection, so that a selection grows
from the text of a heading's own to the text with all its subsections. -/

namespace Concentric.Headings

def covers (line : Nat) (h : Heading) : Bool :=
  decide (h.span.start.line ≤ line) && decide (line ≤ h.span.stop.line)

/-- The items whose headings' sections have the line, the closest heading last. -/
def around {α : Type} (heading : α → Heading) (line : Nat) (xs : List α) :
    Except Failure (List α) := do
  let keyed ← (xs.filter fun x => covers line (heading x)).mapM fun x => do
    return (← (heading x).line.minus line, x)
  return (keyed.mergeSort fun a b => !b.1.lt a.1).map (·.2)

def isHeadingLine (outline : List Heading) (line : Nat) : Bool :=
  outline.any fun h => h.line.isNumber line

def children (h : Heading) (outline : List Heading) : List Heading :=
  outline.filter fun c => h.span.contains c.span && decide (h.span.start.line < c.span.start.line)

/-- The heading with the least line, of those with one line the first. -/
def firstOf (h : Heading) : List Heading → Except Failure Heading
  | [] => .ok h
  | c :: cs => do
    if ← c.line.lessThan h.line then firstOf c cs else firstOf h cs

/-- The end of the line before the first subsection. -/
def boundary (d : Document) (h : Heading) (outline : List Heading) :
    Except Failure (Option Position) :=
  match children h outline with
  | [] => .ok none
  | c :: cs => do
    let first ← firstOf c cs
    let length ← d.lineLength ((first.span.start.line : Int) - 1)
    return some (first.span.start.translate (-1) length)

/-- The steps of one heading before those around it. On its own line the closest heading gives
its section, cut off and whole; else a heading gives its content and its section, and the closest
one its content cut off before these. A chain that does not contain the section is left out. -/
def extend (h : Heading) (closest onLine : Bool) (outer : Chain) (cut : Option Position) : Chain :=
  let full := h.span
  let content := Span.between (full.start.translate 1 0) full.stop
  if onLine && closest then
    (cut.map fun p => Step.fresh (full.withEnds none (some p))).toList ++ .fresh full :: outer
  else
    let outer := match outer with
      | [] => []
      | s :: _ => if s.span.contains full then outer else []
    let partialContent :=
      if closest then (cut.map fun p => Step.fresh (content.withEnds none (some p))).toList else []
    partialContent ++ .fresh content :: .fresh full :: outer

def build (d : Document) (outline : List Heading) (onLine : Bool) (outer : Chain) :
    List Heading → Except Failure Chain
  | [] => .ok outer
  | [h] => do return extend h true onLine outer (← boundary d h outline)
  | h :: hs => build d outline onLine (extend h false onLine outer none) hs

/-- The chain of headings around a position; outside any section there is none. -/
def chain (d : Document) (outline : List Heading) (p : Position) : Except Failure Chain := do
  let hs ← around id p.line outline
  build d outline (isHeadingLine outline p.line) [] hs

end Concentric.Headings
