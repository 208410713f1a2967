import Concentric.Chain.Relation
import Concentric.Proofs.Sections

/-! Rows: whole lines as pairs of line numbers. The spans of rows lie to each other as the rows do,
so that chains of them can be compared by their numbers alone. -/

namespace Concentric

/-- Lines from a first to a last. -/
structure Rows where
  first : Nat
  last : Nat
  deriving DecidableEq

/-- The two ends of a step. -/
def Step.ends (s : Step) : Position × Position := (s.span.start, s.span.stop)

namespace Rows

/-- The rows lie within others. -/
def Within (r p : Rows) : Prop := p.first ≤ r.first ∧ r.last ≤ p.last

instance (r p : Rows) : Decidable (r.Within p) := inferInstanceAs (Decidable (_ ∧ _))

/-- The start of the first line and the end of the last. -/
def ends (d : Document) (r : Rows) : Position × Position := (⟨r.first, 0⟩, d.lineEnd r.last)

/-- The span of all the lines. -/
def span (d : Document) (r : Rows) : Span := .between ⟨r.first, 0⟩ (d.lineEnd r.last)

/-- A step of all the lines. -/
def step (d : Document) (r : Rows) : Step := .fresh (r.span d)

/-- The rows are lines of the document, the last not above the first. -/
structure Proper (d : Document) (r : Rows) : Prop where
  first_le_last : r.first ≤ r.last
  last_lt : r.last < d.lineCount

/-- The rows are lines of the document and have the line. -/
structure At (d : Document) (line : Nat) (r : Rows) : Prop where
  first_le : r.first ≤ line
  le_last : line ≤ r.last
  last_lt : r.last < d.lineCount

section

variable {d : Document} {line : Nat} {r p : Rows}

theorem At.proper (h : r.At d line) : r.Proper d := ⟨Nat.le_trans h.first_le h.le_last, h.last_lt⟩

theorem Proper.start_le (h : r.Proper d) : (⟨r.first, 0⟩ : Position) ≤ d.lineEnd r.last := by
  have hle := h.first_le_last
  rw [Position.le_def, Document.lineEnd_line h.last_lt]
  dsimp only
  omega

theorem Proper.start_eq (h : r.Proper d) : (r.span d).start = ⟨r.first, 0⟩ := by
  unfold span
  rw [Span.between_of_le h.start_le]

theorem Proper.stop_eq (h : r.Proper d) : (r.span d).stop = d.lineEnd r.last := by
  unfold span
  rw [Span.between_of_le h.start_le]

theorem Proper.stop_line (h : r.Proper d) : (r.span d).stop.line = r.last := by
  rw [h.stop_eq, Document.lineEnd_line h.last_lt]

theorem Proper.ends_eq (h : r.Proper d) : (r.step d).ends = r.ends d := by
  unfold Step.ends step ends Step.fresh
  rw [h.start_eq, h.stop_eq]

theorem lineEnd_le_iff (hr : r.last < d.lineCount) (hp : p.last < d.lineCount) :
    d.lineEnd r.last ≤ d.lineEnd p.last ↔ r.last ≤ p.last := by
  constructor
  · intro h
    rw [Position.le_def, Document.lineEnd_line hr, Document.lineEnd_line hp] at h
    omega
  · intro h
    rcases Nat.lt_or_eq_of_le h with hlt | heq
    · refine Or.inl ?_
      rw [Document.lineEnd_line hr, Document.lineEnd_line hp]
      exact hlt
    · rw [heq]
      exact Position.le_refl _

theorem contains_span_iff (hr : r.Proper d) (hp : p.Proper d) :
    (p.span d).contains (r.span d) = true ↔ r.Within p := by
  rw [Span.contains_iff, hr.start_eq, hr.stop_eq, hp.start_eq, hp.stop_eq,
    lineEnd_le_iff hr.last_lt hp.last_lt]
  unfold Within
  refine and_congr_left fun _ => ?_
  rw [Position.le_def]
  dsimp only
  omega

theorem span_inj (hr : r.Proper d) (hp : p.Proper d) : r.span d = p.span d ↔ r = p := by
  constructor
  · intro h
    have hstart := congrArg (·.start.line) h
    have hstop := congrArg (·.stop.line) h
    simp only [hr.start_eq, hp.start_eq, hr.stop_line, hp.stop_line] at hstart hstop
    cases r
    cases p
    exact congr (congrArg mk hstart) hstop
  · intro h
    rw [h]

theorem sameLines_span_iff (hr : r.Proper d) (hp : p.Proper d) :
    (r.span d).sameLines (p.span d) = true ↔ r = p := by
  unfold Span.sameLines
  rw [hr.start_eq, hp.start_eq, hr.stop_line, hp.stop_line]
  cases r
  cases p
  simp

/-- How rows lie to others. Rows on the same lines are equal. -/
def relation (r p : Rows) : Relation :=
  if p = r then .equal
  else if r.Within p then .contains
  else if p.last + 1 = r.last then .extendsOneLine
  else if p.last = r.last then .sharedEndLine
  else .disjoint

/-- The spans of rows lie to each other as the rows do. -/
theorem classify_span (hr : r.Proper d) (hp : p.Proper d) :
    Relation.classify (r.span d) (p.span d) = relation r p := by
  unfold Relation.classify relation
  simp only [span_inj hp hr, contains_span_iff hr hp, sameLines_span_iff hr hp, hp.stop_line,
    hr.stop_line]
  split
  · rfl
  · next hne =>
    split
    · rfl
    · rw [if_neg fun h => hne h.symm]

end

end Rows

namespace Outline

variable {d : Document} {h : Heading} {rest : List Heading}

theorem Sectioned.span_eq (hs : Sectioned d (h :: rest)) :
    h.span = Rows.span d ⟨h.top, h.bottom⟩ := by
  have hlt := ((hs.le_bottom_iff h.bottom).mp (Nat.le_refl _)).1
  have hproper : Rows.Proper d ⟨h.top, h.bottom⟩ := ⟨hs.top_le_bottom, hlt⟩
  ext1
  · rw [hproper.start_eq, hs.start_eq]
  · rw [hproper.stop_eq, hs.stop_eq]

end Outline

end Concentric
