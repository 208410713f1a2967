import Concentric.Number.Digits

/-! Positions in a text: a line and a character on it, both counted from zero. Positions are
ordered by line first. -/

namespace Concentric

@[ext] structure Position where
  line : Nat
  character : Nat := 0
  deriving DecidableEq, Repr, Inhabited

namespace Position

/-- A coordinate below zero counts as zero. -/
def clamped (line character : Int) : Position := ⟨line.toNat, character.toNat⟩

def translate (p : Position) (lines characters : Int) : Position :=
  clamped (p.line + lines) (p.character + characters)

def text (p : Position) : String :=
  Digits.text p.line ++ ":" ++ Digits.text p.character

/-! ## Order -/

instance : LE Position where
  le p q := p.line < q.line ∨ (p.line = q.line ∧ p.character ≤ q.character)

instance : LT Position where
  lt p q := p.line < q.line ∨ (p.line = q.line ∧ p.character < q.character)

theorem le_def {p q : Position} :
    p ≤ q ↔ p.line < q.line ∨ (p.line = q.line ∧ p.character ≤ q.character) := Iff.rfl

theorem lt_def {p q : Position} :
    p < q ↔ p.line < q.line ∨ (p.line = q.line ∧ p.character < q.character) := Iff.rfl

instance (p q : Position) : Decidable (p ≤ q) := decidable_of_iff' _ le_def

instance (p q : Position) : Decidable (p < q) := decidable_of_iff' _ lt_def

theorem le_refl (p : Position) : p ≤ p := Or.inr ⟨rfl, Nat.le_refl _⟩

theorem le_trans {p q r : Position} (h : p ≤ q) (h' : q ≤ r) : p ≤ r := by
  simp only [le_def] at *
  omega

theorem le_antisymm {p q : Position} (h : p ≤ q) (h' : q ≤ p) : p = q := by
  simp only [le_def] at *
  ext <;> omega

theorem le_total (p q : Position) : p ≤ q ∨ q ≤ p := by
  simp only [le_def]
  omega

theorem line_le {p q : Position} (h : p ≤ q) : p.line ≤ q.line := by
  rw [le_def] at h
  omega

theorem not_lt {p q : Position} : ¬ p < q ↔ q ≤ p := by
  simp only [le_def, lt_def]
  omega

def sort (ps : List Position) : List Position := ps.mergeSort fun p q => decide (p ≤ q)

end Position

end Concentric
