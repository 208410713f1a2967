/-! Sets of code points, given by the closed ranges that make them up. -/

namespace Concentric.Unicode

/-- A set of code points as closed ranges. -/
structure Ranges where
  pairs : List (Nat × Nat)

def Ranges.has (s : Ranges) (c : Char) : Bool :=
  s.pairs.any fun r => r.1 ≤ c.toNat && c.toNat ≤ r.2

theorem Ranges.has_iff {s : Ranges} {c : Char} :
    s.has c = true ↔ ∃ r ∈ s.pairs, r.1 ≤ c.toNat ∧ c.toNat ≤ r.2 := by
  simp [Ranges.has]

end Concentric.Unicode
