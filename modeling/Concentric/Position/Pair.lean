import Concentric.Position.Reading

/-! A position as a pair of two numbers: indexing, slicing and searching. -/

namespace Concentric

/-! ## Slices -/

/-- A bound of a slice: a whole number of any kind, or none. -/
def Value.sliceBound : Value → Except Failure (Option Int)
  | .nothing => .ok none
  | v => match v.numeral? >>= Numeral.whole? with
    | some n => .ok (some n)
    | none => .error (.mismatch .use)

namespace Slice

/-- A bound counted from the end if negative, and kept between `low` and `high`. -/
def adjust (length low high n : Int) : Int :=
  max low (min high (if n < 0 then n + length else n))

/-- The first index of a slice and the one that it stops before. -/
def bounds (length : Int) (start stop : Option Int) (step : Int) : Int × Int :=
  let low : Int := if step < 0 then -1 else 0
  let high := if step < 0 then length - 1 else length
  let ends := if step < 0 then (high, low) else (low, high)
  (match start with | some n => adjust length low high n | none => ends.1,
    match stop with | some n => adjust length low high n | none => ends.2)

def indices (length : Nat) (start stop : Option Int) (step : Int) : List Nat :=
  let (first, limit) := bounds length start stop step
  let reached (i : Int) : Bool := if step < 0 then limit < i else i < limit
  (List.range length).filterMap fun (k : Nat) =>
    let i := first + step * (k : Int)
    if reached i then some i.toNat else none

def take {α : Type} (xs : List α) (start stop step : Value) : Except Failure (List α) := do
  let step ← step.sliceBound
  if step = some 0 then throw (.refused .zeroStep)
  let start ← start.sliceBound
  let stop ← stop.sliceBound
  return (indices xs.length start stop (step.getD 1)).filterMap (xs[·]?)

end Slice

namespace Position

def toList (p : Position) : List Nat := [p.line, p.character]

def matches? (v : Value) (n : Nat) : Bool :=
  match v.numeral? with
  | some x => x.eq (.whole n)
  | none => false

/-- The coordinate at an index that equals 0 or 1. -/
def get (p : Position) (index : Value) : Except Failure Nat :=
  if matches? index 0 then .ok p.line
  else if matches? index 1 then .ok p.character
  else .error (.outside .pair)

def has (p : Position) (v : Value) : Bool := p.toList.any (matches? v)

def indexOf (p : Position) (v : Value) : Except Failure Nat :=
  match p.toList.findIdx? (matches? v) with
  | some i => .ok i
  | none => .error (.refused .absentCoordinate)

def count (p : Position) (v : Value) : Nat := p.toList.countP (matches? v)

def slice (p : Position) (start stop step : Value) : Except Failure (List Nat) :=
  Slice.take p.toList start stop step

end Position

end Concentric
