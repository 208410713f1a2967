import Concentric.Number.Binary64

/-! Numerals: whole numbers, truth values that count as 0 and 1, and floating point numbers. They
are compared by their exact values, whatever their kinds. -/

namespace Concentric

inductive Numeral
  | whole (n : Int)
  | truth (b : Bool)
  | real (x : Binary64)
  deriving DecidableEq, Repr

namespace Numeral

instance : Inhabited Numeral := ⟨.whole 0⟩

def whole? : Numeral → Option Int
  | whole n => some n
  | truth b => some (if b then 1 else 0)
  | real _ => none

def place : Numeral → Binary64.Place
  | whole n => .point n 1
  | truth b => .point (if b then 1 else 0) 1
  | real x => x.place

/-- Nothing is less than no number, and no number is less than anything. -/
def lt (a b : Numeral) : Bool := a.place.lt b.place

def eq (a b : Numeral) : Bool := a.place.eq b.place

def le (a b : Numeral) : Bool := a.lt b || a.eq b

@[simp] theorem lt_whole (a b : Int) : (whole a).lt (whole b) = decide (a < b) := by
  simp [lt, place, Binary64.Place.lt]

@[simp] theorem eq_whole (a b : Int) : (whole a).eq (whole b) = decide (a = b) := by
  simp [eq, place, Binary64.Place.eq, Bool.beq_eq_decide_eq]

@[simp] theorem le_whole (a b : Int) : (whole a).le (whole b) = decide (a ≤ b) := by
  simp only [le, lt_whole, eq_whole, ← Bool.decide_or]
  congr 1
  exact propext (by omega)

/-- The numeral as a floating point number; a whole number that is too large has none. -/
def real? : Numeral → Option Binary64
  | real x => some x
  | n => match n.whole?.map Binary64.ofInt with
    | some (.finite s m e) => some (.finite s m e)
    | _ => none

/-- The difference: whole if both are, else floating and rounded. -/
def sub? (a b : Numeral) : Option Numeral :=
  match a.whole?, b.whole? with
  | some x, some y => some (whole (x - y))
  | _, _ => do return real (Binary64.sub (← a.real?) (← b.real?))

def add? (a b : Numeral) : Option Numeral :=
  match a.whole?, b.whole? with
  | some x, some y => some (whole (x + y))
  | _, _ => do return real (Binary64.add (← a.real?) (← b.real?))

def next (n : Numeral) : Numeral := (n.add? (.whole 1)).getD n

@[simp] theorem next_whole (n : Int) : (whole n).next = whole (n + 1) := rfl

end Numeral

end Concentric
