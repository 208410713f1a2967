/-! Binary floating point numbers of 64 bits, as the exact values that they stand for. Every
finite number is a mantissa below 2 ^ 53 times a power of two that is at least -1074, and a real
number is rounded to the nearest of them, a tie going to the even mantissa. -/

namespace Concentric

/-- A finite number is `± mantissa * 2 ^ exponent`. -/
inductive Binary64
  | nan
  | infinite (negative : Bool)
  | finite (negative : Bool) (mantissa : Nat) (exponent : Int)
  deriving DecidableEq, Repr

namespace Binary64

/-- A power; an exponent below zero counts as zero. -/
def power (base : Nat) (exponent : Int) : Nat := Nat.pow base exponent.toNat

/-- The quotient rounded to the nearest whole number, a tie to the even one. -/
def roundHalfEven (num den : Nat) : Nat :=
  let q := num / den
  let r := num % den
  if 2 * r < den then q
  else if den < 2 * r then q + 1
  else if q % 2 = 0 then q else q + 1

def scaleDown (num den : Nat) (e : Int) : Nat × Nat :=
  (num * power 2 (-e), den * power 2 e)

def leadingBit (num den : Nat) : Int :=
  let guess : Int := (num.log2 : Int) - den.log2
  let (n, d) := scaleDown num den guess
  if n < d then guess - 1 else guess

def nearest (negative : Bool) (num den : Nat) : Binary64 :=
  if num = 0 then finite negative 0 (-1074)
  else
    let e := max (leadingBit num den - 52) (-1074)
    let (n, d) := scaleDown num den e
    let m := roundHalfEven n d
    let (m, e) := if m = power 2 53 then (power 2 52, e + 1) else (m, e)
    if e > 971 then infinite negative else finite negative m e

/-- The number nearest to `± digits * 10 ^ exponent`, where `digits` has `count` decimal digits.
Far beyond either end of the range no power of ten is formed. -/
def ofDecimal (negative : Bool) (digits count : Nat) (exponent : Int) : Binary64 :=
  if digits = 0 then finite negative 0 (-1074)
  else if (count : Int) + exponent > 400 then infinite negative
  else if (count : Int) + exponent < -400 then finite negative 0 (-1074)
  else nearest negative (digits * power 10 exponent) (power 10 (-exponent))

def ofInt (n : Int) : Binary64 := nearest (decide (n < 0)) n.natAbs 1

def wholePart? : Binary64 → Option Int
  | finite negative m e =>
    let n : Int := m * power 2 e / power 2 (-e)
    some (if negative then -n else n)
  | _ => none

/-- Where a number lies on the line: nowhere, at one of the ends, or at `num / den`. -/
inductive Place
  | nowhere
  | below
  | above
  | point (num : Int) (den : Nat)
  deriving DecidableEq, Repr

def place : Binary64 → Place
  | nan => .nowhere
  | infinite true => .below
  | infinite false => .above
  | finite negative m e =>
    let n : Int := m * power 2 e
    .point (if negative then -n else n) (power 2 (-e))

/-- Neither end is less than itself, and nowhere is less than nothing. -/
def Place.lt : Place → Place → Bool
  | .nowhere, _ => false
  | _, .nowhere => false
  | .below, .below => false
  | .below, _ => true
  | _, .below => false
  | .above, _ => false
  | _, .above => true
  | .point n d, .point n' d' => n * d' < n' * d

def Place.eq : Place → Place → Bool
  | .below, .below => true
  | .above, .above => true
  | .point n d, .point n' d' => n * d' == n' * d
  | _, _ => false

/-- The difference, rounded; the difference of two equal infinities is no number. -/
def sub (a b : Binary64) : Binary64 :=
  match a, b with
  | infinite s, infinite t => if s = t then nan else infinite s
  | nan, _ => nan
  | _, nan => nan
  | infinite s, _ => infinite s
  | _, infinite s => infinite (!s)
  | finite s m e, finite s' m' e' =>
    let low := min e e'
    let a : Int := m * power 2 (e - low)
    let b : Int := m' * power 2 (e' - low)
    let d := (if s then -a else a) - (if s' then -b else b)
    if d = 0 then finite (s && !s') 0 (-1074)
    else nearest (decide (d < 0)) (d.natAbs * power 2 low) (power 2 (-low))

def opposite : Binary64 → Binary64
  | nan => nan
  | infinite s => infinite (!s)
  | finite s m e => finite (!s) m e

def add (a b : Binary64) : Binary64 := sub a b.opposite

end Binary64

end Concentric
