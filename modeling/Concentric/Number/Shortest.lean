import Concentric.Number.Binary64
import Concentric.Number.Digits

/-! The shortest decimal that reads back as a given number. The reals that round to a number form
an interval. On the grids of one, two, up to seventeen significant digits the two neighbours of
the number are tried, and the first grid with a neighbour in the interval gives the digits: of
two hits the nearer, of two equally near the even one. -/

namespace Concentric

/-- `digits * 10 ^ exponent`. -/
structure Decimal where
  digits : Nat
  exponent : Int
  deriving DecidableEq, Repr

namespace Decimal

open Binary64 (power)

def compareScaled (a : Nat) (i : Int) (n : Nat) (j : Int) : Ordering :=
  compare (a * power 10 i * power 2 (-j)) (n * power 2 j * power 10 (-i))

/-- The decimal lies among the reals that round to `m * 2 ^ e`. Below a power of two the gap is
half as wide, and the ends belong to an even mantissa. -/
def readsBack (m : Nat) (e : Int) (d : Decimal) : Bool :=
  let low := if m = power 2 52 ∧ e > -1074 then 4 * m - 1 else 4 * m - 2
  let ends := m % 2 == 0
  let atLow := compareScaled d.digits d.exponent low (e - 2)
  let atHigh := compareScaled d.digits d.exponent (4 * m + 2) (e - 2)
  (atLow == .gt || ends && atLow == .eq) && (atHigh == .lt || ends && atHigh == .eq)

def leadingDigit (m : Nat) (e : Int) : Int :=
  let guess := (e + m.log2) * 30103 / 100000
  if compareScaled 1 (guess + 1) m e != .gt then guess + 1
  else if compareScaled 1 guess m e != .gt then guess
  else guess - 1

def gridFloor (m : Nat) (e s : Int) : Nat :=
  m * power 2 e * power 10 (-s) / (power 2 (-e) * power 10 s)

/-- The neighbour of `m * 2 ^ e` on the grid of `10 ^ s` that reads back, if one does. -/
def onGrid? (m : Nat) (e s : Int) : Option Decimal :=
  let d := gridFloor m e s
  let lower : Decimal := ⟨d, s⟩
  let upper : Decimal := ⟨d + 1, s⟩
  match readsBack m e lower, readsBack m e upper with
  | true, false => some lower
  | false, true => some upper
  | false, false => none
  | true, true => match compareScaled (2 * d + 1) s (2 * m) e with
    | .gt => some lower
    | .lt => some upper
    | .eq => some (if d % 2 = 0 then lower else upper)

def strip : Nat → Decimal → Decimal
  | 0, d => d
  | fuel + 1, d =>
    if d.digits % 10 = 0 then strip fuel ⟨d.digits / 10, d.exponent + 1⟩ else d

def shortest (m : Nat) (e : Int) : Decimal :=
  let lead := leadingDigit m e
  let found := (List.range 17).findSome? fun (k : Nat) => onGrid? m e (lead - (k : Int))
  strip 17 (found.getD ⟨gridFloor m e (lead - 16), lead - 16⟩)

/-- The layout of a decimal: positional while the exponent of the leading digit is from -4 to 15,
with a point in every case; else with a power of ten of two digits or more and its sign. -/
def layout (d : Decimal) : List Char :=
  let ds := Digits.ofNat d.digits
  let lead : Int := d.exponent + ds.length - 1
  if -4 ≤ lead ∧ lead < 16 then
    if lead < 0 then '0' :: '.' :: (List.replicate (-lead - 1).toNat '0' ++ ds)
    else
      let whole := lead.toNat + 1
      if ds.length ≤ whole then ds ++ List.replicate (whole - ds.length) '0' ++ ['.', '0']
      else ds.take whole ++ '.' :: ds.drop whole
  else
    let power := Digits.ofNat lead.natAbs
    let fraction := match ds.tail with
      | [] => []
      | r => '.' :: r
    ds.take 1 ++ fraction ++ 'e' :: (if lead < 0 then '-' else '+') ::
      (if power.length < 2 then '0' :: power else power)

end Decimal

namespace Binary64

def text : Binary64 → String
  | nan => "nan"
  | infinite negative => if negative then "-inf" else "inf"
  | finite negative m e =>
    let body := if m = 0 then ['0', '.', '0'] else (Decimal.shortest m e).layout
    String.ofList (if negative then '-' :: body else body)

end Binary64

end Concentric
