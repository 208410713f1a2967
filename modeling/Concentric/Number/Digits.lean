/-! Decimal digits of natural and whole numbers, written and read back. -/

namespace Concentric

namespace Digits

def ofNat (n : Nat) : List Char := Nat.toDigits 10 n

def ofInt : Int → List Char
  | .ofNat n => ofNat n
  | .negSucc n => '-' :: ofNat (n + 1)

def text (n : Int) : String := String.ofList (ofInt n)

/-- The number that a row of digit values stands for. -/
def value (ds : List Nat) : Nat := ds.foldl (fun n d => 10 * n + d) 0

def ascii? (c : Char) : Option Nat :=
  if '0' ≤ c ∧ c ≤ '9' then some (c.toNat - '0'.toNat) else none

/-- The ASCII digits in front, and what follows them. -/
def leading : List Char → List Nat × List Char
  | [] => ([], [])
  | c :: rest => match ascii? c with
    | some d => (d :: (leading rest).1, (leading rest).2)
    | none => ([], c :: rest)

end Digits

end Concentric
