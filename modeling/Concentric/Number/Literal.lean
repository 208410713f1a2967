import Concentric.Number.Binary64
import Concentric.Number.Digits
import Concentric.Unicode.Blank
import Concentric.Unicode.Digit

/-! Number literals. A whole number has an optional sign and decimal digits of any script, with
single underscores between digits, blanks around it, and at most 4300 digits. -/

namespace Concentric

inductive LiteralFault
  | malformed
  | tooLong (digits : Nat)
  deriving DecidableEq, Repr

namespace Literal

def digitLimit : Nat := 4300

/-- A blank as it may stand around a number: of the ASCII blanks only those of layout count. -/
def isGap (c : Char) : Bool :=
  (9 ≤ c.toNat && c.toNat ≤ 13) || c == ' '

/-- A character beyond ASCII stands for what it means in a number: a blank for a space, a decimal
digit for its value, and anything else for nothing that a number holds. -/
def plain (c : Char) : Char :=
  if c.toNat < 127 then c
  else if Unicode.isBlank c then ' '
  else match Unicode.digitValue? c with
    | some d => Nat.digitChar d
    | none => '?'

/-- The digits in front, and the rest. A digit has to come first, and after an underscore. -/
def digitRun (afterDigit : Bool) : List Char → Option (List Nat × List Char)
  | [] => if afterDigit then some ([], []) else none
  | c :: rest => match Digits.ascii? c with
    | some d => (digitRun true rest).map fun r => (d :: r.1, r.2)
    | none =>
      if c = '_' ∧ afterDigit then digitRun false rest
      else if afterDigit then some ([], c :: rest) else none

def sign : List Char → Bool × List Char
  | '-' :: rest => (true, rest)
  | '+' :: rest => (false, rest)
  | cs => (false, cs)

def readAscii (cs : List Char) : Except LiteralFault Int :=
  let (negative, body) := sign (cs.dropWhile isGap)
  match digitRun false body with
  | none => .error .malformed
  | some (ds, rest) =>
    if digitLimit < ds.length then .error (.tooLong ds.length)
    else if rest.dropWhile isGap = [] then
      let n : Int := Digits.value ds
      .ok (if negative then -n else n)
    else .error .malformed

def read (cs : List Char) : Except LiteralFault Int := readAscii (cs.map plain)

/-- What remains of a decimal number after its sign, from its parts. -/
def real (negative : Bool) (whole fraction : List Nat) (exponent : Int) : Binary64 :=
  let ds := whole ++ fraction
  Binary64.ofDecimal negative (Digits.value ds) (ds.dropWhile (· == 0)).length
    (exponent - fraction.length)

/-- An exponent mark with its number, and the rest; with no number after it the mark is no mark. -/
def exponent? : List Char → Option (Int × List Char)
  | c :: rest =>
    if c = 'e' ∨ c = 'E' then
      let (negative, body) := sign rest
      match Digits.leading body with
      | ([], _) => none
      | (ds, after) => some (if negative then -(Digits.value ds : Int) else Digits.value ds, after)
    else none
  | [] => none

def exponent (cs : List Char) : Int × List Char := (exponent? cs).getD (0, cs)

def readReal? (cs : List Char) : Option Binary64 :=
  let (negative, body) := sign cs
  match body with
  | ['n', 'a', 'n'] => some .nan
  | ['i', 'n', 'f'] => some (.infinite negative)
  | _ =>
    let (whole, rest) := Digits.leading body
    let (fraction, rest) := match rest with
      | '.' :: r => Digits.leading r
      | r => ([], r)
    if whole ++ fraction = [] then none
    else match exponent rest with
      | (e, []) => some (real negative whole fraction e)
      | _ => none

end Literal

end Concentric
