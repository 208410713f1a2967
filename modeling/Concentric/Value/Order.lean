import Concentric.Failure

/-! Arithmetic on values. Numbers are compared with numbers, texts with texts and octets with
octets, and a difference needs two numbers; anything else is a mismatch. -/

namespace Concentric.Value

def lessThan (a b : Value) : Except Failure Bool :=
  match a.numeral?, b.numeral? with
  | some x, some y => .ok (x.lt y)
  | _, _ => match a, b with
    | text s, text t => .ok (decide (s < t))
    | octets s, octets t => .ok (decide (s.map (·.toNat) < t.map (·.toNat)))
    | _, _ => .error (.mismatch (.comparison a.kindName b.kindName))

def minus (v : Value) (n : Int) : Except Failure Numeral :=
  match v.numeral? with
  | none => .error (.mismatch .use)
  | some x => match x.sub? (.whole n) with
    | some d => .ok d
    | none => .error .infinite

def plus (v : Value) (n : Int) : Except Failure Numeral :=
  match v.numeral? with
  | none => .error (.mismatch .use)
  | some x => match x.add? (.whole n) with
    | some d => .ok d
    | none => .error .infinite

def equals (v : Value) (n : Numeral) : Bool :=
  match v.numeral? with
  | some x => x.eq n
  | none => false

@[simp] theorem equals_whole (m n : Int) : (whole m).equals (.whole n) = decide (m = n) := by
  simp [equals, numeral?]

def isNumber (v : Value) (n : Int) : Bool := v.equals (.whole n)

@[simp] theorem isNumber_whole (m n : Int) : (whole m).isNumber n = decide (m = n) := by
  simp [isNumber]

/-- What stands first in a value, where a number of its own is no place to look in. -/
def first : Value → Except Failure Value
  | list (v :: _) | tuple (v :: _) => .ok v
  | text s => match s.toList with
    | c :: _ => .ok (.text (String.ofList [c]))
    | [] => .error (.outside .emptyList)
  | octets (b :: _) => .ok (.whole b.toNat)
  | position p => .ok (.whole p.line)
  | map _ => .error .missingKey
  | list [] | tuple [] | octets [] => .error (.outside .emptyList)
  | _ => .error (.mismatch .use)

end Concentric.Value
