import Concentric.Json.Text
import Concentric.Failure

/-! Writing JSON documents: two more spaces for every level, one entry a line, and the entries of
a map in their own order or sorted by key. Tuples are written as lists. -/

namespace Concentric.Json

def newline (level : Nat) : List Char := '\n' :: List.replicate (2 * level) ' '

/-- A number as it is written; those that are not finite have names. -/
def writeReal : Binary64 → List Char
  | .nan => "NaN".toList
  | .infinite negative => if negative then "-Infinity".toList else "Infinity".toList
  | x => x.text.toList

def separate (level : Nat) : List (List Char) → List Char
  | [] => []
  | [p] => p
  | p :: ps => p ++ ',' :: (newline level ++ separate level ps)

/-- Parts between brackets, each on a line one level deeper. -/
def bracket (opening closing : Char) (level : Nat) : List (List Char) → List Char
  | [] => [opening, closing]
  | ps => opening :: (newline (level + 1) ++ separate (level + 1) ps ++ newline level ++ [closing])

theorem bracket_eq_cons (opening closing : Char) (level : Nat) (ps : List (List Char)) :
    ∃ cs, bracket opening closing level ps = opening :: cs := by
  cases ps <;> exact ⟨_, rfl⟩

def sortEntries (es : List (String × List Char)) : List (String × List Char) :=
  es.mergeSort fun a b => !decide (b.1 < a.1)

mutual

/-- A value at a level. Octets, positions and things have no form of their own. -/
def write (sorted : Bool) (level : Nat) : Value → Except Failure (List Char)
  | .nothing => .ok "null".toList
  | .truth b => .ok (if b then "true".toList else "false".toList)
  | .whole n => .ok (Digits.ofInt n)
  | .real x => .ok (writeReal x)
  | .text s => .ok (writeText s.toList)
  | .list vs => (writeAll sorted (level + 1) vs).map (bracket '[' ']' level)
  | .tuple vs => (writeAll sorted (level + 1) vs).map (bracket '[' ']' level)
  | .map es => (writeEntries sorted (level + 1) es).map fun ps =>
      bracket '\x7b' '\x7d' level
        ((if sorted then sortEntries ps else ps).map fun p =>
          writeText p.1.toList ++ ':' :: ' ' :: p.2)
  | _ => .error (.mismatch .use)

def writeAll (sorted : Bool) (level : Nat) : List Value → Except Failure (List (List Char))
  | [] => .ok []
  | v :: vs => do
    let p ← write sorted level v
    let ps ← writeAll sorted level vs
    return p :: ps

def writeEntries (sorted : Bool) (level : Nat) :
    List (String × Value) → Except Failure (List (String × List Char))
  | [] => .ok []
  | (k, v) :: es => do
    let p ← write sorted level v
    let ps ← writeEntries sorted level es
    return (k, p) :: ps

end

def document (sorted : Bool) (v : Value) : Except Failure String :=
  (write sorted 0 v).map String.ofList

end Concentric.Json
