import Concentric.Number.Numeral
import Concentric.Position
import Concentric.Number.Shortest
import Concentric.Text.Quoted

/-! Values as hosts, settings files and tokens hold them, before a function has said what it
needs: nothing, truth values, numbers, texts, octets, sequences, maps with text keys, positions,
and things that are known by their attributes alone. -/

namespace Concentric

inductive Value
  | nothing
  | truth (b : Bool)
  | whole (n : Int)
  | real (x : Binary64)
  | text (s : String)
  | octets (bs : List UInt8)
  | list (vs : List Value)
  | tuple (vs : List Value)
  | map (entries : List (String × Value))
  | position (p : Position)
  | thing (attributes : List (String × Value))
  deriving Repr, Inhabited

namespace Value

/-- A truth value counts as a number. -/
def numeral? : Value → Option Numeral
  | truth b => some (.truth b)
  | whole n => some (.whole n)
  | real x => some (.real x)
  | _ => none

def ofNumeral : Numeral → Value
  | .truth b => truth b
  | .whole n => whole n
  | .real x => real x

@[simp] theorem numeral?_ofNumeral (n : Numeral) : (ofNumeral n).numeral? = some n := by
  cases n <;> rfl

/-- What counts as yes: anything but nothing, no, zero, and what is empty. -/
def truthy : Value → Bool
  | nothing => false
  | truth b => b
  | whole n => n != 0
  | real (.finite _ m _) => m != 0
  | real _ => true
  | text s => s != ""
  | octets bs => !bs.isEmpty
  | list vs => !vs.isEmpty
  | tuple vs => !vs.isEmpty
  | map es => !es.isEmpty
  | position _ => true
  | thing _ => true

def orElse (v other : Value) : Value :=
  match v with
  | nothing => other
  | v => v

def kindName : Value → String
  | nothing => "NoneType"
  | truth _ => "bool"
  | whole _ => "int"
  | real _ => "float"
  | text _ => "str"
  | octets _ => "bytes"
  | list _ => "list"
  | tuple _ => "tuple"
  | map _ => "dict"
  | position _ => "Position"
  | thing _ => "object"

/-- The first list or map met in a value that is to be looked up in a set, if there is one: such
a value cannot be looked up. -/
def unhashable? : Value → Option String
  | list _ => some "list"
  | map _ => some "dict"
  | tuple vs => unhashableIn? vs
  | _ => none
where
  unhashableIn? : List Value → Option String
    | [] => none
    | v :: vs => v.unhashable? <|> unhashableIn? vs

/-- What a value yields if it is gone through: its parts, its octets as numbers, its characters,
its keys, or its coordinates. -/
def parts? : Value → Option (List Value)
  | list vs => some vs
  | tuple vs => some vs
  | octets bs => some (bs.map fun b => whole b.toNat)
  | position p => some [whole p.line, whole p.character]
  | text s => some (s.toList.map fun c => text (String.ofList [c]))
  | map es => some (es.map fun e => text e.1)
  | _ => none

mutual

/-- How many lists, tuples and maps lie around the innermost of them, itself counted. -/
def depth : Value → Nat
  | list vs => depthIn vs + 1
  | tuple vs => depthIn vs + 1
  | map es => depthInEntries es + 1
  | _ => 0

def depthIn : List Value → Nat
  | [] => 0
  | v :: vs => max v.depth (depthIn vs)

def depthInEntries : List (String × Value) → Nat
  | [] => 0
  | (_, v) :: es => max v.depth (depthInEntries es)

end

mutual

/-- The two values are one as keys: numbers by what they are worth, whatever their kinds. A thing
is no other one. -/
def sameKey : Value → Value → Bool
  | nothing, nothing => true
  | text s, text t => s == t
  | octets s, octets t => s == t
  | position p, position q => p == q
  | tuple vs, tuple ws => sameKeys vs ws
  | v, w => match v.numeral?, w.numeral? with
    | some x, some y => x.eq y
    | _, _ => false

def sameKeys : List Value → List Value → Bool
  | [], [] => true
  | v :: vs, w :: ws => sameKey v w && sameKeys vs ws
  | _, _ => false

end

/-- The entry of a map under a key; of two entries with one key the later counts. -/
def lookup? (key : String) (entries : List (String × Value)) : Option Value :=
  (entries.reverse.find? (·.1 == key)).map (·.2)

def attribute? (key : String) : Value → Option Value
  | thing as => lookup? key as
  | _ => none

/-! ## The text of a value -/

def commas : List String → String
  | [] => ""
  | [s] => s
  | s :: ss => s ++ ", " ++ commas ss

mutual

/-- A value as it is written in a message: texts and octets quoted, sequences in brackets. -/
def shown : Value → String
  | nothing => "None"
  | truth b => if b then "True" else "False"
  | whole n => Digits.text n
  | real x => x.text
  | text s => Quoted.text s
  | octets bs => Quoted.octets bs
  | list vs => "[" ++ commas (shownAll vs) ++ "]"
  | tuple [v] => "(" ++ v.shown ++ ",)"
  | tuple vs => "(" ++ commas (shownAll vs) ++ ")"
  | map es => "\x7b" ++ commas (shownEntries es) ++ "\x7d"
  | position p => "Position(line=" ++ Digits.text p.line ++ ", character=" ++
      Digits.text p.character ++ ")"
  | thing _ => "<object>"

def shownAll : List Value → List String
  | [] => []
  | v :: vs => v.shown :: shownAll vs

def shownEntries : List (String × Value) → List String
  | [] => []
  | (k, v) :: es => (Quoted.text k ++ ": " ++ v.shown) :: shownEntries es

end

def display : Value → String
  | text s => s
  | position p => p.text
  | v => v.shown

/-! ## Plain data -/

mutual

def plain : Value → Value
  | position p => map [("line", whole p.line), ("character", whole p.character)]
  | list vs => list (plainAll vs)
  | tuple vs => tuple (plainAll vs)
  | map es => map (plainEntries es)
  | v => v

def plainAll : List Value → List Value
  | [] => []
  | v :: vs => v.plain :: plainAll vs

def plainEntries : List (String × Value) → List (String × Value)
  | [] => []
  | (k, v) :: es => (k, v.plain) :: plainEntries es

end

end Value

end Concentric
