import Concentric.Failure
import Concentric.Span
import Concentric.Text.Cut
import Concentric.Value.Order

/-! Positions read from values: from a text, a map, a pair, or a thing with the two attributes. -/

namespace Concentric

namespace Value

/-- The whole number that a value stands for: a number without its fraction, or a literal. -/
def toWhole : Value → Except Failure Int
  | whole n => .ok n
  | truth b => .ok (if b then 1 else 0)
  | real .nan => .error (.refused .notANumber)
  | real (.infinite _) => .error .infinite
  | real x => .ok (x.wholePart?.getD 0)
  | text s => (Literal.read s.toList).mapError (.ofLiteral s)
  | octets bs => (Literal.readAscii (bs.map fun b => Char.ofNat b.toNat)).mapError
      (.ofLiteral (Quoted.octets bs))
  | _ => .error (.mismatch .use)

end Value

namespace Position

/-- A coordinate from a value. An infinite number is a failure of its own; any other value that
stands for no whole number is reported as a fault of the position. -/
def coordinate (fault : PositionFault) (v : Value) : Except Failure Int :=
  match v.toWhole with
  | .ok n => .ok n
  | .error .infinite => .error .infinite
  | .error _ => .error (.report (.invalidPosition fault v))

/-- The position with the given coordinates, the line looked at first. -/
def ofCoordinates (line character : Value) : Except Failure Position := do
  let l ← coordinate .lineNotWhole line
  let c ← coordinate .characterNotWhole character
  return clamped l c

/-- Reads `line` or `line:character`, with blanks around. -/
def ofText (s : String) : Except Failure Position :=
  let (head, tail) := match Text.cut? ':' (Unicode.trim s.toList) with
    | some (a, b) => (a, Value.text (String.ofList b))
    | none => (Unicode.trim s.toList, Value.whole 0)
  if head = [] then .error (.report (.invalidPosition .textWithoutLine (.text s)))
  else ofCoordinates (.text (String.ofList head)) tail

def ofEntries (whole : Value) : List Value → Except Failure Position
  | [line, character] => ofCoordinates line character
  | _ => .error (.report (.invalidPosition .notAPair whole))

def ofValue (v : Value) : Except Failure Position :=
  match v with
  | .position p => .ok p
  | .text s => ofText s
  | .map es => match Value.lookup? "line" es with
    | none => .error (.report (.invalidPosition .mapWithoutLine v))
    | some line => ofCoordinates line ((Value.lookup? "character" es).getD (.whole 0))
  | .list vs => ofEntries v vs
  | .tuple vs => ofEntries v vs
  | _ => match v.attribute? "line", v.attribute? "character" with
    | none, _ | some .nothing, _ | _, none | _, some .nothing =>
      .error (.report (.invalidPosition .unsupported v))
    | some line, some character => ofCoordinates line character

def translateBy (p : Position) (lines characters : Value) : Except Failure Position := do
  let l ← lines.plus p.line
  let c ← characters.plus p.character
  ofCoordinates (.ofNumeral l) (.ofNumeral c)

/-- The position with one or both coordinates replaced; nothing keeps a coordinate. -/
def withCoordinates (p : Position) (line character : Value) : Except Failure Position :=
  ofCoordinates (line.orElse (.whole p.line)) (character.orElse (.whole p.character))

end Position

namespace Span

def ofValues (start stop : Value) : Except Failure Span := do
  let p ← Position.ofValue start
  let q ← Position.ofValue stop
  return between p q

def ofCoordinates (startLine startCharacter stopLine stopCharacter : Value) :
    Except Failure Span := do
  let p ← Position.ofCoordinates startLine startCharacter
  let q ← Position.ofCoordinates stopLine stopCharacter
  return between p q

def withValues (s : Span) (start stop : Value) : Except Failure Span :=
  ofValues (start.orElse (.position s.start)) (stop.orElse (.position s.stop))

end Span

end Concentric
