import Concentric.Failure
import Concentric.Unicode.Blank

/-! Levels of log records: whole numbers, some of which have names. A record is written where its
level is not below the one that is asked for. -/

namespace Concentric.Level

def debug : Int := 10

def info : Int := 20

def warning : Int := 30

def error : Int := 40

def critical : Int := 50

def names : List (String × Int) :=
  [("CRITICAL", critical), ("FATAL", critical), ("ERROR", error), ("WARNING", warning),
    ("WARN", warning), ("INFO", info), ("DEBUG", debug), ("NOTSET", 0)]

/-- The name of a level in a record: of two names the first, and a number has one too. -/
def name (n : Int) : String :=
  match names.find? fun e => e.2 == n with
  | some e => e.1
  | none => "Level " ++ Digits.text n

/-- The name of the level of a record; a truth value is no name of a level, whatever it is worth. -/
def nameOf : Numeral → String
  | .truth b => "Level " ++ (Value.truth b).display
  | n => name (n.whole?.getD 0)

/-- The capital of a letter. Beyond ASCII only the long s and the dotless i have capitals that
stand in a name of a level. -/
def capital (c : Char) : Char :=
  if c = 'ſ' then 'S' else if c = 'ı' then 'I' else c.toUpper

def ofName? (s : String) : Option Int :=
  names.lookup (String.ofList ((Unicode.trim s.toList).map capital))

/-- The level that a value asks for: a name, or the level itself. -/
def ofValue (v : Value) : Except Failure Numeral :=
  let unknown := Except.error (.refused (.unknownLevel v))
  match v with
  | .whole n => .ok (.whole n)
  | .truth b => .ok (.truth b)
  | .text s => match ofName? s with
    | some n => .ok (.whole n)
    | none => unknown
  | .octets _ => unknown
  | v => .error (.notText "strip" v)

end Concentric.Level
