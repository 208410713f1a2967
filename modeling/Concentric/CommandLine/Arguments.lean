import Concentric.Text.Cut
import Concentric.Text.Quoted
import Concentric.Unicode.Digit
import Concentric.Value

/-! Arguments of the command line. A word with a dash in front names a switch, in full or by the
start of a long name that no other switch shares; two dashes alone end the switches. A word is told
apart by its form before any of them takes effect. -/

namespace Concentric.CommandLine

inductive Switch
  | help
  | position
  | json
  | showText
  | logLevel
  | dumpSettings
  | settingsPath
  | set
  deriving DecidableEq, Repr

namespace Switch

def names : List (String × Switch) :=
  [("-h", help), ("--help", help), ("-p", position), ("--position", position), ("--json", json),
    ("--show-text", showText), ("--log-level", logLevel), ("--dump-settings", dumpSettings),
    ("--settings-path", settingsPath), ("--set", set)]

def ofName? (s : String) : Option Switch := names.lookup s

def takesValue : Switch → Bool
  | position | logLevel | settingsPath | set => true
  | help | json | showText | dumpSettings => false

def label (s : Switch) : String :=
  String.intercalate "/" ((names.filter fun e => e.2 == s).map (·.1))

end Switch

inductive ArgumentFault
  | valueExpected (s : Switch)
  | valueIgnored (s : Switch) (value : String)
  | ambiguous (word : String) (names : List String)
  | unrecognized (words : List String)
  deriving DecidableEq, Repr

def ArgumentFault.message : ArgumentFault → String
  | valueExpected s => "argument " ++ s.label ++ ": expected one argument"
  | valueIgnored s v => "argument " ++ s.label ++ ": ignored explicit argument " ++ Quoted.text v
  | ambiguous w ns =>
    "ambiguous option: " ++ w ++ " could match " ++ String.intercalate ", " ns
  | unrecognized ws => "unrecognized arguments: " ++ String.intercalate " " ws

/-! ## The form of a word -/

/-- A word by its form. A short name is a dash and a letter. A switch may have a value in the same
word, after a sign of equality or right after a short name. -/
inductive Word
  | plain (text : String)
  | dashes
  | switch (s : Switch) (short : Bool) (value : Option (List Char))
  | unknown (text : String)
  deriving DecidableEq, Repr

namespace Word

def isDigits (cs : List Char) : Bool :=
  !cs.isEmpty && cs.all fun c => (Unicode.digitValue? c).isSome

/-- The word is a negative number, whole or with a point; a line feed at its end does not matter. -/
def isNegativeNumber (cs : List Char) : Bool :=
  match cs with
  | '-' :: rest =>
    let rest := if rest.getLast? = some '\n' then rest.dropLast else rest
    isDigits rest || match Text.cut? '.' rest with
      | some (a, b) => (a.isEmpty || isDigits a) && isDigits b
      | none => false
  | _ => false

def splitSign (cs : List Char) : List Char × Option (List Char) :=
  match Text.cut? '=' cs with
  | some (name, value) => (name, some value)
  | none => (cs, none)

/-- The switches that a word in no full form may name. -/
def candidates (cs : List Char) : List (String × Word) :=
  match cs with
  | '-' :: '-' :: _ =>
    let (start, value) := splitSign cs
    (Switch.names.filter fun e => start.isPrefixOf e.1.toList).map fun e =>
      (e.1, switch e.2 false value)
  | a :: b :: rest =>
    (Switch.names.filter fun e => e.1.toList == [a, b]).map fun e =>
      (e.1, switch e.2 true (some rest))
  | _ => []

def ofUnnamed (text : String) (cs : List Char) : Except ArgumentFault Word :=
  match candidates cs with
  | [c] => .ok c.2
  | [] => .ok (if isNegativeNumber cs || cs.contains ' ' then plain text else unknown text)
  | cs => .error (.ambiguous text (cs.map (·.1)))

/-- The form of a word before two dashes alone. -/
def ofText (text : String) : Except ArgumentFault Word :=
  match text.toList with
  | '-' :: c :: rest =>
    match Switch.ofName? text with
    | some s => .ok (switch s (c != '-') none)
    | none =>
      let (name, value) := splitSign ('-' :: c :: rest)
      match value, Switch.ofName? (String.ofList name) with
      | some v, some s => .ok (switch s (c != '-') (some v))
      | _, _ => ofUnnamed text ('-' :: c :: rest)
  | _ => .ok (plain text)

/-- The forms of words. After two dashes alone all words are plain. -/
def ofTexts : List String → Except ArgumentFault (List Word)
  | [] => .ok []
  | t :: ts =>
    if t = "--" then .ok (dashes :: ts.map plain)
    else do
      let w ← ofText t
      let ws ← ofTexts ts
      return w :: ws

end Word

/-! ## What words ask for -/

/-- What is given for a switch: a text, or nothing but the two dashes that end the switches. -/
inductive Given
  | text (s : String)
  | dashes
  deriving DecidableEq, Repr

namespace Given

def ofAttached (cs : List Char) : Given :=
  if cs = ['-', '-'] then dashes else text (String.ofList cs)

/-- Two dashes alone are no text; they leave a list with nothing in it. -/
def toValue : Given → Value
  | text s => .text s
  | dashes => .list []

end Given

structure Arguments where
  path : Option String := none
  positions : List Given := []
  json : Bool := false
  showText : Bool := false
  logLevel : Option Given := none
  dumpSettings : Bool := false
  settingsPath : Option Given := none
  overrides : List Given := []
  deriving DecidableEq, Repr

inductive Halt
  | help
  | fault (f : ArgumentFault)
  deriving DecidableEq, Repr

namespace Arguments

def turnOn (a : Arguments) : Switch → Arguments
  | .json => { a with json := true }
  | .showText => { a with showText := true }
  | .dumpSettings => { a with dumpSettings := true }
  | _ => a

/-- The arguments with a value for a switch. Positions and overrides are collected. -/
def give (a : Arguments) (value : Given) : Switch → Arguments
  | .position => { a with positions := a.positions ++ [value] }
  | .logLevel => { a with logLevel := some value }
  | .settingsPath => { a with settingsPath := some value }
  | .set => { a with overrides := a.overrides ++ [value] }
  | _ => a

/-- What the letters after the short name for help lead to: to help if they are short names too, of
which one for a position takes what follows it as its value; `rest` are the words after them. -/
def bundle (rest : List Word) : List Char → Halt
  | [] => .help
  | 'h' :: cs => bundle rest cs
  | ['p'] => match rest with
    | .plain _ :: _ => .help
    | _ => .fault (.valueExpected .position)
  | 'p' :: _ => .help
  | cs => .fault (.valueIgnored .help (String.ofList cs))

/-- What comes of a value that is attached to a switch without one. To a short name more of them
may be attached. -/
def refuse (s : Switch) (short : Bool) (value : List Char) (rest : List Word) : Halt :=
  if short && !value.isEmpty then bundle rest value
  else .fault (.valueIgnored s (String.ofList value))

/-- Reads words one after another. The first plain word that belongs to no switch is the path, and
two dashes alone next to it are dropped; what is not recognized is collected. -/
def scan (a : Arguments) (extras : List String) : List Word → Except Halt (Arguments × List String)
  | [] => .ok (a, extras)
  | .plain t :: ws =>
    match a.path, ws with
    | some _, ws => scan a (extras ++ [t]) ws
    | none, .dashes :: ws => scan { a with path := some t } extras ws
    | none, ws => scan { a with path := some t } extras ws
  | .dashes :: ws => scan a (if a.path.isSome then extras ++ ["--"] else extras) ws
  | .unknown t :: ws => scan a (extras ++ [t]) ws
  | .switch s short value :: ws =>
    match s.takesValue, value, ws with
    | true, some v, ws => scan (a.give (.ofAttached v) s) extras ws
    | true, none, .plain t :: ws => scan (a.give (.text t) s) extras ws
    | true, none, _ => .error (.fault (.valueExpected s))
    | false, some v, ws => .error (refuse s short v ws)
    | false, none, ws => if s = .help then .error .help else scan (a.turnOn s) extras ws

def ofTexts (texts : List String) : Except Halt Arguments := do
  let words ← (Word.ofTexts texts).mapError .fault
  let (a, extras) ← scan {} [] words
  if extras.isEmpty then return a else throw (.fault (.unrecognized extras))

end Arguments

end Concentric.CommandLine
