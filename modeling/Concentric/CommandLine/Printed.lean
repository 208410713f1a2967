import Concentric.Chain
import Concentric.Document
import Concentric.Json.Writer
import Concentric.Settings
import Concentric.Text.Quoted

/-! What a command prints: chains as lines or as a JSON document, and settings with the sources that
they come from. Lines are printed one after another, so those before a failure stand. -/

namespace Concentric.CommandLine

/-- A text, and why it breaks off if it does. -/
structure Printed where
  text : String
  failure : Option Failure := none

namespace Printed

/-- A text and then another, unless the first one breaks off. -/
def followedBy (p : Printed) (q : Printed) : Printed :=
  match p.failure with
  | some _ => p
  | none => ⟨p.text ++ q.text, q.failure⟩

def all : List Printed → Printed
  | [] => ⟨"", none⟩
  | p :: ps => p.followedBy (all ps)

def ofExcept : Except Failure String → Printed
  | .ok s => ⟨s, none⟩
  | .error f => ⟨"", some f⟩

/-! ## Chains as lines -/

def snippetLength : Nat := 60

/-- The start of what a span covers of its first line. -/
def snippet (d : Document) (s : Span) : Except Failure String := do
  let line ← d.lineText s.start.line
  return Quoted.text (String.ofList ((line.toList.drop s.start.character).take snippetLength))

/-- The line of a step, with the start of the text that it covers if that is asked for. -/
def stepLine (showText : Bool) (d : Document) (number : Nat) (s : Span) :
    Except Failure String := do
  let line := "  [" ++ Digits.text number ++ "] " ++ s.text
  if showText then return line ++ "  " ++ (← snippet d s) ++ "\n" else return line ++ "\n"

def ofChain (showText : Bool) (d : Document) (p : Position) (c : Chain) : Printed :=
  let head : Printed := ⟨p.text ++ "\n", none⟩
  if c.isEmpty then head.followedBy ⟨"  (no enclosing structure)\n", none⟩
  else head.followedBy (all (c.spans.zipIdx.map fun (s, i) => ofExcept (stepLine showText d i s)))

def ofChains (showText : Bool) (d : Document) (cs : List (Position × Chain)) : Printed :=
  all (cs.map fun (p, c) => ofChain showText d p c)

/-! ## JSON documents -/

def ofValue (v : Value) : Printed :=
  ofExcept ((Json.document false v).map fun s => s ++ "\n")

def ofValueOr (v : Except Failure Value) : Printed :=
  match v with
  | .ok v => ofValue v
  | .error f => ⟨"", some f⟩

def chainsValue (cs : List (Position × Chain)) : Value :=
  .list (cs.map fun (p, c) =>
    .map [("position", p.toValue), ("ranges", .list (c.spans.map Span.toValue))])

def settingsValue (s : Settings) (path : String) (overridden own : List String) :
    Except Failure Value :=
  let sorted (names : List String) : Value :=
    .list ((names.mergeSort fun a b => !decide (b < a)).map .text)
  s.toMap.map fun settings => .map [("settings", settings), ("meta", .map [("path", .text path),
    ("cli_overrides", sorted overridden), ("environment_variables", sorted own)])]

end Printed

end Concentric.CommandLine
