import Concentric.CommandLine.Arguments
import Concentric.CommandLine.Batch
import Concentric.CommandLine.Printed
import Concentric.Files.Loading
import Concentric.Logging.Setup
import Concentric.Settings.Store

/-! The run of a command: arguments, logging, settings, the document with the positions, and then
the chains. Each stage hands on to the next one or ends the run with a status and what there is to
complain about. -/

namespace Concentric.CommandLine

/-- What a command finds when it starts. `stamp` is the time that log lines show, `base` is what
stands in URIs for the working directory, and `help` is what is printed where help is asked for. -/
structure Surroundings where
  home : Path
  environment : List (String × String)
  locale : Locale
  base : String
  usage : String
  help : String
  stamp : String
  parser : BlockParser

structure Console where
  tree : FileTree
  logging : Option Logging := none
  output : String := ""
  errors : String := ""
  calls : List ParserCall := []

/-- How a run ends: with a status, by leaving before anything is run, or in a failure that nothing
takes care of. -/
inductive Ending
  | status (code : Nat)
  | exit (code : Nat)
  | failed (f : Failure)
  deriving Repr

structure Outcome where
  ending : Ending
  console : Console

def succeeded : Nat := 0

def misused : Nat := 2

namespace Console

def print (c : Console) (text : String) : Console := { c with output := c.output ++ text }

def complain (c : Console) (line : String) : Console :=
  { c with errors := c.errors ++ line ++ "\n" }

def tell (w : Surroundings) (c : Console) (n : Notice) : Console :=
  { c with
    errors := c.errors ++ Logging.consoleText c.logging w.stamp n.logger (.whole n.level) n.message
    tree := Logging.record c.logging w.stamp n.logger (.whole n.level) n.message c.tree }

def tellAll (w : Surroundings) (c : Console) (ns : List Notice) : Console := ns.foldl (tell w) c

def setUpLogging (w : Surroundings) (c : Console) (level : Value) (force : Bool) :
    Except Failure Unit × Console :=
  let wish : Logging.Wish := { level := level, force := .truth force }
  match (Logging.setUp w.home w.environment c.logging wish).on c.tree with
  | (.error f, tree) => (.error f, { c with tree := tree })
  | (.ok logging, tree) =>
    (.ok (), tell w { c with tree := tree, logging := logging } (.loggingConfigured level.display))

def misuse (c : Console) (line : String) : Outcome := ⟨.status misused, c.complain line⟩

/-- Ends a run in a failure. A refusal is reported under a heading. -/
def fail (c : Console) (heading : String) (f : Failure) : Outcome :=
  if f.isRefusal then c.misuse (heading ++ ": " ++ f.message) else ⟨.failed f, c⟩

def finish (c : Console) (p : Printed) : Outcome :=
  match p.failure with
  | none => ⟨.status succeeded, c.print p.text⟩
  | some f => ⟨.failed f, c.print p.text⟩

end Console

/-! ## What is asked for, with what holds if nothing is -/

/-- A value of a switch, else that of a variable, each unless it is empty. -/
def valueOr (w : Surroundings) (value : Option Given) (name : String) : Option String :=
  match value with
  | some (.text s) => if s = "" then fromEnvironment else some s
  | some .dashes | none => fromEnvironment
where
  fromEnvironment : Option String :=
    (w.environment.lookup (Program.envVariable name)).filter fun s => s != ""

def logLevel (w : Surroundings) (a : Arguments) : Value :=
  match a.logLevel with
  | some g => g.toValue
  | none => .text ((w.environment.lookup (Program.envVariable "LOG_LEVEL")).getD
      (Level.name Level.warning))

def settingsPath (w : Surroundings) (a : Arguments) : Except Failure Path :=
  match valueOr w a.settingsPath "SETTINGS_PATH" with
  | some s => (Path.ofText s).expandHome w.home
  | none => .ok (Settings.defaultPath w.home)

/-- The positions as they were given; the start of the document if none was. -/
def positionValues (a : Arguments) : List Value :=
  if a.positions.isEmpty then [.text "0:0"] else a.positions.map Given.toValue

def ownVariables (w : Surroundings) : List String :=
  (w.environment.map (·.1)).filter fun n => Program.envStart.toList.isPrefixOf n.toList

/-! ## The stages -/

def runChains (w : Surroundings) (c : Console) (a : Arguments) (s : Settings) (d : Document)
    (ps : List Position) : Outcome :=
  let b := Batch.run w.parser s d ps
  let c := { c with calls := b.calls }.tellAll w b.notices
  match b.chains with
  | .error f => ⟨.failed f, c⟩
  | .ok chains =>
    c.finish (if a.json then .ofValue (Printed.chainsValue chains)
      else .ofChains a.showText d chains)

/-- Loads the document, and then reads the positions. -/
def loadRequest (w : Surroundings) (c : Console) (a : Arguments) (path : String) :
    Except Failure (Document × List Position) := do
  let d ← Document.load c.tree w.base w.locale (Path.ofText path) ""
  let ps ← (positionValues a).mapM Position.ofValue
  return (d, ps)

def errorLine (message : String) : String := Program.name ++ ": error: " ++ message

def runDocument (w : Surroundings) (c : Console) (a : Arguments) (s : Settings) : Outcome :=
  match a.path with
  | none => (c.complain w.usage).misuse (errorLine "a Markdown file is required")
  | some path => match loadRequest w c a path with
    | .ok (d, ps) => runChains w c a s d ps
    | .error (.report r) => c.misuse r.text
    | .error f => ⟨.failed f, c⟩

/-- Prints the settings if that is asked for, else goes on with them. -/
def runSettings (w : Surroundings) (c : Console) (a : Arguments) (p : Path)
    (overrides : List (String × Value)) (s : Settings) : Outcome :=
  if a.dumpSettings then
    c.finish (.ofValueOr (Printed.settingsValue s p.text (overrides.map (·.1)) (ownVariables w)))
  else if s.debugLogging.truthy then
    match c.setUpLogging w (.whole Level.debug) true with
    | (.error f, c) => ⟨.failed f, c⟩
    | (.ok (), c) => runDocument w c a s
  else runDocument w c a s

def runLogged (w : Surroundings) (c : Console) (a : Arguments) : Outcome :=
  match settingsPath w a with
  | .error f => ⟨.failed f, c⟩
  | .ok p => match Override.ofEntries (a.overrides.map Given.toValue) with
    | .error f => c.fail "Invalid settings" f
    | .ok overrides =>
      let loaded := Settings.load c.tree p overrides w.environment
      let c := c.tellAll w (Settings.loadNotices c.tree p overrides w.environment)
      match loaded with
      | .error f => c.fail "Invalid settings" f
      | .ok s => runSettings w c a p overrides s

def runArguments (w : Surroundings) (c : Console) (a : Arguments) : Outcome :=
  match c.setUpLogging w (logLevel w a) false with
  | (.error f, c) => c.fail "Invalid --log-level" f
  | (.ok (), c) => runLogged w c a

def run (w : Surroundings) (tree : FileTree) (words : List String) : Outcome :=
  let c : Console := { tree := tree }
  match Arguments.ofTexts words with
  | .error .help => ⟨.exit succeeded, c.print w.help⟩
  | .error (.fault f) => ⟨.exit misused, (c.complain w.usage).complain (errorLine f.message)⟩
  | .ok a => runArguments w c a

end Concentric.CommandLine
