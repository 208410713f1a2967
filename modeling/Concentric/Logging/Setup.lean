import Concentric.Files.Action
import Concentric.Logging.Level
import Concentric.Program
import Concentric.Value

/-! Logging as it is set up: a level, and where records go. Records of libraries that say much have
to reach at least the level of a warning. Before anything is set up, records from that level on go
to the console without any frame around them. -/

namespace Concentric

inductive LogSink
  | file
  | console
  | nowhere
  deriving DecidableEq, Repr

structure Logging where
  level : Numeral
  file : Option Path
  console : Bool
  deriving Repr

namespace Logging

/-- The sinks of a set-up, of which there is always one. -/
def sinks (s : Logging) : List LogSink :=
  match s.file, s.console with
  | some _, true => [.file, .console]
  | some _, false => [.file]
  | none, true => [.console]
  | none, false => [.nowhere]

def quietLevel (s : Logging) : Numeral :=
  if s.level.lt (.whole Level.warning) then .whole Level.warning else s.level

def noisy : List String := ["asyncio", "markdown_it"]

def isBelow (top logger : String) : Bool :=
  logger == top || (top ++ ".").toList.isPrefixOf logger.toList

def threshold (s : Option Logging) (logger : String) : Numeral :=
  match s with
  | none => .whole Level.warning
  | some s => if noisy.any fun top => isBelow top logger then s.quietLevel else s.level

/-- A record is written. A level that is not positive is never high enough. -/
def admits (s : Option Logging) (logger : String) (level : Numeral) : Bool :=
  (Numeral.whole 0).lt level && (threshold s logger).le level

/-- The name of a level in the eight columns of its own. -/
def padded (name : String) : String :=
  name ++ String.ofList (List.replicate (8 - name.length) ' ')

/-- The name of a logger as it is shown; the one above all has no name of its own. -/
def shownLogger (logger : String) : String := if logger = "" then "root" else logger

def line (stamp logger : String) (level : Numeral) (message : String) : String :=
  stamp ++ " | " ++ padded (Level.nameOf level) ++ " | " ++ shownLogger logger ++ " | " ++
    message ++ "\n"

def consoleText (s : Option Logging) (stamp logger : String) (level : Numeral)
    (message : String) : String :=
  if admits s logger level then
    match s with
    | none => message ++ "\n"
    | some s => if s.console then line stamp logger level message else ""
  else ""

def path? (s : Option Logging) : Option Path := s.bind (·.file)

/-- The files after a record, of which as much is written as can be. -/
def record (s : Option Logging) (stamp logger : String) (level : Numeral) (message : String)
    (t : FileTree) : FileTree :=
  if admits s logger level then
    match path? s with
    | none => t
    | some p => (t.append p (Utf8.octets (line stamp logger level message))).2
  else t

/-! ## Setting up -/

/-- What a host may ask for. A directory for the log file or a yes to a file asks for one. -/
structure Wish where
  level : Value := .whole Level.warning
  sizeLimit : Value := .whole 1000000
  directory : Value := .nothing
  file : Value := .truth false
  console : Value := .truth true
  force : Value := .truth false

/-- The wish with one field set; the number of old files does not matter here. -/
def Wish.setField? (w : Wish) (name : String) (v : Value) : Option Wish :=
  if name = "level" then some { w with level := v }
  else if name = "log_dir" then some { w with directory := v }
  else if name = "log_file" then some { w with file := v }
  else if name = "console" then some { w with console := v }
  else if name = "force" then some { w with force := v }
  else if name = "max_bytes" then some { w with sizeLimit := v }
  else if name = "backup_count" then some w
  else none

def Wish.ofFields? (fields : List (String × Value)) : Option Wish :=
  fields.foldlM (fun w f => w.setField? f.1 f.2) {}

def directoryVariable : String := Program.envVariable "LOG_DIR"

def directoryOf (environment : List (String × String)) : String :=
  (environment.lookup directoryVariable).getD ""

def wantsFile (environment : List (String × String)) (w : Wish) : Bool :=
  w.file.truthy || !(w.directory matches .nothing) || directoryOf environment != ""

/-- The directory of the log file: the one that is asked for, else that of the environment, else
one in the home directory. -/
def directory (home : Path) (environment : List (String × String)) (w : Wish) :
    Except Failure Path :=
  match w.directory with
  | .text s =>
    if s != "" then (Path.ofText s).expandHome home else ofEnvironment
  | v => if v.truthy then .error (.mismatch .use) else ofEnvironment
where
  ofEnvironment : Except Failure Path :=
    let s := directoryOf environment
    if s != "" then (Path.ofText s).expandHome home
    else .ok ((home.child Program.directory).child "logs")

/-- The size that a log file may grow to has to be a number. -/
def checkSize (w : Wish) : Except Failure Unit :=
  match w.sizeLimit.numeral? with
  | some _ => .ok ()
  | none => .error (.mismatch .use)

/-- Makes the log file, and the directory for it before anything else. -/
def makeFile (home : Path) (environment : List (String × String)) (w : Wish) :
    FileAction (Option Path) := do
  if wantsFile environment w then
    let dir ← FileAction.given (directory home environment w)
    FileAction.makeDirectories dir
    FileAction.given (checkSize w)
    let p := dir.child (Program.name ++ ".log")
    FileAction.append p []
    return some p
  else return none

/-- Sets up logging. What is set up already stays, unless the wish is to force another. -/
def setUp (home : Path) (environment : List (String × String)) (current : Option Logging)
    (w : Wish) : FileAction (Option Logging) :=
  if current.isSome && !w.force.truthy then pure current
  else do
    let level ← FileAction.given (Level.ofValue w.level)
    let file ← makeFile home environment w
    return some ⟨level, file, w.console.truthy⟩

end Logging

end Concentric
