import Concentric.CommandLine.Run
import Concentric.Token.Reading

/-! The program: reads what a run needs, runs it, and carries out what it leaves behind. Block
tokens come from another program, as a JSON list on standard input. -/

namespace Concentric.CommandLine

def usage : String :=
  "usage: " ++ Program.name ++ " [-h] [-p LINE:CHAR] [--json] [--show-text] " ++
    "[--log-level LOG_LEVEL] [--dump-settings] [--settings-path PATH] [--set KEY=VALUE] [path]"

def knownVariables : List String :=
  Field.all.map Field.envVariable ++
    ["LOG_LEVEL", "LOG_DIR", "SETTINGS_PATH"].map Program.envVariable

def readEnvironment : IO (List (String × String)) :=
  knownVariables.filterMapM fun n => return (← IO.getEnv n).map fun s => (n, s)

/-- The place of a path without going through the files on the way. -/
def plainPlace (workingDirectory : Place) (p : Path) : Place :=
  p.names.foldl (fun place n => if n = ".." then place.dropLast else place ++ [n])
    (if p.root = "" then workingDirectory else [])

/-- Adds what is stored at a place and above it to a tree. -/
def addPlace (t : FileTree) (place : Place) : IO FileTree := do
  let here ← IO.currentDir
  let mut t := t
  for n in List.range (place.length + 1) do
    let above := place.take n
    let file := here / ("/" ++ Path.slashed above)
    if ← file.isDir then
      t := t.set above .directory
    else if ← file.pathExists then
      t := t.withFile above (← IO.FS.readBinFile file).toList
  return t

def pathsOf (w : Surroundings) (a : Arguments) : List Path :=
  let log := (Logging.directory w.home w.environment {}).toOption.map fun p =>
    p.child (Program.name ++ ".log")
  let settings := (settingsPath w a).toOption
  let document := a.path.map Path.ofText
  [log, settings, document].filterMap id

/-- Makes the directories and writes the files that a run has added or changed. -/
def writeBack (before after : FileTree) : IO Unit := do
  let here ← IO.currentDir
  for (place, entry) in after.entries.reverse do
    let file := here / ("/" ++ Path.slashed place)
    if entry = .directory then
      if before.get? place != some entry then IO.FS.createDirAll file
    else if after.file? place != before.file? place then
      if let some node := after.file? place then
        IO.FS.createDirAll (here / ("/" ++ Path.slashed place.dropLast))
        IO.FS.writeBinFile file ⟨node.octets.toArray⟩

/-- The tokens on standard input, if the run is one that needs them. -/
def readTokens (a : Arguments) : IO (List Token) := do
  if a.path.isNone || a.dumpSettings then return []
  let input ← (← IO.getStdin).readToEnd
  match Token.ofDocument? input.toList with
  | some ts => return ts
  | none => throw (IO.userError "no list of tokens on standard input")

def statusOf : Ending → IO UInt32
  | .status n | .exit n => return n.toUInt32
  | .failed f => do
    IO.eprintln (errorLine f.message)
    return 1

def perform (words : List String) : IO UInt32 := do
  let names := (Path.ofText (← IO.currentDir).toString).names
  let home := Path.ofText ((← IO.getEnv "HOME").getD "/")
  let arguments := (Arguments.ofTexts words).toOption.getD {}
  let tokens ← readTokens arguments
  let w : Surroundings := {
    home := home
    environment := ← readEnvironment
    locale := { preferred := Codec.utf8.name }
    base := Document.uriPath names
    usage := usage
    help := usage ++ "\n"
    stamp := Digits.text (← IO.monoMsNow) ++ " ms"
    parser := fun _ _ => tokens }
  let before ← (pathsOf w arguments).foldlM
    (fun t p => addPlace t (plainPlace names p)) { workingDirectory := names }
  let outcome := run w before words
  IO.print outcome.console.output
  IO.eprint outcome.console.errors
  writeBack before outcome.console.tree
  statusOf outcome.ending

end Concentric.CommandLine

def main (words : List String) : IO UInt32 := Concentric.CommandLine.perform words
