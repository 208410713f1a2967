import Concentric.Files.Action
import Concentric.Json.Reader
import Concentric.Json.Writer
import Concentric.Logging.Notice
import Concentric.Octets.Codec
import Concentric.Settings.Override
import Concentric.Text.Lines

/-! Settings kept in a file. Loading puts the sources of a settings value together, each over the
one before: what holds in general, the file, the overrides, and the environment. Of a file that
cannot be made sense of nothing counts. Saving writes another file first and moves it into place. -/

namespace Concentric

inductive Stored
  | absent
  | notJson (fault : String)
  | notMap
  | entries (es : List (String × Value))

namespace Stored

/-- What a text holds. Some documents are beyond what can be read. -/
def ofText (document : List Char) : Except Failure Stored :=
  match Json.read document with
  | .ok (.map es) => .ok (entries es)
  | .ok _ => .ok notMap
  | .error (.fault f) => .ok (notJson (f.message document))
  | .error .tooDeep => .error .nestedTooDeep
  | .error (.literalTooLong n) => .error (.refused (.literalTooLong n))

/-- What octets hold: a text in UTF-8, with any kind of line break. -/
def ofOctets (bs : List UInt8) : Except Failure Stored := do
  ofText (Lines.normalize (← Codec.readUtf8 bs))

def read (t : FileTree) (p : Path) : Except Failure Stored :=
  match t.read p with
  | .ok bs => ofOctets bs
  | .error .notFound => .ok absent
  | .error fault => .error (.file fault)

def ofEntries (es : List (String × Value)) : Except Failure Settings :=
  Settings.ofValues fun f => (es.lookup f.name).getD (Settings.standard.get f)

/-- The settings of a file: its fields if all of them together are acceptable, else none. -/
def settings : Stored → Settings
  | entries es => match ofEntries es with
    | .ok s => s
    | .error _ => .standard
  | _ => .standard

def notices (p : Path) : Stored → List Notice
  | absent => []
  | notJson fault => [.notJson p.text fault]
  | notMap => [.notMap p.text]
  | entries es => match ofEntries es with
    | .ok _ => []
    | .error f => [.unusable p.text f.message]

end Stored

namespace Settings

def defaultPath (home : Path) : Path := (home.child Program.directory).child "settings.json"

/-! ## Loading -/

def load (t : FileTree) (p : Path) (overrides : List (String × Value))
    (environment : List (String × String)) : Except Failure Settings := do
  let stored ← Stored.read t p
  let s ← Override.merge stored.settings overrides
  Override.merge s (Override.ofEnvironment environment)

def overrideNotices (source : String) (overrides : List (String × Value)) : List Notice :=
  match Override.changes overrides with
  | .error _ | .ok [] => []
  | .ok cs => [.overridesApplied source
      ((cs.map (·.1.name)).mergeSort fun a b => !decide (b < a))]

/-- What there is to tell about loading, as far as it comes. -/
def loadNotices (t : FileTree) (p : Path) (overrides : List (String × Value))
    (environment : List (String × String)) : List Notice :=
  match Stored.read t p with
  | .error _ => []
  | .ok stored =>
    stored.notices p ++ overrideNotices "CLI" overrides ++
      match Override.merge stored.settings overrides with
      | .error _ => []
      | .ok _ =>
        (Override.rejected environment).map (fun e => .variableIgnored e.1.envVariable e.2) ++
          overrideNotices "environment" (Override.ofEnvironment environment)

/-! ## Saving -/

/-- The entries of a settings file: the fields, and the version of the form. -/
def stored (s : Settings) : Value := .map (s.entries ++ [("version", .whole 1)])

def save (p : Path) (s : Settings) : FileAction Unit := do
  let _ ← FileAction.given s.toMap
  FileAction.makeDirectories p.parent
  let staging ← FileAction.given (p.withSuffix ".tmp")
  let text ← FileAction.given (Json.document true s.stored)
  FileAction.write staging (Utf8.octets text)
  FileAction.rename staging p

end Settings

end Concentric
