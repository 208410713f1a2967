import Concentric.Program
import Concentric.Value.Order

/-! Settings: what may be tuned. A settings value is made from one value per field. Two fields
have to be numbers within bounds and one has to name a preset; the others take any value. -/

namespace Concentric

inductive Preset
  | commonmark
  | default
  | zero
  | jsDefault
  deriving DecidableEq, Repr

namespace Preset

def name : Preset → String
  | commonmark => "commonmark"
  | default => "default"
  | zero => "zero"
  | jsDefault => "js-default"

def ofName? : String → Option Preset
  | "commonmark" => some commonmark
  | "default" => some default
  | "zero" => some zero
  | "js-default" => some jsDefault
  | _ => none

@[simp] theorem ofName?_name (p : Preset) : ofName? p.name = some p := by
  cases p <;> rfl

end Preset

inductive Field
  | listDepthCap
  | markdownPreset
  | enableTables
  | enableStrikethrough
  | tokenCacheSize
  | debugLogging
  deriving DecidableEq, Repr

namespace Field

def all : List Field :=
  [listDepthCap, markdownPreset, enableTables, enableStrikethrough, tokenCacheSize, debugLogging]

theorem mem_all (f : Field) : f ∈ all := by
  cases f <;> decide

def name : Field → String
  | listDepthCap => "list_depth_cap"
  | markdownPreset => "markdown_preset"
  | enableTables => "enable_tables"
  | enableStrikethrough => "enable_strikethrough"
  | tokenCacheSize => "token_cache_size"
  | debugLogging => "debug_logging"

def envVariable : Field → String
  | listDepthCap => Program.envVariable "LIST_DEPTH_CAP"
  | markdownPreset => Program.envVariable "MARKDOWN_PRESET"
  | enableTables => Program.envVariable "ENABLE_TABLES"
  | enableStrikethrough => Program.envVariable "ENABLE_STRIKETHROUGH"
  | tokenCacheSize => Program.envVariable "TOKEN_CACHE_SIZE"
  | debugLogging => Program.envVariable "DEBUG_LOGGING"

def ofName? (s : String) : Option Field := all.find? fun f => f.name == s

@[simp] theorem ofName?_name (f : Field) : ofName? f.name = some f := by
  cases f <;> decide

theorem name_injective {f g : Field} (h : f.name = g.name) : f = g := by
  have := congrArg ofName? h
  simpa using this

end Field

structure Settings where
  listDepthCap : Numeral := .whole 4
  markdownPreset : Preset := .commonmark
  enableTables : Value := .truth true
  enableStrikethrough : Value := .truth true
  tokenCacheSize : Numeral := .whole 16
  debugLogging : Value := .truth false

namespace Settings

def standard : Settings := {}

def get (s : Settings) : Field → Value
  | .listDepthCap => .ofNumeral s.listDepthCap
  | .markdownPreset => .text s.markdownPreset.name
  | .enableTables => s.enableTables
  | .enableStrikethrough => s.enableStrikethrough
  | .tokenCacheSize => .ofNumeral s.tokenCacheSize
  | .debugLogging => s.debugLogging

/-- A number that is not less than a bound. A value that cannot be compared is a mismatch. -/
def bounded (v : Value) (bound : Int) (refusal : Refusal) : Except Failure Numeral :=
  match v.numeral? with
  | none => .error (.mismatch (.comparison v.kindName (Value.whole bound).kindName))
  | some n => if n.lt (.whole bound) then .error (.refused refusal) else .ok n

/-- The preset that a value names. A value that cannot be looked up is a mismatch. -/
def preset (v : Value) : Except Failure Preset :=
  match v.unhashable? with
  | some kind => .error (.mismatch (.lookup kind))
  | none => match v with
    | .text s => match Preset.ofName? s with
      | some p => .ok p
      | none => .error (.refused (.unknownPreset v))
    | _ => .error (.refused (.unknownPreset v))

/-- The settings with the given values. The depth is looked at first and the preset last. -/
def ofValues (v : Field → Value) : Except Failure Settings := do
  let cap ← bounded (v .listDepthCap) 1 .depthCapBelowOne
  let size ← bounded (v .tokenCacheSize) 0 .negativeCacheSize
  let preset ← preset (v .markdownPreset)
  return {
    listDepthCap := cap
    markdownPreset := preset
    enableTables := v .enableTables
    enableStrikethrough := v .enableStrikethrough
    tokenCacheSize := size
    debugLogging := v .debugLogging }

/-- The settings that a host asks for by naming fields; every name has to be that of a field. -/
def ofNamed (entries : List (String × Value)) : Except Failure Settings :=
  if entries.all fun e => (Field.ofName? e.1).isSome then
    ofValues fun f => (entries.lookup f.name).getD (standard.get f)
  else .error (.mismatch .use)

def Valid (s : Settings) : Prop :=
  s.listDepthCap.lt (.whole 1) = false ∧ s.tokenCacheSize.lt (.whole 0) = false

def entries (s : Settings) : List (String × Value) :=
  Field.all.map fun f => (f.name, (s.get f).plain)

def toValue (s : Settings) : Value := .map s.entries

/-- How deep lists and maps may lie in one another in what is told of settings. -/
def depthLimit : Nat := 490

/-- The settings as a map by field, unless they are nested too deep. -/
def toMap (s : Settings) : Except Failure Value :=
  if depthLimit < s.toValue.depth then .error .nestedTooDeep else .ok s.toValue

end Settings

end Concentric
