import Concentric.Settings
import Concentric.Text.Cut
import Concentric.Unicode.LowerCase

/-! Overrides: settings given as text on the command line or in the environment. A text becomes a
value of the field's kind: a word of yes or anything else for a switch, a whole number, or a name
without the blanks around it. -/

namespace Concentric

/-- The kinds of fields that differ in how a text is read. -/
inductive FieldKind
  | switch
  | number
  | name
  deriving DecidableEq, Repr

def Field.kind : Field → FieldKind
  | .listDepthCap | .tokenCacheSize => .number
  | .markdownPreset => .name
  | .enableTables | .enableStrikethrough | .debugLogging => .switch

namespace Override

def yes : List String := ["1", "true", "yes", "on", "debug"]

def ofText (f : Field) (s : String) : Except Failure Value :=
  let trimmed := Unicode.trim s.toList
  match f.kind with
  | .switch => .ok (.truth (yes.contains (String.ofList (Unicode.lower trimmed))))
  | .number => match Literal.read trimmed with
    | .ok n => .ok (.whole n)
    | .error e => .error (.ofLiteral (String.ofList trimmed) e)
  | .name => .ok (.text (String.ofList trimmed))

/-- The value of a field; a value that is no text stays as it is. -/
def coerce (f : Field) : Value → Except Failure Value
  | .text s => ofText f s
  | v => .ok v

/-- Words that between double underscores name something else of settings than a field. -/
def reservedWords : List String :=
  ["annotations", "class", "delattr", "dir", "doc", "eq", "format", "ge", "getattribute",
    "getstate", "gt", "hash", "init", "init_subclass", "le", "lt", "match_args", "module", "ne",
    "new", "post_init", "reduce", "reduce_ex", "repr", "setattr", "sizeof", "slots", "str",
    "subclasshook"]

def isReserved (name : String) : Bool :=
  name == "field_names" || reservedWords.any fun w => name == "__" ++ w ++ "__"

/-- The value of a text for what a name stands for: a field, or a name of another kind. -/
def ofNamedText (name s : String) : Except Failure Value :=
  match Field.ofName? name with
  | some f => ofText f s
  | none =>
    if isReserved name then .ok (.text (String.ofList (Unicode.trim s.toList)))
    else .error .missingAttribute

/-- The value for a name, which only a text is looked up by: other values stay as they are. -/
def coerceNamed (name : Value) : Value → Except Failure Value
  | .text s => match name with
    | .text n => ofNamedText n s
    | _ => .error (.mismatch .use)
  | v => .ok v

/-- The entries that name a field and hold something, in their order. -/
def relevant (overrides : List (String × Value)) : List (Field × Value) :=
  overrides.filterMap fun e => match Field.ofName? e.1, e.2 with
    | _, .nothing => none
    | some f, v => some (f, v)
    | none, _ => none

def changes (overrides : List (String × Value)) : Except Failure (List (Field × Value)) :=
  (relevant overrides).mapM fun e => return (e.1, ← coerce e.1 e.2)

/-- The settings with changes; without any they stay as they are. -/
def apply (s : Settings) (changes : List (Field × Value)) : Except Failure Settings :=
  if changes.isEmpty then .ok s
  else Settings.ofValues fun f => (changes.lookup f).getD (s.get f)

def merge (s : Settings) (overrides : List (String × Value)) : Except Failure Settings :=
  changes overrides >>= apply s

/-! ## From the environment -/

def given (environment : List (String × String)) : List (Field × String) :=
  Field.all.filterMap fun f => (environment.lookup f.envVariable).map fun s => (f, s)

/-- The overrides of the environment; a text that is no value of its field has no effect. -/
def ofEnvironment (environment : List (String × String)) : List (String × Value) :=
  (given environment).filterMap fun e => match ofText e.1 e.2 with
    | .ok v => some (e.1.name, v)
    | .error _ => none

def rejected (environment : List (String × String)) : List (Field × String) :=
  (given environment).filter fun e => match ofText e.1 e.2 with
    | .ok _ => false
    | .error _ => true

/-! ## From the command line -/

def put (name : String) (v : Value) : List (String × Value) → List (String × Value)
  | [] => [(name, v)]
  | (k, w) :: es => if k = name then (name, v) :: es else (k, w) :: put name v es

def cutEntry (entry : String) : Except Failure (String × String) :=
  match Text.cut? '=' entry.toList with
  | none => .error (.refused (.overrideWithoutValue entry))
  | some (key, text) =>
    let name := String.ofList (Unicode.trim key)
    if name = "" then .error (.refused .overrideWithoutName)
    else if (Field.ofName? name).isNone then .error (.refused (.unknownSetting name))
    else .ok (name, String.ofList (Unicode.trim text))

/-- The name and the text of an entry; one that is no text has no sign of equality in it. -/
def ofEntry : Value → Except Failure (String × String)
  | .text entry => cutEntry entry
  | v => .error (.refused (.overrideWithoutValue v.display))

/-- The overrides of entries; of two for one field the later counts. -/
def ofEntries (entries : List Value) : Except Failure (List (String × Value)) :=
  entries.foldlM (fun os entry => do
    let (name, text) ← ofEntry entry
    return put name (.text text) os) []

end Override

end Concentric
