import Concentric.Value

/-! Reports: the failures that a host is told about in full, with a code, a message, details and
a hint. Every report has a kind, and the kind gives its code, message and hint unless the host
gives others. -/

namespace Concentric

inductive ReportKind
  | general
  | lineOutOfBounds
  | invalidPosition
  | documentNotFound
  deriving DecidableEq, Repr

namespace ReportKind

def code : ReportKind → String
  | general => "internal_error"
  | lineOutOfBounds => "line_out_of_bounds"
  | invalidPosition => "invalid_position"
  | documentNotFound => "document_not_found"

def message : ReportKind → String
  | general => "Smart selection failed"
  | lineOutOfBounds => "Line number is out of bounds"
  | invalidPosition => "Position is malformed"
  | documentNotFound => "The document could not be found"

def suggestion : ReportKind → String
  | general => ""
  | lineOutOfBounds => "Check the document line count before requesting a line"
  | invalidPosition => "Positions are zero-based LINE:CHAR pairs, e.g. 12:0"
  | documentNotFound => "Verify the path points to a readable Markdown file"

/-- What a report of the kind says beyond the fields that all reports have. -/
def extras : ReportKind → List String
  | general => []
  | lineOutOfBounds => ["line", "total_lines"]
  | invalidPosition => ["value"]
  | documentNotFound => ["path"]

end ReportKind

inductive PositionFault
  | lineNotWhole
  | characterNotWhole
  | textWithoutLine
  | mapWithoutLine
  | notAPair
  | unsupported
  deriving DecidableEq, Repr

def PositionFault.message : PositionFault → String
  | lineNotWhole => "Position line must be an integer"
  | characterNotWhole => "Position character must be an integer"
  | textWithoutLine => "Position text must look like LINE:CHAR"
  | mapWithoutLine => "Position mappings require a line key"
  | notAPair => "Position sequences must have exactly two entries"
  | unsupported => "Unsupported Position input"

/-- A report. An extra field that holds nothing is not part of it. -/
structure Report where
  kind : ReportKind
  code : Value := .text kind.code
  message : Value := .text kind.message
  details : Value := .map []
  suggestion : Value := .text kind.suggestion
  extras : List (String × Value) := []
  deriving Repr

namespace Report

def lineOutOfBounds (line : Numeral) (total : Nat) : Report where
  kind := .lineOutOfBounds
  message := .text ("Line " ++ (Value.ofNumeral line).display ++
    " is outside the document (0.." ++ Digits.text (total - 1 : Int) ++ ")")
  extras := [("line", .ofNumeral line), ("total_lines", .whole total)]

def invalidPosition (fault : PositionFault) (value : Value) : Report where
  kind := .invalidPosition
  message := .text fault.message
  extras := [("value", value)]

def documentNotFound (path : String) : Report where
  kind := .documentNotFound
  message := .text ("No such file: " ++ path)
  extras := [("path", .text path)]

/-- One field set by a host; no report has a field of another name. -/
def setField? (r : Report) (name : String) (v : Value) : Option Report :=
  if name = "error_code" then some { r with code := v }
  else if name = "message" then some { r with message := v }
  else if name = "details" then some { r with details := v }
  else if name = "suggestion" then some { r with suggestion := v }
  else if name ∈ r.kind.extras then some { r with extras := (name, v) :: r.extras }
  else none

def ofFields? (kind : ReportKind) (fields : List (String × Value)) : Option Report :=
  fields.foldlM (fun r f => r.setField? f.1 f.2) { kind := kind }

/-- An extra field as the report tells it: the offending value is quoted. -/
def extra? (r : Report) (name : String) : Option Value :=
  match r.extras.lookup name with
  | none | some .nothing => none
  | some v => some (if name = "value" then .text v.shown else v)

/-- The report in one line: its code in brackets and its message. -/
def text (r : Report) : String :=
  "[" ++ r.code.display ++ "] " ++ r.message.display

end Report

end Concentric
