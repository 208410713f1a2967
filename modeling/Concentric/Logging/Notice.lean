import Concentric.Logging.Level
import Concentric.Program
import Concentric.Span
import Concentric.Text.Quoted

/-! Notices: what the parts of the program tell a log. A notice has a level, the part that it comes
from, and a template with places that its arguments go into one after another. -/

namespace Concentric

inductive Notice
  | loggingConfigured (level : String)
  | tokenized (uri : String) (tokens : Nat)
  | outlined (uri : String) (headings : Nat)
  | headingChain (place : Position) (steps : Nat)
  | unrelated (type : String) (block innermost : Span)
  | cancelled (done asked : Nat)
  | notJson (path fault : String)
  | notMap (path : String)
  | unusable (path reason : String)
  | variableIgnored (name text : String)
  | overridesApplied (source : String) (fields : List String)
  | saved (path : String)
  | callbackFailed
  deriving DecidableEq, Repr

namespace Notice

def level : Notice → Int
  | notJson .. | notMap .. | unusable .. | variableIgnored .. => Level.warning
  | callbackFailed => Level.error
  | _ => Level.debug

def logger : Notice → String
  | loggingConfigured .. => Program.logger "app"
  | tokenized .. => Program.logger "editor.syntax.markdown"
  | outlined .. => Program.logger "editor.syntax.toc"
  | headingChain .. => Program.logger "selection.headers"
  | unrelated .. => Program.logger "selection.blocks"
  | cancelled .. => Program.logger "selection.provider"
  | callbackFailed => Program.logger "editor.cancellation"
  | _ => Program.logger "services.settings"

def template : Notice → String
  | loggingConfigured .. => "Logging configured (level=%s)"
  | tokenized .. => "Tokenized %s into %d tokens"
  | outlined .. => "Outline for %s has %d headings"
  | headingChain .. => "Header chain at %s has %d levels"
  | unrelated .. => "Ignoring %s at %s: unrelated to %s"
  | cancelled .. => "Selection request cancelled after %d of %d positions"
  | notJson .. => "Settings file %s is not valid JSON: %s"
  | notMap .. => "Settings file %s does not hold a JSON object"
  | unusable .. => "Ignoring settings in %s with unexpected data: %s"
  | variableIgnored .. => "Ignoring environment override %s=%r"
  | overridesApplied .. => "Applying %s settings overrides: %s"
  | saved .. => "Settings saved to %s"
  | callbackFailed => "Cancellation callback failed"

def arguments : Notice → List String
  | loggingConfigured level => [level]
  | tokenized uri n | outlined uri n => [uri, Digits.text n]
  | headingChain p n => [p.text, Digits.text n]
  | unrelated type block innermost => [type, block.text, innermost.text]
  | cancelled done asked => [Digits.text done, Digits.text asked]
  | notJson path fault => [path, fault]
  | notMap path => [path]
  | unusable path reason => [path, reason]
  | variableIgnored v text => [v, Quoted.text text]
  | overridesApplied source fields => [source, (Value.list (fields.map .text)).shown]
  | saved path => [path]
  | callbackFailed => []

/-- Puts arguments into the places of a template, each a percent sign with a letter. -/
def fill : List Char → List String → List Char
  | '%' :: _ :: rest, a :: as => a.toList ++ fill rest as
  | c :: rest, as => c :: fill rest as
  | [], _ => []

def message (n : Notice) : String := String.ofList (fill n.template.toList n.arguments)

end Notice

end Concentric
