import Concentric.Json.Reader
import Concentric.Token

/-! Token streams as JSON documents: a list of maps. A key that is missing has the value that a
token has without it. -/

namespace Concentric

namespace Token

/-- The token of a map; anything else is a token that says nothing. -/
def ofValue : Value → Token
  | .map es => {
      type := match es.lookup "type" with
        | some (.text s) => .named s
        | some v => .other v
        | none => .absent
      map := (es.lookup "map").getD .nothing
      level := (es.lookup "level").getD (.whole 0)
      tag := (es.lookup "tag").getD (.text "")
      markup := (es.lookup "markup").getD (.text "")
      content := (es.lookup "content").getD (.text "") }
  | _ => {}

def ofDocument? (document : List Char) : Option (List Token) :=
  match Json.read document with
  | .ok (.list vs) => some (vs.map ofValue)
  | _ => none

end Token

end Concentric
