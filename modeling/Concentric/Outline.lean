import Concentric.Document
import Concentric.Outline.Slug
import Concentric.Position.Reading
import Concentric.Token
import Concentric.Value.Order

/-! Outlines: the headings of a document, each with the lines of its section. A section goes on to
the line before the next heading of the same or a higher rank, or to the end of the document. -/

namespace Concentric

/-- A heading with its section. The line is as the token gives it. -/
structure Heading where
  level : Int
  line : Value
  text : String
  slug : String
  span : Span
  deriving Repr

/-- A heading before its section is known. Its text need not be one yet. -/
structure Title where
  level : Int
  line : Value
  text : Value
  deriving Repr

namespace Title

def markCount : Value → Except Failure Nat
  | .text s => .ok (s.toList.count '#')
  | .list vs | .tuple vs => .ok (vs.countP fun v => v matches .text "#")
  | .position _ => .ok 0
  | .octets _ => .error (.mismatch .use)
  | v => .error (.notText "count" v)

/-- The rank that a tag names after its letter, else the number of marks, and at least one. -/
def levelOf (t : Token) : Except Failure Int :=
  match t.tag with
  | .text s => match Literal.read (s.toList.dropWhile (· == 'h')) with
    | .ok n => .ok n
    | .error _ => (markCount t.markup).map fun (n : Nat) => max 1 (n : Int)
  | .octets _ => .error (.mismatch .use)
  | v => .error (.notText "lstrip" v)

/-- A content without the blanks around it. Octets are left to fail where a text is needed. -/
def trimmed : Value → Except Failure Value
  | .text s => .ok (.text (String.ofList (Unicode.trim s.toList)))
  | .octets bs => .ok (.octets bs)
  | v => .error (.notText "strip" v)

def textOf : List Token → Except Failure Value
  | [] => .ok (.text "")
  | next :: _ => do
    match ← next.type.get with
    | .named "inline" => trimmed next.content
    | _ => return .text ""

def open? (t : Token) (rest : List Token) : Except Failure (Option Title) := do
  match ← t.type.get with
  | .named "heading_open" =>
    if t.map.truthy then
      let text ← textOf rest
      let level ← levelOf t
      let line ← t.map.first
      return some ⟨level, line, text⟩
    else return none
  | _ => return none

def ofTokens : List Token → Except Failure (List Title)
  | [] => .ok []
  | t :: rest => do
    let title? ← open? t rest
    let titles ← ofTokens rest
    return title?.toList ++ titles

end Title

namespace Outline

def lastLine (d : Document) (level : Int) (rest : List Title) : Except Failure Numeral :=
  match rest.find? fun t => t.level ≤ level with
  | some t => t.line.minus 1
  | none => .ok (.whole (max 0 (d.lineCount - 1)))

def textOf : Value → Except Failure String
  | .text s => .ok s
  | _ => .error (.mismatch .use)

/-- The text of a title and the lines of its section, from its own line to its last one. The last
line is looked at first, then the text, and then its own line. -/
def sectionOf (d : Document) (t : Title) (rest : List Title) : Except Failure (String × Span) := do
  let last ← lastLine d t.level rest
  let line ← d.lineNumbered last
  let stop ← Position.ofCoordinates (.ofNumeral last) (.whole line.length)
  let text ← textOf t.text
  let start ← Position.ofCoordinates t.line (.whole 0)
  return (text, .between start stop)

def sections (d : Document) : List Title → Except Failure (List (String × Span))
  | [] => .ok []
  | t :: rest => do
    let s ← sectionOf d t rest
    let ss ← sections d rest
    return s :: ss

def ofTokens (d : Document) (tokens : List Token) : Except Failure (List Heading) := do
  let titles ← Title.ofTokens tokens
  let sections ← sections d titles
  let slugs := Slug.number [] (sections.map fun s => Slug.ofText s.1)
  return (titles.zip (slugs.zip sections)).map fun (t, slug, text, span) =>
    ⟨t.level, t.line, text, slug, span⟩

/-- The first heading with a slug; blanks around it and its case do not matter. -/
def lookup? (outline : List Heading) (slug : String) : Option Heading :=
  outline.find? fun h => h.slug == Slug.sought slug

end Outline

end Concentric
