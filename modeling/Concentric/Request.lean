import Concentric.Outline
import Concentric.Position.Reading
import Concentric.Selection
import Concentric.Tokenizer

/-! Requests of a host: the chains of many positions of a document at once. All positions are read
before anything else is done. A request may be cancelled at any time; it takes notice when it
begins and before each position, and a position that was begun is finished. -/

namespace Concentric

/-- When a request looks whether it has been cancelled. -/
inductive Checkpoint
  | begin
  | position (index : Nat)
  deriving DecidableEq, Repr

/-- What answers a request: where tokens and outlines come from, and the depth of lists. Tokens
come with what was asked of the block parser for them. -/
structure Provider where
  tokens : Document → List Token × List ParserCall
  outline : Document → List Token → Except Failure (List Heading) := Outline.ofTokens
  depthCap : Numeral := Settings.standard.listDepthCap

namespace Provider

def ofTokenizer (parser : BlockParser) (t : Tokenizer) : Provider where
  tokens d :=
    let p := t.parse parser d
    (p.stream.tokens, p.calls)
  depthCap := t.settings.listDepthCap

/-- The provider for which a host has the tokens. Its settings go before those of the host's own
tokenizer, and without either the standard ones count. -/
def ofTokens (tokens : List Token) (settings own : Option Settings) : Provider where
  tokens _ := (tokens, [])
  depthCap := ((settings <|> own).getD Settings.standard).listDepthCap

end Provider

/-- The answer to a request: the chains that are not empty, and what it took. -/
structure Reply where
  chains : List Chain := []
  parses : Nat := 0
  outlines : Nat := 0
  asked : Nat := 0
  begun : Nat := 0
  calls : List ParserCall := []

namespace Reply

def parse (r : Reply) (provider : Provider) (d : Document) : List Token × Reply :=
  let (tokens, calls) := provider.tokens d
  (tokens, { r with parses := r.parses + 1, calls := r.calls ++ calls })

def outline (r : Reply) (provider : Provider) (d : Document) (tokens : List Token) :
    Except Failure (List Heading × Reply) := do
  let outline ← provider.outline d tokens
  return (outline, { r with outlines := r.outlines + 1 })

def start (r : Reply) (s : Selection) (p : Position) : Except Failure Reply := do
  let c ← s.chain p
  return { r with begun := r.begun + 1, chains := r.chains ++ if c.isEmpty then [] else [c] }

end Reply

namespace Request

/-- Starts on positions, from the one with an index on, until the request is cancelled. -/
def startFrom (s : Selection) (cancelled : Checkpoint → Bool) (i : Nat) (r : Reply) :
    List Position → Except Failure Reply
  | [] => .ok r
  | p :: ps =>
    if cancelled (.position i) then .ok r
    else do startFrom s cancelled (i + 1) (← r.start s p) ps

def answer (provider : Provider) (d : Document) (values : List Value)
    (cancelled : Checkpoint → Bool) : Except Failure Reply := do
  let positions ← values.mapM Position.ofValue
  if positions.isEmpty || cancelled .begin then return {}
  let (tokens, r) := Reply.parse { asked := positions.length } provider d
  let (outline, r) ← r.outline provider d tokens
  startFrom ⟨d, tokens, outline, provider.depthCap⟩ cancelled 0 r positions

end Request

def Reply.notices (r : Reply) : List Notice :=
  if r.begun < r.asked then [.cancelled r.chains.length r.asked] else []

end Concentric
