import Concentric.Outline
import Concentric.Selection
import Concentric.Tokenizer

/-! Batches: the chains of all positions that a command asks for. The tokenizer is asked twice, for
the chains and for the outline; with room in its cache the second answer is the first one kept. -/

namespace Concentric.CommandLine

/-- What a batch gives: the chains by position, what was asked of the block parser, and what there
is to tell. -/
structure Batch where
  calls : List ParserCall
  notices : List Notice
  chains : Except Failure (List (Position × Chain))

namespace Batch

/-- What there is to tell about positions, up to the first without a chain to be made. -/
def positionNotices (s : Selection) : List Position → List Notice
  | [] => []
  | p :: ps => s.notices p ++ match s.chain p with
    | .ok _ => positionNotices s ps
    | .error _ => []

def parseNotices (d : Document) (p : Tokenizer.Parse) : List Notice :=
  if p.calls.isEmpty then [] else [.tokenized d.uri p.stream.tokens.length]

def run (parser : BlockParser) (settings : Settings) (d : Document) (ps : List Position) :
    Batch :=
  let first := (Tokenizer.fresh settings).parse parser d
  let second := first.tokenizer.parse parser d
  let calls := first.calls ++ second.calls
  let parsed := parseNotices d first ++ parseNotices d second
  match Outline.ofTokens d second.stream.tokens with
  | .error f => ⟨calls, parsed, .error f⟩
  | .ok outline =>
    let selection : Selection := ⟨d, first.stream.tokens, outline, settings.listDepthCap⟩
    ⟨calls, parsed ++ .outlined d.uri outline.length :: positionNotices selection ps,
      ps.mapM fun p => return (p, ← selection.chain p)⟩

end Batch

end Concentric.CommandLine
