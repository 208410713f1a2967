import Concentric.Chain.Blocks
import Concentric.Chain.Headings
import Concentric.Logging.Notice

/-! Expanding selections: for a position the chain of the headings around it, and put into that
the chain of the blocks around it. -/

namespace Concentric

/-- What selections are made in: a document with its tokens and outline, and a depth of lists. -/
structure Selection where
  document : Document
  tokens : List Token
  outline : List Heading
  depthCap : Numeral := .whole 4

namespace Selection

def site (s : Selection) (p : Position) : Site := ⟨s.document, p.line, .ofNumeral s.depthCap⟩

/-- The chain of a position; without any structure around it there is none. -/
def chain (s : Selection) (p : Position) : Except Failure Chain := do
  let headings ← Headings.chain s.document s.outline p
  let blocks ← Blocks.chain (s.site p) s.tokens headings
  return if blocks.isEmpty then headings else blocks

def notices (s : Selection) (p : Position) : List Notice :=
  match Headings.chain s.document s.outline p with
  | .error _ => []
  | .ok headings =>
    (if headings.isEmpty then [] else [.headingChain p headings.depth]) ++
      (Blocks.unrelatedTo (s.site p) s.tokens headings).map fun (type, block, innermost) =>
        .unrelated type.display block innermost

end Selection

end Concentric
