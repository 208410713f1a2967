import Concentric.Chain.Blocks

/-! Chains of blocks with their lines looked up. Putting a block into a chain takes looking at lines
by their numbers, which fails for a line that the document does not have. Tokens may claim any lines,
so a number is moved into the document first, and a line is looked at for blanks only where there is
one. Then no look-up fails, and the chain is the one that is built without them. -/

namespace Concentric

namespace Document

/-- The end of the nearest line, with the line looked up by its number. -/
def lookupEnd (d : Document) (n : Int) : Except Failure Position := do
  let length ← d.lineLength (d.clampLine n)
  return ⟨d.clampLine n, length⟩

/-- Looks whether a line is blank, if the document has the line. -/
def lookupBlank (d : Document) (n : Int) : Except Failure Bool :=
  if 0 ≤ n ∧ n < d.lineCount then d.isBlank n else .ok false

theorem lookupEnd_eq (d : Document) (n : Int) : d.lookupEnd n = .ok (d.lineEnd n) := by
  have hlt := d.clampLine_lt n
  unfold lookupEnd
  rw [lineLength_of_lt hlt, Failure.ok_bind]
  unfold lineEnd nearestLength
  rw [clampLine_of_lt hlt]
  rfl

theorem lookupBlank_eq (d : Document) (n : Int) : d.lookupBlank n = .ok (d.hasBlank n) := by
  unfold lookupBlank hasBlank
  have hiff := line?_isSome_iff (d := d) (n := n)
  cases hl : d.line? n with
  | none =>
    rw [hl] at hiff
    rw [if_neg fun h => Bool.false_ne_true (hiff.mpr h)]
  | some l =>
    rw [hl] at hiff
    rw [if_pos (hiff.mp rfl)]
    unfold isBlank lineAt lineNumbered
    simp only [Numeral.whole?, Option.getD_some, hl]
    rfl

end Document

/-! ## Blocks -/

namespace Block

def lookupLines (site : Site) (first last : Int) : Except Failure Span := do
  return .between (.clamped first 0) (← site.document.lookupEnd last)

def lookupPlain (site : Site) (b : Block) : Except Failure Span := do
  let first :=
    if ← site.document.lookupBlank b.lines.start then b.lines.start + 1 else b.lines.start
  let last := if first = b.lines.stop then b.lines.stop else b.lines.stop - 1
  if b.type.name? = some "paragraph_open" ∧ b.lines.length = 2 then
    lookupLines site site.cursor site.cursor
  else lookupLines site first last

/-- The lines between the marks of a fence, looked up if they are taken. -/
def lookupContent (site : Site) (b : Block) : Except Failure (Option Span) :=
  let last : Int := fenceEnd site b
  if last - b.lines.start > 2 ∧ site.cursor ≠ b.lines.start ∧ site.cursor ≠ last then do
    return some (← lookupLines site (b.lines.start + 1) (last - 1))
  else .ok none

def lookupList (site : Site) (b : Block) (chain : Chain) : Except Failure Chain := do
  let last := listEnd site b
  let s := Step.fresh (← lookupLines site b.lines.start last)
  match chain with
  | [] => return [s]
  | p :: outer =>
    if b.lines.start - p.span.start.line ≤ 1 ∧ last = p.span.stop.line then return s :: outer
    else return s :: p :: outer

def lookupJoin (site : Site) (chain : Chain) (b : Block) : Except Failure Chain := do
  if b.asList then lookupList site b chain
  else if b.isFence then
    let fence ← lookupLines site b.lines.start (fenceEnd site b)
    return joinFence fence (← lookupContent site b) chain
  else return joinPlain (← lookupPlain site b) chain

variable (site : Site) (b : Block) (chain : Chain)

theorem lookupLines_eq (first last : Int) :
    lookupLines site first last = .ok (wholeLines site first last) := by
  unfold lookupLines
  rw [Document.lookupEnd_eq]
  rfl

theorem lookupPlain_eq : lookupPlain site b = .ok (plainSpan site b) := by
  unfold lookupPlain plainSpan
  rw [Document.lookupBlank_eq, Failure.ok_bind]
  simp only [lookupLines_eq]
  split <;> rfl

theorem lookupContent_eq : lookupContent site b = .ok (fenceContent site b) := by
  unfold lookupContent fenceContent
  simp only [lookupLines_eq]
  split <;> rfl

theorem lookupList_eq : lookupList site b chain = .ok (joinList site b chain) := by
  unfold lookupList joinList
  simp only [lookupLines_eq, Failure.ok_bind]
  cases chain with
  | nil => rfl
  | cons p outer =>
    dsimp only
    split <;> rfl

theorem lookupJoin_eq : lookupJoin site chain b = .ok (join site chain b) := by
  unfold lookupJoin join joinAlone
  simp only [lookupLines_eq, lookupContent_eq, lookupPlain_eq, lookupList_eq, Failure.ok_bind]
  split
  · rfl
  · split <;> rfl

theorem foldlM_lookupJoin (bs : List Block) :
    bs.foldlM (lookupJoin site) chain = .ok (bs.foldl (join site) chain) := by
  induction bs generalizing chain with
  | nil => rfl
  | cons b bs ih =>
    rw [List.foldlM_cons, lookupJoin_eq, Failure.ok_bind]
    exact ih _

end Block

namespace Blocks

/-- The chain of the blocks around the cursor, with all lines that it takes looked up. -/
def lookupChain (site : Site) (tokens : List Token) (seed : Chain) : Except Failure Chain :=
  match Token.around id site.cursor tokens with
  | .error f => .error f
  | .ok [] => .ok []
  | .ok ts => do
    let blocks ← (Move.all site.depthCap (!seed.isEmpty) ts).mapM Move.block
    blocks.foldlM (Block.lookupJoin site) seed

theorem lookupChain_eq (site : Site) (tokens : List Token) (seed : Chain) :
    lookupChain site tokens seed = chain site tokens seed := by
  unfold lookupChain chain carryOut
  simp only [Block.foldlM_lookupJoin]
  rfl

end Blocks

end Concentric
