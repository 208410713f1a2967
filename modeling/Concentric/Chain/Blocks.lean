import Concentric.Chain
import Concentric.Chain.Relation
import Concentric.Document
import Concentric.Token
import Concentric.Value.Order

/-! Chains of blocks. The blocks around a line are put into a chain from the longest inwards, and
how a block joins is decided by the relation of its span to the innermost one so far. A run of
lists is walked level by level, down to a depth at which the chain ends. -/

namespace Concentric

/-- Where a chain is built: in a document, at a line, and down to a depth of lists. -/
structure Site where
  document : Document
  cursor : Int
  depthCap : Value := .whole 4

structure Block where
  asList : Bool
  type : TokenType
  level : Value
  lines : LineRange
  deriving Repr

namespace Block

def wholeLines (site : Site) (first last : Int) : Span :=
  .between (.clamped first 0) (site.document.lineEnd last)

/-! ## Plain blocks -/

/-- The lines of a plain block. A blank first line is left out, and of a paragraph of two lines
only the line of the cursor is taken. -/
def plainSpan (site : Site) (b : Block) : Span :=
  let first := if site.document.hasBlank b.lines.start then b.lines.start + 1 else b.lines.start
  let last := if first = b.lines.stop then b.lines.stop else b.lines.stop - 1
  if b.type.name? = some "paragraph_open" ∧ b.lines.length = 2 then
    wholeLines site site.cursor site.cursor
  else wholeLines site first last

def joinPlain (s : Span) : Chain → Chain
  | [] => [.fresh s]
  | p :: outer => match Relation.classify s p.span with
    | .contains => .fresh s :: p :: outer
    | .equal => p :: outer
    | .sameLines =>
      if p.span.stop.character < s.stop.character then [.fresh s] else p :: outer
    | .extendsOneLine =>
      let t := Span.between s.start ⟨s.stop.line - 1, p.span.stop.character⟩
      if t = p.span then p :: outer else .fresh t :: p :: outer
    | .sharedEndLine =>
      let t := Span.between p.span.start s.stop
      if t = p.span then p :: outer else .fresh t :: outer
    | .disjoint => p :: outer

/-! ## Fences -/

def isFence (b : Block) : Bool := b.type.name? == some "fence"

def fenceEnd (site : Site) (b : Block) : Nat := site.document.clampLine (b.lines.stop - 1)

def fenceSpan (site : Site) (b : Block) : Span :=
  wholeLines site b.lines.start (fenceEnd site b)

/-- The lines between the marks, if there are two or more and the cursor is on neither mark. -/
def fenceContent (site : Site) (b : Block) : Option Span :=
  let last : Int := fenceEnd site b
  if last - b.lines.start > 2 ∧ site.cursor ≠ b.lines.start ∧ site.cursor ≠ last then
    some (wholeLines site (b.lines.start + 1) (last - 1))
  else none

def wider (fence parent : Span) : Span :=
  if parent.stop.character < fence.stop.character then fence else parent

def joinFence (fence : Span) (content : Option Span) (chain : Chain) : Chain :=
  match content, chain with
  | none, [] => [.fresh fence]
  | none, p :: outer => match Relation.classify fence p.span with
    | .contains | .sharedEndLine => .fresh fence :: p :: outer
    | .sameLines => .fresh (wider fence p.span) :: outer
    | .equal | .extendsOneLine | .disjoint => p :: outer
  | some c, [] => [.fresh c, .fresh fence]
  | some c, p :: outer => match Relation.classify fence p.span with
    | .contains | .sharedEndLine => .fresh c :: .fresh fence :: p :: outer
    | .equal => .fresh c :: p :: outer
    | .sameLines =>
      let w := wider fence p.span
      if w = p.span then .fresh c :: p :: outer
      else .fresh c :: .fresh w :: Chain.enclosing (p :: outer) w
    | .extendsOneLine | .disjoint => p :: outer

/-! ## Lists -/

/-- The last line of a list or an item. A list at the top leaves out one more line, which is the
blank one after it. -/
def listEnd (site : Site) (b : Block) : Nat :=
  let last := if b.level.isNumber 0 then b.lines.stop - 2 else b.lines.stop - 1
  site.document.clampLine (max b.lines.start last)

/-- Puts a list into a chain. It takes the place of the innermost step if it ends with it and
starts at most a line after it. -/
def joinList (site : Site) (b : Block) (chain : Chain) : Chain :=
  let last := listEnd site b
  let s := Step.fresh (wholeLines site b.lines.start last)
  match chain with
  | [] => [s]
  | p :: outer =>
    if b.lines.start - p.span.start.line ≤ 1 ∧ last = p.span.stop.line then s :: outer
    else s :: p :: outer

/-! ## One block after another -/

def joinAlone (site : Site) (b : Block) (chain : Chain) : Chain :=
  if b.isFence then joinFence (fenceSpan site b) (fenceContent site b) chain
  else joinPlain (plainSpan site b) chain

def join (site : Site) (chain : Chain) (b : Block) : Chain :=
  if b.asList then joinList site b chain else joinAlone site b chain

/-- The span of a block that a chain has no place for, and the innermost span of the chain. -/
def unrelated? (site : Site) (chain : Chain) (b : Block) : Option (Span × Span) :=
  match chain with
  | [] => none
  | p :: _ =>
    let s := if b.isFence then fenceSpan site b else plainSpan site b
    match b.asList, Relation.classify s p.span with
    | false, .disjoint => some (s, p.span)
    | false, .extendsOneLine => if b.isFence then some (s, p.span) else none
    | _, _ => none

end Block

/-- A token that is to join a chain, as a list or on its own; or the end of a walk that cannot go
on, because what it has to compare cannot be compared. -/
inductive Move
  | list (t : Token)
  | alone (t : Token)
  | stuck
  deriving Repr

namespace Move

def blockOf (asList : Bool) (type : TokenType) (t : Token) : Except Failure Block :=
  match t.lines? with
  | some r => .ok ⟨asList, type, t.level, r⟩
  | none => .error (.mismatch .use)

/-- The token as a block. On its own it needs a type, and in any case lines. -/
def block : Move → Except Failure Block
  | list t => blockOf true t.type t
  | alone t => do blockOf false (← t.type.get) t
  | stuck => .error (.mismatch .use)

/-- The walk down a run of lists from a level: of each level the first list counts. Where the
depth is reached the walk is over, and where the lists end the other tokens follow on their own. -/
def walk (cap level : Numeral) : List Token → List Move
  | [] => []
  | t :: rest =>
    if level.lt cap && !t.type.isKey then [stuck]
    else if level.lt cap && t.isList then
      if t.level.equals level then list t :: walk cap level.next rest else walk cap level rest
    else if level.eq cap then []
    else (t :: rest).map alone

def lists (cap : Value) : List Token → List Move
  | [] => []
  | t :: rest => match cap.numeral?, t.level.numeral? with
    | some cap, some level => walk cap level (t :: rest)
    | _, _ => [stuck]

/-- Tokens on their own up to the first list, and from there the walk. -/
def mixed (cap : Value) : List Token → List Move
  | [] => []
  | t :: rest => if t.isList then lists cap (t :: rest) else alone t :: mixed cap rest

/-- Without a chain to start from the first token stands on its own, whatever it is. -/
def all (cap : Value) (seeded : Bool) : List Token → List Move
  | [] => []
  | t :: rest => if seeded then mixed cap (t :: rest) else alone t :: mixed cap rest

end Move

namespace Blocks

def carryOut (site : Site) (chain : Chain) (moves : List Move) : Except Failure Chain := do
  let blocks ← moves.mapM Move.block
  return blocks.foldl (Block.join site) chain

def unrelated (site : Site) (chain : Chain) : List Block → List (TokenType × Span × Span)
  | [] => []
  | b :: bs =>
    ((b.unrelated? site chain).map fun s => (b.type, s.1, s.2)).toList ++
      unrelated site (Block.join site chain b) bs

def ofToken (site : Site) (t : Token) (chain : Chain) : Except Failure Chain :=
  carryOut site chain [.alone t]

def ofFence (site : Site) (t : Token) (chain : Chain) : Except Failure Chain :=
  ofToken site { t with type := .named "fence" } chain

def ofLists (site : Site) (tokens : List Token) (chain : Chain) : Except Failure Chain :=
  match tokens with
  | [] => .error (.outside .emptyList)
  | ts => carryOut site chain (Move.lists site.depthCap ts)

/-- The chain of the blocks around the cursor, put into a seed; without blocks there is none. -/
def chain (site : Site) (tokens : List Token) (seed : Chain) : Except Failure Chain :=
  match Token.around id site.cursor tokens with
  | .error f => .error f
  | .ok [] => .ok []
  | .ok ts => carryOut site seed (Move.all site.depthCap (!seed.isEmpty) ts)

def upToFailure : List Move → List Block
  | [] => []
  | m :: ms => match m.block with
    | .ok b => b :: upToFailure ms
    | .error _ => []

def unrelatedTo (site : Site) (tokens : List Token) (seed : Chain) :
    List (TokenType × Span × Span) :=
  match Token.around id site.cursor tokens with
  | .error _ => []
  | .ok ts => unrelated site seed
      (upToFailure (Move.all site.depthCap (!seed.isEmpty) ts))

end Blocks

end Concentric
