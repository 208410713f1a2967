import Concentric.Digest
import Concentric.Failure
import Concentric.Span
import Concentric.Text.Lines
import Concentric.Text.Points
import Concentric.Unicode.Blank

/-! Documents: a text with its lines, known to hosts by a URI, a version and a digest. Hosts number
versions as they like. -/

namespace Concentric

/-- One line of a document, without its break. -/
structure TextLine where
  number : Nat
  text : String
  deriving DecidableEq, Repr

namespace TextLine

def length (l : TextLine) : Nat := l.text.length

def isBlank (l : TextLine) : Bool := l.text.toList.all Unicode.isBlank

end TextLine

structure Document where
  text : String
  uri : String
  language : String
  version : Value
  hash : String
  lines : List String
  lines_eq : lines = Lines.ofText text

namespace Document

/-- A document of a text. Without a hash of its own it takes the digest of the text. -/
def ofText (text uri language : String) (version : Value) (hash : String) : Document where
  text := text
  uri := uri
  language := language
  version := version
  hash := if hash = "" then Digest.ofText text else hash
  lines := Lines.ofText text
  lines_eq := rfl

/-- A document of code points. It takes the digest of their text, so there has to be one. -/
def ofPoints (points : List CodePoint) (uri language : String) (version : Value) :
    Except Failure Document := do
  return ofText (← CodePoint.text points) uri language version ""

def lineCount (d : Document) : Nat := d.lines.length

theorem lineCount_pos (d : Document) : 0 < d.lineCount := by
  rw [lineCount, d.lines_eq]
  exact List.length_pos_iff.2 (Lines.ofText_ne_nil _)

/-- What tells one state of a document from another: its URI, version and hash. -/
def signature (d : Document) : String :=
  d.uri ++ ":" ++ d.version.display ++ ":" ++ d.hash

/-! ## Lines by number -/

def line? (d : Document) (n : Int) : Option TextLine :=
  if n < 0 then none else (d.lines[n.toNat]?).map (⟨n.toNat, ·⟩)

/-- The failure for a line that the document does not have. A number of more digits than can be
written is told by that alone. -/
def absence (d : Document) (n : Numeral) : Failure :=
  match n with
  | .whole k =>
    if Literal.digitLimit < (Digits.ofNat k.natAbs).length then .refused .unprintable
    else .report (.lineOutOfBounds n d.lineCount)
  | _ => .report (.lineOutOfBounds n d.lineCount)

/-- The line of a numeral. Only whole numbers number lines, but any number may be beyond them. -/
def lineNumbered (d : Document) : Numeral → Except Failure TextLine
  | .real x =>
    if (Numeral.real x).lt (.whole 0) || (Numeral.whole d.lineCount).le (.real x) then
      .error (d.absence (.real x))
    else .error (.mismatch .use)
  | n => match d.line? (n.whole?.getD 0) with
    | some l => .ok l
    | none => .error (d.absence n)

def lineOf (d : Document) (v : Value) : Except Failure TextLine :=
  match v.numeral? with
  | some n => d.lineNumbered n
  | none => .error (.mismatch (.comparison v.kindName (Value.whole 0).kindName))

def lineAt (d : Document) (n : Int) : Except Failure TextLine := d.lineNumbered (.whole n)

def lineText (d : Document) (n : Int) : Except Failure String := (d.lineAt n).map (·.text)

def lineLength (d : Document) (n : Int) : Except Failure Nat := (d.lineAt n).map (·.length)

def isBlank (d : Document) (n : Int) : Except Failure Bool := (d.lineAt n).map (·.isBlank)

theorem line?_isSome_iff {d : Document} {n : Int} :
    (d.line? n).isSome = true ↔ 0 ≤ n ∧ n < d.lineCount := by
  unfold line? lineCount
  split
  · simp
    omega
  · simp
    omega

/-! ## Lines by number, with numbers beyond the document moved into it -/

/-- The nearest line that the document has. -/
def clampLine (d : Document) (n : Int) : Nat := (max 0 (min n (d.lineCount - 1))).toNat

theorem clampLine_lt (d : Document) (n : Int) : d.clampLine n < d.lineCount := by
  have := d.lineCount_pos
  unfold clampLine
  omega

def nearestLength (d : Document) (n : Int) : Nat := (d.lines.getD (d.clampLine n) "").length

def lineEnd (d : Document) (n : Int) : Position := ⟨d.clampLine n, d.nearestLength n⟩

def hasBlank (d : Document) (n : Int) : Bool :=
  match d.line? n with
  | some l => l.isBlank
  | none => false

theorem line?_of_lt {d : Document} {n : Nat} (h : n < d.lineCount) :
    d.line? n = some ⟨n, d.lines.get ⟨n, h⟩⟩ := by
  unfold line?
  rw [if_neg (by omega), Int.toNat_natCast, List.getElem?_eq_getElem h]
  rfl

theorem clampLine_of_lt {d : Document} {n : Nat} (h : n < d.lineCount) : d.clampLine n = n := by
  unfold clampLine
  omega

theorem lineLength_of_lt {d : Document} {n : Nat} (h : n < d.lineCount) :
    d.lineLength n = .ok (d.nearestLength n) := by
  unfold lineLength lineAt lineNumbered nearestLength
  simp only [Numeral.whole?, Option.getD_some]
  rw [line?_of_lt h, clampLine_of_lt h, List.getD_eq_getElem?_getD, List.getElem?_eq_getElem h]
  rfl

end Document

end Concentric
