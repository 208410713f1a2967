import Concentric.Octets.Codec

/-! Texts as code points. A host may hand over a text with halves of surrogate pairs: these are code
points but no characters, and there are no octets for them. -/

namespace Concentric

/-- A code point, which is a character unless it is half of a surrogate pair. -/
abbrev CodePoint := Fin 0x110000

namespace CodePoint

def isSurrogate (p : CodePoint) : Bool := decide (0xD800 ≤ p.val) && decide (p.val < 0xE000)

def ofChar (c : Char) : CodePoint := ⟨c.toNat, by have := c.valid; simp only [Char.toNat]; grind⟩

def ofText (s : String) : List CodePoint := s.toList.map ofChar

/-- The text of code points, of which none may be a surrogate. -/
def text (ps : List CodePoint) : Except Failure String :=
  match ps.mapM fun p => Codec.ofCodePoint? p.val with
  | some cs => .ok (String.ofList cs)
  | none => .error .unencodable

end CodePoint

end Concentric
