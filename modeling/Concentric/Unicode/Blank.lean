import Concentric.Unicode.Ranges

/-! Blank characters, and texts trimmed of them at both ends. -/

namespace Concentric.Unicode

/-- White space of Unicode 14, with the four information separators. -/
def blanks : Ranges :=
  ⟨[(9, 13), (28, 32), (133, 133), (160, 160), (5760, 5760), (8192, 8202),
    (8232, 8233), (8239, 8239), (8287, 8287), (12288, 12288)]⟩

def isBlank (c : Char) : Bool := blanks.has c

def trim (cs : List Char) : List Char :=
  ((cs.dropWhile isBlank).reverse.dropWhile isBlank).reverse

end Concentric.Unicode
