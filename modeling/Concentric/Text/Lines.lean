/-! Lines of a text. A line ends at a line feed, at a carriage return, or at the two together,
which count as one break. The last line has no break, so a text always has a line. -/

namespace Concentric.Lines

/-- The lines of a text without their breaks. -/
def split : List Char → List (List Char)
  | [] => [[]]
  | '\r' :: '\n' :: rest => [] :: split rest
  | '\r' :: rest => [] :: split rest
  | '\n' :: rest => [] :: split rest
  | c :: rest => match split rest with
    | l :: ls => (c :: l) :: ls
    | [] => [[c]]

/-- The text with a line feed for every break. -/
def normalize : List Char → List Char
  | [] => []
  | '\r' :: '\n' :: rest => '\n' :: normalize rest
  | '\r' :: rest => '\n' :: normalize rest
  | c :: rest => c :: normalize rest

def join : List (List Char) → List Char
  | [] => []
  | [l] => l
  | l :: ls => l ++ '\n' :: join ls

theorem split_ne_nil (cs : List Char) : split cs ≠ [] := by
  fun_cases split cs <;> simp

def ofText (s : String) : List String := (split s.toList).map String.ofList

theorem ofText_ne_nil (s : String) : ofText s ≠ [] := by
  simp [ofText, split_ne_nil]

/-- The text with a line feed for every break. -/
def normalizeText (s : String) : String := String.ofList (normalize s.toList)

end Concentric.Lines
